import StyleRules.Proofs.Respelling
import StyleRules.Proofs.TokenCuts

namespace StyleRules

namespace Token

/-- Whether a token is passed over on the way to the operand of an operator. -/
def isFiller (t : Token) : Bool :=
  t.kind == .comment || t.kind == .continuation || t.kind == .lineEnd

/-- Whether a token can start an operand: it closes no bracket and is not the word `not`. -/
def StartsOperand (t : Token) : Prop := t.kind ≠ .closing ∧ ¬(t.kind = .name ∧ t.text = "not".toList)

/-- Behind every equality operator stands what can start an operand. -/
def Followed : List Token → Prop
  | [] => True
  | t :: rest =>
    (t.kind = .operator → (NoneComparison.identityFor? t.text).isSome →
        ∀ next ∈ rest.find? (!·.isFiller), StartsOperand next) ∧
      Followed rest

instance (t : Token) : Decidable t.StartsOperand := inferInstanceAs (Decidable (_ ∧ _))

instance decidableFollowed : (ts : List Token) → Decidable (Followed ts)
  | [] => .isTrue trivial
  | t :: rest =>
    have := decidableFollowed rest
    inferInstanceAs (Decidable
      ((t.kind = .operator → (NoneComparison.identityFor? t.text).isSome →
          ∀ next ∈ rest.find? (!·.isFiller), StartsOperand next) ∧
        Followed rest))

end Token

namespace NoneComparison

namespace Respelling

variable (ρ : Respelling)

/-- The operator as a token. -/
def operator : Token := ⟨.operator, ρ.own, ρ.place, ρ.place + 2⟩

/-- The tokens in its place. -/
def tokens : List Token :=
  if ρ.own = "==".toList then [⟨.name, "is".toList, ρ.move ρ.place, ρ.move (ρ.place + 2)⟩]
  else
    [⟨.name, "is".toList, ρ.move ρ.place, ρ.move ρ.place + 2⟩,
      ⟨.name, "not".toList, ρ.move ρ.place + 3, ρ.move (ρ.place + 2)⟩]

/-- A token where it is afterwards. -/
def moved (t : Token) : Token := { t with start := ρ.move t.start, stop := ρ.move t.stop }

/-- What a token becomes. -/
def recast (t : Token) : List Token := if t = ρ.operator then ρ.tokens else [ρ.moved t]

theorem recast_operator : ρ.recast ρ.operator = ρ.tokens := if_pos rfl

theorem recast_of_ne {t : Token} (h : t ≠ ρ.operator) : ρ.recast t = [ρ.moved t] := if_neg h

/-- No token but the operator is an equality operator in its place. -/
def Meant (t : Token) : Prop :=
  t.kind = .operator → t.start = ρ.place → (identityFor? t.text).isSome → t = ρ.operator

section Levels

open Comparison

/-- A part of a chain afterwards. -/
def part : Part → Part
  | .operator kind s e => .operator (ρ.kindAt s kind) (ρ.move s) (ρ.move e)
  | .aside kind s e => .aside (ρ.kindAt s kind) (ρ.move s) (ρ.move e)
  | .operand s e isNone chains => .operand (ρ.move s) (ρ.move e) isNone (ρ.trees chains)

/-- A level of brackets afterwards. -/
def level (l : Level) : Level :=
  { parts := l.parts.map ρ.part, afterFor := l.afterFor, chains := ρ.trees l.chains }

theorem nodeOf_part (x : Part) : Level.nodeOf (ρ.part x) = ρ.tree (Level.nodeOf x) := by
  cases x with
  | operator kind s e => simp [part, Level.nodeOf, tree, trees]
  | aside kind s e => simp [part, Level.nodeOf, tree, trees]
  | operand s e isNone chains =>
    have hkind := ρ.kindAt_of_eq_none (s := s) (Level.identityFor?_operand isNone)
    rw [part, Level.nodeOf, Level.nodeOf, tree, hkind, Int.toNat_natCast, Int.toNat_natCast]

theorem startOf_part (x : Part) : Level.startOf (ρ.part x) = ρ.move (Level.startOf x) := by
  cases x <;> rfl

theorem stopOf_part (x : Part) : Level.stopOf (ρ.part x) = ρ.move (Level.stopOf x) := by
  cases x <;> rfl

theorem isOperator_part (x : Part) : Level.isOperator (ρ.part x) = Level.isOperator x := by
  cases x <;> rfl

theorem dropAsides_map (parts : List Part) :
    Level.dropAsides (parts.map ρ.part) = (Level.dropAsides parts).map ρ.part := by
  induction parts with
  | nil => rfl
  | cons x parts ih =>
    cases x with
    | aside kind s e => exact ih
    | operator kind s e => rfl
    | operand s e isNone chains => rfl

theorem chainsInside_map (parts : List Part) :
    Level.chainsInside (parts.map ρ.part) = ρ.trees (Level.chainsInside parts) := by
  induction parts with
  | nil => rfl
  | cons x parts ih =>
    have hcons (x : Part) (parts : List Part) : Level.chainsInside (x :: parts) =
        Level.chainsInside [x] ++ Level.chainsInside parts := by
      simp [Level.chainsInside]
    rw [List.map_cons, hcons, hcons x, ih, trees_append]
    cases x <;> simp [part, Level.chainsInside, trees]

theorem separate_level (l : Level) : (ρ.level l).separate = ρ.level l.separate := by
  unfold Level.separate level
  dsimp only
  rw [dropAsides_map, ← List.map_reverse, dropAsides_map]
  generalize Level.dropAsides (Level.dropAsides l.parts).reverse = parts
  generalize Level.dropAsides l.parts = last
  have hany : (parts.map ρ.part).any Level.isOperator = parts.any Level.isOperator := by
    rw [List.any_map]
    congr 1
    funext x
    exact ρ.isOperator_part x
  have hnodes : (parts.map ρ.part).map Level.nodeOf = (parts.map Level.nodeOf).map ρ.tree := by
    rw [List.map_map, List.map_map]
    exact List.map_congr_left fun x _ => ρ.nodeOf_part x
  have hchain (s : Int) : ρ.kindAt s chainKind = chainKind := ρ.kindAt_of_eq_none (by decide)
  rw [List.head?_map, List.head?_map, hany, hnodes, chainsInside_map, trees_append, trees_reverse]
  cases parts.head? with
  | none => rfl
  | some first =>
    cases last.head? with
    | none => rfl
    | some final =>
      simp only [Option.map_some, startOf_part, stopOf_part]
      split
      next => simp [trees, tree, hchain, trees_eq_map]
      next => rfl

theorem addOperand_level (l : Level) (s e : Nat) (isNone : Bool) (chains : List SyntaxTree) :
    (ρ.level l).addOperand (ρ.move s) (ρ.move e) isNone (ρ.trees chains) =
      ρ.level (l.addOperand s e isNone chains) := by
  unfold Level.addOperand level
  dsimp only
  rw [dropAsides_map]
  cases Level.dropAsides l.parts with
  | nil => rfl
  | cons x rest =>
    cases x with
    | operand s' e' isNone' chains' => simp [part, trees_append]
    | operator kind s' e' => rfl
    | aside kind s' e' => rfl

theorem addOperator_level (l : Level) {kind : Text} {s : Nat} (h : ρ.kindAt s kind = kind)
    (e : Nat) : (ρ.level l).addOperator kind (ρ.move s) (ρ.move e) =
      ρ.level (l.addOperator kind s e) := by
  unfold Level.addOperator level
  rw [List.map_cons, part, h]

/-- The operator waits for its operand. -/
def Awaits (l : Level) : Prop :=
  ∃ kind s e rest, Level.dropAsides l.parts = .operator kind s e :: rest ∧ s = ρ.place ∧
    (identityFor? kind).isSome

theorem addNot_level {l : Level} (h : ¬ρ.Awaits l) (s e : Nat) :
    (ρ.level l).addNot (ρ.move s) (ρ.move e) = ρ.level (l.addNot s e) := by
  unfold Awaits at h
  unfold Level.addNot
  rw [separate_level, show (ρ.level l).parts = l.parts.map ρ.part from rfl, dropAsides_map]
  cases hparts : Level.dropAsides l.parts with
  | nil => rfl
  | cons x rest =>
    cases x with
    | aside kind s' e' => rfl
    | operand s' e' isNone chains => exact ρ.addOperator_level l (ρ.kindAt_of_eq_none (by decide)) e
    | operator kind s' e' =>
      have hkind : ρ.kindAt s' kind = kind := by
        rcases ρ.kindAt_cases s' kind with hkind | ⟨hs, hsome, -⟩
        · exact hkind
        · exact absurd ⟨kind, s', e', rest, hparts, Int.ofNat_inj.mp hs, hsome⟩ h
      have hnot : ρ.kindAt s' "is not".toList = "is not".toList :=
        ρ.kindAt_of_eq_none (by decide)
      simp only [List.map_cons, part, hkind]
      split
      next => simp only [level, List.map_cons, part, hnot]
      next => rfl

theorem addIn_level (l : Level) (s e : Nat) :
    (ρ.level l).addIn (ρ.move s) (ρ.move e) = ρ.level (l.addIn s e) := by
  have hkind : ρ.kindAt s "in".toList = "in".toList := ρ.kindAt_of_eq_none (by decide)
  have hin := ρ.addOperator_level l hkind e
  unfold Level.addIn
  rw [show (ρ.level l).parts = l.parts.map ρ.part from rfl, dropAsides_map,
    show (ρ.level l).afterFor = l.afterFor from rfl, separate_level, hin]
  split
  next => rfl
  next =>
    cases Level.dropAsides l.parts with
    | nil => rfl
    | cons x rest =>
      cases x with
      | aside kind s' e' => rfl
      | operand s' e' isNone chains => rfl
      | operator kind s' e' =>
        have hkind : ρ.kindAt s' kind = "not".toList ↔ kind = "not".toList := by
          rcases ρ.kindAt_cases s' kind with hkind | ⟨-, hsome, hkind⟩
          · rw [hkind]
          · constructor
            · intro hnot
              rw [hnot] at hkind
              exact absurd hkind (by decide)
            · rintro rfl
              cases hsome
        have hnot : ρ.kindAt s' "not in".toList = "not in".toList :=
          ρ.kindAt_of_eq_none (by decide)
        simp only [List.map_cons, part, hkind]
        split
        next => simp only [level, List.map_cons, part, hnot]
        next => rfl

theorem addName_level {l : Level} {text : Text} (h : text = "not".toList → ¬ρ.Awaits l)
    (s e : Nat) :
    (ρ.level l).addName text (ρ.move s) (ρ.move e) = ρ.level (l.addName text s e) := by
  unfold Level.addName
  rw [separate_level, addIn_level]
  split
  next hnot => exact ρ.addNot_level (h hnot) s e
  next =>
  split
  next => rfl
  next =>
  split
  next his => exact ρ.addOperator_level l (ρ.kindAt_of_eq_none (by rw [his]; decide)) e
  next =>
  split
  next => rfl
  next =>
  split
  next => rfl
  next => exact ρ.addOperand_level l s e _ []

/-- A piece afterwards. -/
def pieces : Piece → List Piece
  | .token t => (ρ.recast t).map .token
  | .group s e chains => [.group (ρ.move s) (ρ.move e) (ρ.trees chains)]

/-- Whether a piece is passed over on the way to the operand of an operator. -/
def Passed : Piece → Prop
  | .token t => t.isFiller = true
  | .group .. => False

/-- Whether a piece is the word `not`. -/
def Negates : Piece → Prop
  | .token t => t.kind = .name ∧ t.text = "not".toList
  | .group .. => False

/-- No piece but the operator is an equality operator in its place. -/
def MeantPiece : Piece → Prop
  | .token t => ρ.Meant t
  | .group .. => True

theorem add_operator (inside : Bool) (l : Level) :
    (ρ.pieces (.token ρ.operator)).foldl (Level.add inside) (ρ.level l) =
      ρ.level (l.add inside (.token ρ.operator)) := by
  have hadd : l.add inside (.token ρ.operator) =
      l.addOperator ρ.own ρ.place (ρ.place + 2) := by
    have hmem : ρ.own ∈ comparisonOperators := by
      rcases ρ.cases with ⟨h, -⟩ | ⟨h, -⟩
      · rw [h]
        decide
      · rw [h]
        decide
    unfold Level.add operator
    exact if_pos hmem
  have hnew : ρ.level (l.addOperator ρ.own ρ.place (ρ.place + 2)) =
      (ρ.level l).addOperator ρ.word (ρ.move ρ.place) (ρ.move (ρ.place + 2)) := by
    simp only [Level.addOperator, level, List.map_cons, part, kindAt_place]
  rw [hadd, hnew, pieces, recast_operator, tokens]
  rcases ρ.cases with ⟨h, hword⟩ | ⟨h, hword⟩
  · rw [if_pos h, hword]
    rfl
  · rw [if_neg (by rw [h]; decide), hword]
    rfl

theorem add_level (inside : Bool) {l : Level} {p : Piece} (meant : ρ.MeantPiece p)
    (h : Negates p → ¬ρ.Awaits l) :
    (ρ.pieces p).foldl (Level.add inside) (ρ.level l) = ρ.level (l.add inside p) := by
  cases p with
  | group s e chains => exact ρ.addOperand_level l s e false chains
  | token t =>
    by_cases ht : t = ρ.operator
    · rw [ht]
      exact ρ.add_operator inside l
    have hoperand := ρ.addOperand_level l t.start t.stop false []
    have hparts : (ρ.level l).parts = l.parts.map ρ.part := rfl
    rw [pieces, ρ.recast_of_ne ht, List.map_singleton, List.foldl_cons, List.foldl_nil]
    unfold Level.add moved
    dsimp only
    rw [separate_level, hparts, dropAsides_map, List.isEmpty_map]
    cases hkind : t.kind with
    | name => exact ρ.addName_level (fun hnot => h ⟨hkind, hnot⟩) t.start t.stop
    | operator =>
      dsimp only
      split
      next =>
        refine ρ.addOperator_level l ?_ t.stop
        rcases ρ.kindAt_cases t.start t.text with hsame | ⟨hs, hsome, -⟩
        · exact hsame
        · exact absurd (meant hkind (Int.ofNat_inj.mp hs) hsome) ht
      next =>
      split
      next => rfl
      next =>
      split
      next => rfl
      next => exact hoperand
    | lineEnd => cases inside <;> rfl
    | comment =>
      have hcomment : ρ.kindAt t.start "comment".toList = "comment".toList :=
        ρ.kindAt_of_eq_none (by decide)
      simp only [level, List.map_cons, part, hcomment]
    | continuation =>
      have hcontinuation : ρ.kindAt t.start "line_continuation".toList =
          "line_continuation".toList := ρ.kindAt_of_eq_none (by decide)
      simp only [level, List.map_cons, part, hcontinuation]
    | number => exact hoperand
    | literal => exact hoperand
    | opening => exact hoperand
    | closing => exact hoperand

/-- The pieces of a level, last one first, afterwards. -/
def backwards (ps : List Piece) : List Piece := ps.flatMap fun p => (ρ.pieces p).reverse

theorem backwards_reverse (ps : List Piece) :
    (ρ.backwards ps).reverse = ps.reverse.flatMap ρ.pieces := by
  induction ps with
  | nil => rfl
  | cons p ps ih =>
    rw [backwards, List.flatMap_cons, List.reverse_append, List.reverse_reverse, List.reverse_cons,
      List.flatMap_append, List.flatMap_singleton, ← ih]
    rfl

/-- The operator waits for its operand after the pieces of a level, last one first. -/
def Waits : List Piece → Prop
  | [] => False
  | p :: ps => p = .token ρ.operator ∨ (Passed p ∧ Waits ps)

/-- While the operator waits for its operand the word `not` does not come. -/
def Orderly : List Piece → Prop
  | [] => True
  | p :: ps => ρ.MeantPiece p ∧ (Negates p → ¬ρ.Waits ps) ∧ Orderly ps

/-- What is read of a level, last piece first. -/
def levelOf (inside : Bool) (ps : List Piece) : Level :=
  ps.foldr (fun p l => Level.add inside l p) Level.empty

theorem not_awaits_of_head {l : Level} (h : ∀ kind s e,
    (Level.dropAsides l.parts).head? = some (.operator kind s e) → identityFor? kind = none) :
    ¬ρ.Awaits l := by
  rintro ⟨kind, s, e, rest, hparts, -, hsome⟩
  rw [h kind s e (by rw [hparts]; rfl)] at hsome
  cases hsome

theorem not_awaits_separate (l : Level) : ¬ρ.Awaits l.separate :=
  ρ.not_awaits_of_head fun _ _ _ h => by cases h

theorem not_awaits_addOperand (l : Level) (s e : Nat) (isNone : Bool) (chains : List SyntaxTree) :
    ¬ρ.Awaits (l.addOperand s e isNone chains) := by
  apply ρ.not_awaits_of_head
  intro kind s' e' h
  unfold Level.addOperand at h
  split at h
  next => cases h
  next => cases h

theorem not_awaits_addOperator (l : Level) {kind : Text} (hkind : identityFor? kind = none)
    (s e : Nat) : ¬ρ.Awaits (l.addOperator kind s e) := by
  apply ρ.not_awaits_of_head
  intro kind' s' e' h
  cases h
  exact hkind

theorem not_awaits_addName (l : Level) (text : Text) (s e : Nat) :
    ¬ρ.Awaits (l.addName text s e) := by
  unfold Level.addName
  split
  next =>
    unfold Level.addNot
    split
    next =>
      split
      next =>
        apply ρ.not_awaits_of_head
        intro kind s' e' h
        cases h
        decide
      next => exact ρ.not_awaits_separate l
    next => exact ρ.not_awaits_addOperator l (by decide) s e
    next => exact ρ.not_awaits_separate l
  next =>
  split
  next =>
    have hnone : identityFor? "in".toList = none := by decide
    have hin := ρ.not_awaits_addOperator l hnone s e
    unfold Level.addIn
    split
    next => exact ρ.not_awaits_separate l
    next =>
      split
      next =>
        split
        next =>
          apply ρ.not_awaits_of_head
          intro kind s' e' h
          cases h
          decide
        next => exact hin
      next => exact hin
  next =>
  split
  next his => exact ρ.not_awaits_addOperator l (by rw [his]; decide) s e
  next =>
  split
  next => exact ρ.not_awaits_separate l
  next =>
  split
  next => exact ρ.not_awaits_separate l
  next => exact ρ.not_awaits_addOperand l s e _ []

/-- Only the operator itself, or what may stand between it and its operand, leaves it waiting. -/
theorem awaits_add {inside : Bool} {l : Level} {p : Piece} (meant : ρ.MeantPiece p)
    (h : ρ.Awaits (l.add inside p)) : p = .token ρ.operator ∨ (Passed p ∧ ρ.Awaits l) := by
  cases p with
  | group s e chains => exact absurd h (ρ.not_awaits_addOperand l s e false chains)
  | token t =>
    have hoperand := ρ.not_awaits_addOperand l t.start t.stop false []
    have hseparate := ρ.not_awaits_separate l
    unfold Level.add at h
    dsimp only at h
    split at h
    next => exact absurd h (ρ.not_awaits_addName l t.text t.start t.stop)
    next hkind =>
      split at h
      next =>
        obtain ⟨kind, s, e, rest, hparts, hs, hsome⟩ := h
        cases hparts
        exact Or.inl (congrArg Piece.token (meant hkind hs hsome))
      next =>
      split at h
      next => exact absurd h hseparate
      next =>
      split at h
      next => exact absurd h hseparate
      next => exact absurd h hoperand
    next hkind =>
      split at h
      next => exact Or.inr ⟨by simp [Passed, Token.isFiller, hkind], h⟩
      next => exact absurd h hseparate
    next hkind => exact Or.inr ⟨by simp [Passed, Token.isFiller, hkind], h⟩
    next hkind => exact Or.inr ⟨by simp [Passed, Token.isFiller, hkind], h⟩
    all_goals exact absurd h hoperand

theorem waits_of_awaits {inside : Bool} {ps : List Piece} (h : ρ.Orderly ps)
    (awaits : ρ.Awaits (levelOf inside ps)) : ρ.Waits ps := by
  induction ps with
  | nil => exact absurd awaits (ρ.not_awaits_of_head fun _ _ _ h => by cases h)
  | cons p ps ih => exact (ρ.awaits_add h.1 awaits).imp_right fun ⟨hp, hl⟩ => ⟨hp, ih h.2.2 hl⟩

theorem levelOf_backwards (inside : Bool) {ps : List Piece} (h : ρ.Orderly ps) :
    levelOf inside (ρ.backwards ps) = ρ.level (levelOf inside ps) := by
  induction ps with
  | nil => rfl
  | cons p ps ih =>
    obtain ⟨meant, hnot, hrest⟩ := h
    rw [backwards, List.flatMap_cons, levelOf, List.foldr_append, List.foldr_reverse]
    change List.foldl _ (levelOf inside (ρ.backwards ps)) _ = _
    rw [ih hrest]
    exact ρ.add_level inside meant fun hp hl => hnot hp (ρ.waits_of_awaits hrest hl)

theorem chainsOf_backwards (inside : Bool) {ps : List Piece} (h : ρ.Orderly ps) :
    chainsOf inside (ρ.backwards ps).reverse = ρ.trees (chainsOf inside ps.reverse) := by
  have hlevel (ps : List Piece) :
      ps.reverse.foldl (Level.add inside) Level.empty = levelOf inside ps := by
    rw [List.foldl_reverse]
    rfl
  unfold chainsOf
  rw [hlevel, hlevel, levelOf_backwards ρ inside h, separate_level, trees_reverse]
  rfl

end Levels

end Respelling

end NoneComparison

end StyleRules
