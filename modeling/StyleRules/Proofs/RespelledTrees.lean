import StyleRules.Proofs.RespelledTokens
import Mathlib.Data.List.Induction

namespace StyleRules

namespace NoneComparison

namespace Respelling

open Comparison

variable (ρ : Respelling)

theorem waits_append {ps : List Piece} (qs : List Piece) (h : ρ.Waits ps) : ρ.Waits (ps ++ qs) := by
  induction ps with
  | nil => cases h
  | cons p ps ih => exact h.imp_right fun ⟨hp, hps⟩ => ⟨hp, ih hps⟩

theorem orderly_of_append {ps qs : List Piece} (h : ρ.Orderly (ps ++ qs)) :
    ρ.Orderly ps ∧ ρ.Orderly qs := by
  induction ps with
  | nil => exact ⟨trivial, h⟩
  | cons p ps ih =>
    obtain ⟨meant, hnot, hrest⟩ := h
    obtain ⟨hps, hqs⟩ := ih hrest
    exact ⟨⟨meant, fun hp hw => hnot hp (ρ.waits_append qs hw), hps⟩, hqs⟩

theorem orderly_of_part {ps qs : List Piece} (h : ρ.Orderly qs.reverse) (hpart : ps <:+: qs) :
    ρ.Orderly ps.reverse := by
  obtain ⟨before, after, rfl⟩ := hpart
  rw [List.reverse_append, List.reverse_append] at h
  exact (ρ.orderly_of_append (ρ.orderly_of_append h).2).1

/-- Open brackets afterwards. -/
def nesting (n : Nesting) : Nesting :=
  { pieces := ρ.backwards n.pieces
    outer := n.outer.map fun level => (ρ.move level.1, ρ.backwards level.2) }

/-- Every level is orderly, and on the innermost the operator waits only if it does so in the
tokens. -/
structure Ready (waiting : Prop) (n : Nesting) : Prop where
  pieces : ρ.Orderly n.pieces
  outer : ∀ level ∈ n.outer, ρ.Orderly level.2
  waiting : ρ.Waits n.pieces → waiting

/-- Tokens that are no brackets become pieces of the innermost level. -/
theorem foldl_read_plain (n : Nesting) {ts : List Token}
    (h : ∀ t ∈ ts, t.kind ≠ .opening ∧ t.kind ≠ .closing) :
    ts.foldl Nesting.read n = { n with pieces := (ts.map Piece.token).reverse ++ n.pieces } := by
  induction ts generalizing n with
  | nil => rfl
  | cons t ts ih =>
    obtain ⟨⟨hopening, hclosing⟩, hts⟩ := List.forall_mem_cons.mp h
    have hread : n.read t = { n with pieces := .token t :: n.pieces } := by
      unfold Nesting.read
      split
      next hkind => exact absurd hkind hopening
      next hkind => exact absurd hkind hclosing
      next => rfl
    rw [List.foldl_cons, ih _ hts, hread]
    simp

theorem kind_of_mem_tokens {t : Token} (h : t ∈ ρ.tokens) : t.kind = .name := by
  unfold tokens at h
  split at h
  next =>
    rw [List.mem_singleton.mp h]
  next =>
    rcases List.mem_cons.mp h with rfl | h
    · rfl
    · rw [List.mem_singleton.mp h]

theorem kind_of_mem_recast {t t' : Token} (h : t' ∈ ρ.recast t) :
    t'.kind = t.kind ∨ (t = ρ.operator ∧ t'.kind = .name) := by
  unfold recast at h
  split at h
  next ht => exact Or.inr ⟨ht, ρ.kind_of_mem_tokens h⟩
  next =>
    rw [List.mem_singleton.mp h]
    exact Or.inl rfl

variable {ρ} in
theorem Ready.read {waiting : Prop} {n : Nesting} (h : ρ.Ready waiting n) {t : Token}
    (meant : ρ.Meant t) (starts : waiting → t.isFiller = true ∨ t.StartsOperand) :
    (ρ.recast t).foldl Nesting.read (ρ.nesting n) = ρ.nesting (n.read t) ∧
      ρ.Ready (t = ρ.operator ∨ (t.isFiller = true ∧ waiting)) (n.read t) := by
  by_cases hopening : t.kind = .opening
  · have ht : t ≠ ρ.operator := by
      rintro rfl
      cases hopening
    have hread (n : Nesting) {t : Token} (hopening : t.kind = .opening) :
        n.read t = { pieces := [], outer := (t.start, n.pieces) :: n.outer } := by
      unfold Nesting.read
      rw [hopening]
    rw [ρ.recast_of_ne ht, List.foldl_cons, List.foldl_nil, hread _ hopening,
      hread (t := ρ.moved t) _ hopening]
    exact ⟨rfl, trivial, List.forall_mem_cons.mpr ⟨h.pieces, h.outer⟩, fun hw => hw.elim⟩
  by_cases hclosing : t.kind = .closing
  · have ht : t ≠ ρ.operator := by
      rintro rfl
      cases hclosing
    have hread (n : Nesting) {t : Token} (hclosing : t.kind = .closing) :
        n.read t = n.close t.stop := by
      unfold Nesting.read
      rw [hclosing]
    have hwaiting : ¬waiting := by
      intro hw
      rcases starts hw with hfiller | hstarts
      · simp [Token.isFiller, hclosing] at hfiller
      · exact hstarts.1 hclosing
    rw [ρ.recast_of_ne ht, List.foldl_cons, List.foldl_nil, hread _ hclosing,
      hread (t := ρ.moved t) _ hclosing]
    unfold Nesting.close nesting
    cases houter : n.outer with
    | nil => exact ⟨by simp [houter], h.pieces, h.outer, fun hw => absurd (h.waiting hw) hwaiting⟩
    | cons level outer =>
      obtain ⟨haround, houter⟩ := List.forall_mem_cons.mp (houter ▸ h.outer)
      refine ⟨?_, ⟨trivial, fun hp => hp.elim, haround⟩, houter, ?_⟩
      · simp only [List.map_cons, ρ.chainsOf_backwards true h.pieces]
        rfl
      · rintro (hw | ⟨hp, -⟩)
        · cases hw
        · exact hp.elim
  · have hread : n.read t = { n with pieces := .token t :: n.pieces } :=
      foldl_read_plain n (List.forall_mem_singleton.mpr ⟨hopening, hclosing⟩)
    have hplain : ∀ t' ∈ ρ.recast t, t'.kind ≠ .opening ∧ t'.kind ≠ .closing := by
      intro t' ht'
      rcases ρ.kind_of_mem_recast ht' with hkind | ⟨-, hkind⟩
      · rw [hkind]
        exact ⟨hopening, hclosing⟩
      · rw [hkind]
        exact ⟨by decide, by decide⟩
    rw [foldl_read_plain _ hplain, hread]
    refine ⟨rfl, ⟨meant, fun hp hw => ?_, h.pieces⟩, h.outer, ?_⟩
    · rcases starts (h.waiting hw) with hfiller | hstarts
      · simp [Token.isFiller, hp.1] at hfiller
      · exact hstarts.2 hp
    · rintro (hw | ⟨hp, hw⟩)
      · exact Or.inl (Piece.token.inj hw)
      · exact Or.inr ⟨hp, h.waiting hw⟩

variable {ρ} in
theorem Ready.readAll {waiting : Prop} {n : Nesting} {ts : List Token} (h : ρ.Ready waiting n)
    (meant : ∀ t ∈ ts, ρ.Meant t) (followed : Token.Followed ts)
    (starts : waiting → ∀ next ∈ ts.find? (!·.isFiller), next.StartsOperand) :
    (ts.flatMap ρ.recast).foldl Nesting.read (ρ.nesting n) =
        ρ.nesting (ts.foldl Nesting.read n) ∧
      ∃ waiting', ρ.Ready waiting' (ts.foldl Nesting.read n) := by
  induction ts generalizing n waiting with
  | nil => exact ⟨rfl, waiting, h⟩
  | cons t ts ih =>
    obtain ⟨ht, hts⟩ := List.forall_mem_cons.mp meant
    obtain ⟨hnext, followed⟩ := followed
    have hfind : waiting → t.isFiller = true ∨ t.StartsOperand := by
      intro hw
      cases hfiller : t.isFiller with
      | true => exact Or.inl rfl
      | false => exact Or.inr (starts hw t (by simp [hfiller]))
    obtain ⟨hstep, hready⟩ := h.read ht hfind
    have hrest : t = ρ.operator ∨ (t.isFiller = true ∧ waiting) →
        ∀ next ∈ ts.find? (!·.isFiller), next.StartsOperand := by
      rintro (rfl | ⟨hfiller, hw⟩)
      · exact hnext rfl ρ.fits
      · intro next hmem
        exact starts hw next (by simpa [hfiller] using hmem)
    rw [List.flatMap_cons, List.foldl_append, hstep, List.foldl_cons]
    exact ih hready hts followed hrest

theorem closeAll_backwards (size : Nat) {ps : List Piece} {outer : List (Nat × List Piece)}
    (hps : ρ.Orderly ps) (houter : ∀ level ∈ outer, ρ.Orderly level.2) :
    Nesting.closeAll (ρ.move size) (ρ.backwards ps)
        (outer.map fun level => (ρ.move level.1, ρ.backwards level.2)) =
        (Nesting.closeAll size ps outer).flatMap ρ.pieces ∧
      ρ.Orderly (Nesting.closeAll size ps outer).reverse := by
  induction outer generalizing ps with
  | nil =>
    unfold Nesting.closeAll
    rw [List.reverse_reverse]
    exact ⟨ρ.backwards_reverse ps, hps⟩
  | cons level outer ih =>
    obtain ⟨hlevel, houter⟩ := List.forall_mem_cons.mp houter
    have hgroup : ρ.Orderly
        (.group level.1 size (chainsOf true ps.reverse) :: level.2) :=
      ⟨trivial, fun hp => hp.elim, hlevel⟩
    have hrest := ih hgroup houter
    rw [List.map_cons, Nesting.closeAll, Nesting.closeAll, ρ.chainsOf_backwards true hps]
    exact hrest

theorem linesOf_ne_nil (ps : List Piece) : linesOf ps ≠ [] := by
  cases ps with
  | nil => exact List.cons_ne_nil _ _
  | cons p ps =>
    unfold linesOf
    split
    next => exact List.cons_ne_nil _ _
    next =>
      split
      next => exact List.cons_ne_nil _ _
      next => exact List.cons_ne_nil _ _

theorem linesOf_cons {p : Piece} (hp : p.isLineEnd = false) (ps : List Piece) :
    ∃ line lines, linesOf ps = line :: lines ∧ linesOf (p :: ps) = (p :: line) :: lines := by
  obtain ⟨line, lines, hlines⟩ := List.exists_cons_of_ne_nil (linesOf_ne_nil ps)
  refine ⟨line, lines, hlines, ?_⟩
  rw [linesOf, hp, hlines]
  rfl

/-- The first line of pieces is what they start with, and the others stand in them as well. -/
theorem linesOf_parts (ps : List Piece) :
    (∀ line ∈ (linesOf ps).head?, line <+: ps) ∧ ∀ line ∈ linesOf ps, line <:+: ps := by
  induction ps with
  | nil =>
    refine ⟨fun line h => ?_, fun line h => ?_⟩
    · cases Option.mem_some.mp h
      exact List.nil_prefix
    · cases List.mem_singleton.mp h
      exact List.nil_infix
  | cons p ps ih =>
    cases hp : p.isLineEnd with
    | true =>
      rw [linesOf, if_pos hp]
      refine ⟨fun line h => ?_, List.forall_mem_cons.mpr ⟨List.nil_infix, fun line h => ?_⟩⟩
      · cases Option.mem_some.mp h
        exact List.nil_prefix
      · exact List.infix_cons (ih.2 line h)
    | false =>
      obtain ⟨line, lines, hlines, hcons⟩ := linesOf_cons hp ps
      rw [hlines] at ih
      rw [hcons]
      have hstarts : p :: line <+: p :: ps := List.cons_prefix_cons.mpr ⟨rfl, ih.1 line rfl⟩
      refine ⟨fun line h => ?_, List.forall_mem_cons.mpr ⟨hstarts.isInfix, fun line h => ?_⟩⟩
      · cases Option.mem_some.mp h
        exact hstarts
      · exact List.infix_cons (ih.2 line (List.mem_cons_of_mem _ h))

theorem dropMatch_suffix (line : List Piece) : dropMatch line <:+ line := by
  unfold dropMatch
  split
  next first second rest =>
    dsimp only
    split
    next => exact List.suffix_cons _ _
    next => exact List.suffix_refl _
  next => exact List.suffix_refl _

theorem tokens_ne_nil : ρ.tokens ≠ [] := by
  unfold tokens
  split
  next => exact List.cons_ne_nil _ _
  next => exact List.cons_ne_nil _ _

theorem pieces_ne_nil (p : Piece) : ρ.pieces p ≠ [] := by
  cases p with
  | group s e chains => exact List.cons_ne_nil _ _
  | token t =>
    unfold pieces recast
    rw [ne_eq, List.map_eq_nil_iff]
    split
    next => exact ρ.tokens_ne_nil
    next => exact List.cons_ne_nil _ _

/-- What does not depend on offsets and tells no operator from a name is as it was. -/
theorem forall_pieces {q : Piece → Bool} {p : Piece}
    (hmoved : ∀ t, q (.token (ρ.moved t)) = q (.token t))
    (hgroup : ∀ s e chains s' e' chains', q (.group s e chains) = q (.group s' e' chains'))
    (hnames : ∀ t ∈ ρ.tokens, q (.token t) = q (.token ρ.operator)) :
    ∀ p' ∈ ρ.pieces p, q p' = q p := by
  cases p with
  | group s e chains => exact List.forall_mem_singleton.mpr (hgroup ..)
  | token t =>
    unfold pieces
    refine List.forall_mem_map.mpr fun t' ht' => ?_
    by_cases ht : t = ρ.operator
    · rw [ht, recast_operator] at ht'
      rw [ht]
      exact hnames t' ht'
    · rw [ρ.recast_of_ne ht] at ht'
      rw [List.mem_singleton.mp ht']
      exact hmoved t

theorem isLineEnd_pieces (p : Piece) : ∀ p' ∈ ρ.pieces p, p'.isLineEnd = p.isLineEnd :=
  ρ.forall_pieces (fun _ => rfl) (fun _ _ _ _ _ _ => rfl) fun t ht => by
    simp only [Piece.isLineEnd, ρ.kind_of_mem_tokens ht]
    rfl

theorem isAside_pieces (p : Piece) : ∀ p' ∈ ρ.pieces p, p'.isAside = p.isAside :=
  ρ.forall_pieces (fun _ => rfl) (fun _ _ _ _ _ _ => rfl) fun t ht => by
    simp only [Piece.isAside, ρ.kind_of_mem_tokens ht]
    rfl

theorem isColon_pieces (p : Piece) : ∀ p' ∈ ρ.pieces p, p'.isOperator ":" = p.isOperator ":" :=
  ρ.forall_pieces (fun _ => rfl) (fun _ _ _ _ _ _ => rfl) fun t ht => by
    have hown : ρ.own ≠ ":".toList := by
      rcases ρ.cases with ⟨h, -⟩ | ⟨h, -⟩
      · rw [h]
        decide
      · rw [h]
        decide
    have hname : t.kind ≠ .operator := by
      rw [ρ.kind_of_mem_tokens ht]
      exact nofun
    simp only [Piece.isOperator, operator, beq_eq_false_iff_ne.mpr hown,
      beq_eq_false_iff_ne.mpr hname, Bool.false_and, Bool.and_false]

theorem isMatch_pieces (p : Piece) : ∀ p' ∈ ρ.pieces p, p'.isName "match" = p.isName "match" :=
  ρ.forall_pieces (fun _ => rfl) (fun _ _ _ _ _ _ => rfl) fun t ht => by
    have htext : t.text ≠ "match".toList := by
      unfold tokens at ht
      split at ht
      next =>
        rw [List.mem_singleton.mp ht]
        dsimp only
        decide
      next =>
        rcases List.mem_cons.mp ht with rfl | ht
        · dsimp only
          decide
        · rw [List.mem_singleton.mp ht]
          dsimp only
          decide
    simp only [Piece.isName, beq_eq_false_iff_ne.mpr htext, Bool.and_false]
    rfl

theorem linesOf_flatMap (ps : List Piece) :
    linesOf (ps.flatMap ρ.pieces) = (linesOf ps).map fun line => line.flatMap ρ.pieces := by
  induction ps with
  | nil => rfl
  | cons p ps ih =>
    rw [List.flatMap_cons]
    have hlineEnd := ρ.isLineEnd_pieces p
    cases hp : p.isLineEnd with
    | true =>
      have hone : ∃ p', ρ.pieces p = [p'] := by
        cases p with
        | group s e chains => exact ⟨_, rfl⟩
        | token t =>
          have ht : t ≠ ρ.operator := by
            rintro rfl
            cases hp
          exact ⟨_, by rw [pieces, ρ.recast_of_ne ht, List.map_singleton]⟩
      obtain ⟨p', hp'⟩ := hone
      rw [hp'] at hlineEnd ⊢
      rw [List.singleton_append, linesOf, linesOf,
        if_pos ((hlineEnd p' List.mem_cons_self).trans hp), if_pos hp, ih]
      rfl
    | false =>
      obtain ⟨line, lines, hlines, hcons⟩ := linesOf_cons hp ps
      rw [hlines, List.map_cons] at ih
      rw [hcons, List.map_cons, List.flatMap_cons]
      rw [hp] at hlineEnd
      revert hlineEnd
      generalize ρ.pieces p = more
      intro hlineEnd
      induction more with
      | nil => exact ih
      | cons x more ihmore =>
        obtain ⟨hx, hmore⟩ := List.forall_mem_cons.mp hlineEnd
        obtain ⟨line', lines', hlines', hcons'⟩ := linesOf_cons hx (more ++ ps.flatMap ρ.pieces)
        rw [ihmore hmore] at hlines'
        cases hlines'
        exact hcons'

/-- Whether a line ends with a colon, apart from comments. -/
def EndsWithColon (line : List Piece) : Prop :=
  ((line.filter (!·.isAside)).getLast?).any (Piece.isOperator ":") = true

theorem endsWithColon_flatMap (line : List Piece) :
    EndsWithColon (line.flatMap ρ.pieces) ↔ EndsWithColon line := by
  unfold EndsWithColon
  induction line using List.reverseRecOn with
  | nil => rfl
  | append_singleton line p ih =>
    have haside := ρ.isAside_pieces p
    rw [List.flatMap_append, List.flatMap_singleton, List.filter_append, List.filter_append,
      List.getLast?_append, List.getLast?_append]
    cases hp : p.isAside with
    | true =>
      have hnone : (ρ.pieces p).filter (!·.isAside) = [] :=
        List.filter_eq_nil_iff.mpr fun p' hp' => by simp [haside p' hp', hp]
      rw [hnone, List.filter_singleton, hp]
      exact ih
    | false =>
      have hall : (ρ.pieces p).filter (!·.isAside) = ρ.pieces p :=
        List.filter_eq_self.mpr fun p' hp' => by simp [haside p' hp', hp]
      obtain ⟨last, hlast⟩ := List.getLast?_isSome.mpr (ρ.pieces_ne_nil p) |> Option.isSome_iff_exists.mp
      have hcolon := ρ.isColon_pieces p last (List.mem_of_getLast? hlast)
      rw [hall, hlast, List.filter_singleton, hp]
      simp [hcolon]

theorem dropMatch_of_head {line : List Piece}
    (h : ∀ first ∈ line.head?, first.isName "match" = false) : dropMatch line = line := by
  unfold dropMatch
  split
  next first second rest =>
    dsimp only
    rw [if_neg (by simp [h first rfl])]
  next => rfl

theorem dropMatch_cons {first : Piece} (second : Piece) (rest : List Piece)
    (h : first.isName "match" = true) :
    (second.isOperator ":" = false ∧ EndsWithColon (second :: rest) ∧
        dropMatch (first :: second :: rest) = second :: rest) ∨
      (¬(second.isOperator ":" = false ∧ EndsWithColon (second :: rest)) ∧
        dropMatch (first :: second :: rest) = first :: second :: rest) := by
  unfold dropMatch EndsWithColon
  dsimp only
  split
  next hmatch => exact Or.inl ⟨by simpa using hmatch.2.1, hmatch.2.2, rfl⟩
  next hmatch => exact Or.inr ⟨fun hends => hmatch ⟨h, by simp [hends.1], hends.2⟩, rfl⟩

theorem dropMatch_flatMap (line : List Piece) :
    dropMatch (line.flatMap ρ.pieces) = (dropMatch line).flatMap ρ.pieces := by
  cases line with
  | nil => rfl
  | cons first rest =>
    obtain ⟨first', more, hfirst⟩ := List.exists_cons_of_ne_nil (ρ.pieces_ne_nil first)
    have hname := ρ.isMatch_pieces first first' (by rw [hfirst]; exact List.mem_cons_self)
    cases hmatch : first.isName "match" with
    | false =>
      have hold : dropMatch (first :: rest) = first :: rest :=
        dropMatch_of_head fun _ h => by cases h; exact hmatch
      rw [hold]
      apply dropMatch_of_head
      intro x h
      rw [List.flatMap_cons, hfirst] at h
      cases h
      rw [hname, hmatch]
    | true =>
      have hone : more = [] := by
        cases first with
        | group s e chains => exact (List.cons.inj hfirst).2.symm
        | token t =>
          have ht : t ≠ ρ.operator := by
            rintro rfl
            cases hmatch
          rw [pieces, ρ.recast_of_ne ht] at hfirst
          exact (List.cons.inj hfirst).2.symm
      subst hone
      cases rest with
      | nil =>
        have hsingle (p : Piece) : dropMatch [p] = [p] := rfl
        rw [List.flatMap_singleton, hfirst, hsingle, hsingle, List.flatMap_singleton, hfirst]
      | cons second rest =>
        obtain ⟨second', more, hsecond⟩ := List.exists_cons_of_ne_nil (ρ.pieces_ne_nil second)
        have hcolon := ρ.isColon_pieces second second' (by rw [hsecond]; exact List.mem_cons_self)
        have hends := ρ.endsWithColon_flatMap (second :: rest)
        rw [List.flatMap_cons, hsecond, List.cons_append] at hends
        rw [List.flatMap_cons, List.flatMap_cons, hfirst, hsecond, List.singleton_append,
          List.cons_append]
        have hboth := dropMatch_cons second' (more ++ rest.flatMap ρ.pieces) (hname.trans hmatch)
        rw [hcolon, hends] at hboth
        rcases dropMatch_cons second rest hmatch with ⟨hsep, hend, hdrop⟩ | ⟨hnot, hdrop⟩
        · rcases hboth with ⟨-, -, hdrop'⟩ | ⟨hnot, -⟩
          · rw [hdrop, hdrop', List.flatMap_cons, hsecond, List.cons_append]
          · exact absurd ⟨hsep, hend⟩ hnot
        · rcases hboth with ⟨hsep, hend, -⟩ | ⟨-, hdrop'⟩
          · exact absurd ⟨hsep, hend⟩ hnot
          · rw [hdrop, hdrop', List.flatMap_cons, List.flatMap_cons, hfirst, hsecond,
              List.singleton_append, List.cons_append]

/-- The syntax tree of the tokens of a text of that many bytes. -/
def treeOf (size : Nat) (ts : List Token) : SyntaxTree :=
  let read := ts.foldl Nesting.read { pieces := [], outer := [] }
  .node "module".toList 0 size
    ((linesOf (Nesting.closeAll size read.pieces read.outer)).flatMap fun line =>
      chainsOf false (dropMatch line))

theorem ofText_eq_treeOf (text : Text) :
    SyntaxTree.ofText text = treeOf (Text.byteSize text) (Token.ofText text) := rfl

variable {size : Nat} {ts : List Token}

/-- The tree of the tokens afterwards is the tree of the tokens, afterwards. -/
theorem treeOf_recast (meant : ∀ t ∈ ts, ρ.Meant t) (followed : Token.Followed ts)
    (hzero : ρ.move 0 = 0) :
    treeOf (ρ.move size) (ts.flatMap ρ.recast) = ρ.tree (treeOf size ts) := by
  have hstart : ρ.Ready False { pieces := [], outer := [] } :=
    ⟨trivial, List.forall_mem_nil _, fun h => h⟩
  obtain ⟨hread, waiting, hready⟩ := hstart.readAll meant followed fun h => h.elim
  have hmodule : ρ.kindAt 0 "module".toList = "module".toList := ρ.kindAt_of_eq_none (by decide)
  unfold treeOf
  change SyntaxTree.node _ _ _ ((linesOf (Nesting.closeAll (ρ.move size)
    (List.foldl Nesting.read (ρ.nesting { pieces := [], outer := [] }) _).pieces
    (List.foldl Nesting.read (ρ.nesting { pieces := [], outer := [] }) _).outer)).flatMap _) = _
  rw [hread, tree, hmodule, Int.toNat_natCast, Int.toNat_zero, hzero]
  generalize ts.foldl Nesting.read { pieces := [], outer := [] } = n at hready
  obtain ⟨hclose, horderly⟩ := ρ.closeAll_backwards size hready.pieces hready.outer
  unfold nesting
  dsimp only
  rw [hclose, linesOf_flatMap, List.flatMap_map, trees_eq_map, List.map_flatMap]
  congr 1
  apply List.flatMap_congr
  intro line hline
  have hpart := (dropMatch_suffix line).isInfix.trans ((linesOf_parts _).2 line hline)
  have hchains := ρ.chainsOf_backwards false (ρ.orderly_of_part horderly hpart)
  rw [backwards_reverse, List.reverse_reverse] at hchains
  rw [dropMatch_flatMap, hchains, trees_eq_map]

/-- Where no token changes and no offset of one moves, nothing changes in the tree. -/
theorem tree_eq_self (absent : ∀ t ∈ ts, t.start ≠ ρ.place ∨ t.kind ≠ .operator ∨
      identityFor? t.text = none)
    (fixed : ∀ t ∈ ts, ρ.move t.start = t.start ∧ ρ.move t.stop = t.stop)
    (followed : Token.Followed ts) (hzero : ρ.move 0 = 0) (hsize : ρ.move size = size) :
    ∀ n ∈ (treeOf size ts).preorder, ρ.tree n = n := by
  have hrecast : ts.flatMap ρ.recast = ts := by
    have hone : ∀ t ∈ ts, ρ.recast t = [t] := by
      intro t ht
      have hne : t ≠ ρ.operator := by
        rintro rfl
        rcases absent _ ht with h | h | h
        · exact h rfl
        · exact h rfl
        · have hfits := ρ.fits
          rw [show identityFor? ρ.own = none from h] at hfits
          cases hfits
      obtain ⟨hstart, hstop⟩ := fixed t ht
      rw [ρ.recast_of_ne hne, moved, hstart, hstop]
    rw [List.flatMap_congr hone, List.flatMap_singleton']
  have hmeant : ∀ t ∈ ts, ρ.Meant t := by
    intro t ht hkind hstart hsome
    rcases absent t ht with h | h | h
    · exact absurd hstart h
    · exact absurd hkind h
    · rw [h] at hsome
      cases hsome
  have htree : treeOf (ρ.move size) (ts.flatMap ρ.recast) = ρ.tree (treeOf size ts) :=
    ρ.treeOf_recast hmeant followed hzero
  rw [hrecast, hsize] at htree
  have hpreorder := ρ.preorder_tree (treeOf size ts)
  rw [← htree] at hpreorder
  have hid : (treeOf size ts).preorder.map ρ.tree = (treeOf size ts).preorder.map id := by
    rw [← hpreorder, List.map_id]
  exact List.map_inj_left.mp hid

end Respelling

end NoneComparison

end StyleRules
