import StyleRules.Proofs.IdentityOperators

namespace StyleRules

namespace SyntaxTree

/-- A node without what is below it. -/
def leaf (t : SyntaxTree) : SyntaxTree := .node t.kind t.start t.stop []

/-- A node without what is below its children. -/
def flat (t : SyntaxTree) : SyntaxTree := .node t.kind t.start t.stop (t.children.map leaf)

end SyntaxTree

namespace NoneComparison

/-- Those of the chains that have offending operators, with these operators. -/
def violationsAmong (chains : List SyntaxTree) : List (SyntaxTree × List SyntaxTree) :=
  chains.filterMap fun chain =>
    match offending none chain.children with
    | [] => none
    | operators => some (chain, operators)

theorem offending_map_leaf (previous : Option SyntaxTree) (cs : List SyntaxTree) :
    offending (previous.map SyntaxTree.leaf) (cs.map SyntaxTree.leaf) =
      (offending previous cs).map SyntaxTree.leaf := by
  have hnone (t : Option SyntaxTree) :
      (t.map SyntaxTree.leaf).any (fun x => decide (x.kind = Comparison.noneKind)) =
        t.any (fun x => decide (x.kind = Comparison.noneKind)) := by
    cases t <;> rfl
  induction cs generalizing previous with
  | nil => rfl
  | cons c cs ih =>
    have hrest := ih (some c)
    have hkind : c.leaf.kind = c.kind := rfl
    rw [Option.map_some] at hrest
    rw [List.map_cons, offending, offending]
    simp only [hrest, List.head?_map, hnone, hkind]
    split
    next => rfl
    next => rfl

/-- Whether chains violate the rule does not depend on what is below their children. -/
theorem violationsAmong_map_flat (chains : List SyntaxTree) :
    violationsAmong (chains.map SyntaxTree.flat) =
      (violationsAmong chains).map fun v => (v.1.flat, v.2.map SyntaxTree.leaf) := by
  unfold violationsAmong
  rw [List.filterMap_map, List.map_filterMap]
  apply List.filterMap_congr
  intro chain _
  have hoffending := offending_map_leaf none chain.children
  rw [Option.map_none] at hoffending
  change (match offending none (chain.children.map SyntaxTree.leaf) with
    | [] => none
    | operators => some (chain.flat, operators)) = _
  rw [hoffending]
  cases offending none chain.children with
  | nil => rfl
  | cons op ops => rfl

/-- An equality operator that is spelled as an identity operator instead: the byte offset where it
starts, how it is spelled, and where the offsets of the text are afterwards. -/
structure Respelling where
  place : Nat
  own : Text
  fits : (identityFor? own).isSome
  move : Nat → Nat

namespace Respelling

variable (ρ : Respelling)

/-- The identity operator. -/
def word : Text := (identityFor? ρ.own).getD ρ.own

theorem cases : (ρ.own = "==".toList ∧ ρ.word = "is".toList) ∨
    (ρ.own = "!=".toList ∧ ρ.word = "is not".toList) := by
  obtain ⟨word, hword⟩ := Option.isSome_iff_exists.mp ρ.fits
  rw [Respelling.word, hword]
  exact eq_of_identityFor? hword

def kindAt (s : Int) (kind : Text) : Text :=
  if s = ρ.place then (identityFor? kind).getD kind else kind

mutual

def tree : SyntaxTree → SyntaxTree
  | .node kind s e cs =>
    .node (ρ.kindAt s kind) (ρ.move s.toNat) (ρ.move e.toNat) (trees cs)

def trees : List SyntaxTree → List SyntaxTree
  | [] => []
  | t :: ts => tree t :: trees ts

end

theorem trees_eq_map (ts : List SyntaxTree) : ρ.trees ts = ts.map ρ.tree := by
  induction ts with
  | nil => rfl
  | cons t ts ih => rw [trees, ih, List.map_cons]

theorem trees_append (ts us : List SyntaxTree) :
    ρ.trees (ts ++ us) = ρ.trees ts ++ ρ.trees us := by
  simp only [trees_eq_map, List.map_append]

theorem trees_reverse (ts : List SyntaxTree) : ρ.trees ts.reverse = (ρ.trees ts).reverse := by
  simp only [trees_eq_map, List.map_reverse]

theorem kindAt_of_eq_none {s : Int} {kind : Text} (h : identityFor? kind = none) :
    ρ.kindAt s kind = kind := by
  unfold kindAt
  rw [h]
  exact ite_self kind

theorem kindAt_of_ne {s : Int} (kind : Text) (h : s ≠ ρ.place) : ρ.kindAt s kind = kind := if_neg h

theorem kindAt_place : ρ.kindAt ρ.place ρ.own = ρ.word := if_pos rfl

/-- Only operators become others, and these become identity operators. -/
theorem kindAt_cases (s : Int) (kind : Text) : ρ.kindAt s kind = kind ∨
    (s = ρ.place ∧ (identityFor? kind).isSome ∧
      (ρ.kindAt s kind = "is".toList ∨ ρ.kindAt s kind = "is not".toList)) := by
  unfold kindAt identityFor?
  split
  next hs =>
    split
    next => exact Or.inr ⟨hs, rfl, Or.inl rfl⟩
    next =>
      split
      next => exact Or.inr ⟨hs, rfl, Or.inr rfl⟩
      next => exact Or.inl rfl
  next => exact Or.inl rfl

mutual

theorem preorder_tree (t : SyntaxTree) : (ρ.tree t).preorder = t.preorder.map ρ.tree := by
  cases t with
  | node kind s e cs =>
    have hcs := preorderAll_trees cs
    simp only [tree, SyntaxTree.preorder, List.map_cons, hcs]

theorem preorderAll_trees (ts : List SyntaxTree) :
    SyntaxTree.preorderAll (ρ.trees ts) = (SyntaxTree.preorderAll ts).map ρ.tree := by
  cases ts with
  | nil => rfl
  | cons t ts =>
    have ht := preorder_tree t
    have hts := preorderAll_trees ts
    simp only [trees, SyntaxTree.preorderAll, List.map_append, ht, hts]

end

theorem tree_kind (t : SyntaxTree) : (ρ.tree t).kind = ρ.kindAt t.start t.kind := by
  cases t
  rfl

theorem tree_start (t : SyntaxTree) : (ρ.tree t).start = ρ.move t.start.toNat := by
  cases t
  rfl

theorem tree_children (t : SyntaxTree) : (ρ.tree t).children = t.children.map ρ.tree := by
  cases t
  exact ρ.trees_eq_map _

theorem identityFor?_kindAt (s : Int) (kind : Text) :
    (identityFor? (ρ.kindAt s kind)).isSome ↔ (identityFor? kind).isSome ∧ s ≠ ρ.place := by
  by_cases hs : s = ρ.place
  · have hnone : identityFor? (ρ.kindAt s kind) = none := by
      rw [kindAt, if_pos hs]
      cases hkind : identityFor? kind with
      | none => exact hkind
      | some word =>
        rcases eq_of_identityFor? hkind with ⟨-, rfl⟩ | ⟨-, rfl⟩
        · rfl
        · rfl
    rw [hnone]
    simp [hs]
  · rw [ρ.kindAt_of_ne kind hs]
    simp [hs]

/-- No node becomes one of another kind than an operator, nor is it one afterwards. -/
theorem kindAt_eq_iff (other : Text) (s : Int) (kind : Text) (hnone : identityFor? other = none)
    (his : other ≠ "is".toList) (hnot : other ≠ "is not".toList) :
    ρ.kindAt s kind = other ↔ kind = other := by
  rcases ρ.kindAt_cases s kind with hkind | ⟨-, hsome, hkind⟩
  · rw [hkind]
  · constructor
    · intro h
      rcases hkind with hkind | hkind
      · exact absurd (h.symm.trans hkind) his
      · exact absurd (h.symm.trans hkind) hnot
    · rintro rfl
      rw [hnone] at hsome
      cases hsome

/-- The operators that offend afterwards are those that offend, but for the one respelled. -/
theorem offending_map (previous : Option SyntaxTree) (cs : List SyntaxTree) :
    offending (previous.map ρ.tree) (cs.map ρ.tree) =
      ((offending previous cs).filter fun c => c.start ≠ (ρ.place : Int)).map ρ.tree := by
  have hnone (t : Option SyntaxTree) :
      (t.map ρ.tree).any (fun x => decide (x.kind = Comparison.noneKind)) =
        t.any (fun x => decide (x.kind = Comparison.noneKind)) := by
    cases t with
    | none => rfl
    | some t =>
      have hkind := ρ.kindAt_eq_iff Comparison.noneKind t.start t.kind (by decide) (by decide)
        (by decide)
      simp only [Option.map_some, Option.any_some, tree_kind, hkind]
  induction cs generalizing previous with
  | nil => rfl
  | cons c cs ih =>
    have hrest := ih (some c)
    have hoperator := ρ.identityFor?_kindAt c.start c.kind
    rw [Option.map_some] at hrest
    rw [List.map_cons, offending, offending]
    simp only [hrest, List.head?_map, hnone, tree_kind]
    generalize (previous.any (fun x => decide (x.kind = Comparison.noneKind)) ||
        cs.head?.any (fun x => decide (x.kind = Comparison.noneKind))) = besideNone
    cases besideNone with
    | false => simp
    | true =>
      simp only [Bool.and_true, hoperator]
      by_cases hsome : (identityFor? c.kind).isSome
      · by_cases hstart : c.start = ρ.place
        · simp [hsome, hstart]
        · simp [hsome, hstart]
      · simp [hsome]

/-- A chain with its offending operators afterwards; none if there are no such left. -/
def violation (v : SyntaxTree × List SyntaxTree) : Option (SyntaxTree × List SyntaxTree) :=
  match v.2.filter fun c => c.start ≠ (ρ.place : Int) with
  | [] => none
  | ops => some (ρ.tree v.1, ops.map ρ.tree)

/-- The violations afterwards are those there are, without the operator that is respelled. -/
theorem violationsAmong_map_tree (chains : List SyntaxTree) :
    violationsAmong (chains.map ρ.tree) = (violationsAmong chains).filterMap ρ.violation := by
  unfold violationsAmong
  rw [List.filterMap_map, List.filterMap_filterMap]
  apply List.filterMap_congr
  intro chain _
  have hoffending := ρ.offending_map none chain.children
  rw [Option.map_none] at hoffending
  simp only [Function.comp_apply, tree_children, hoffending]
  cases offending none chain.children with
  | nil => rfl
  | cons op ops =>
    unfold violation
    dsimp only [Option.bind_some]
    cases (op :: ops).filter fun c => c.start ≠ (ρ.place : Int) with
    | nil => rfl
    | cons op' ops' => rfl

theorem nodes_tree (t : SyntaxTree) : (ρ.tree t).nodes (some Comparison.chainKind) =
    (t.nodes (some Comparison.chainKind)).map ρ.tree := by
  simp only [SyntaxTree.nodes_eq_filter, preorder_tree, List.filter_map]
  congr 1
  apply List.filter_congr
  intro n _
  have hkind := ρ.kindAt_eq_iff Comparison.chainKind n.start n.kind (by decide) (by decide)
    (by decide)
  simp only [Function.comp_apply, Option.all_some, tree_kind, eq_comm (a := Comparison.chainKind),
    hkind]

theorem tree_leaf (t : SyntaxTree) : (ρ.tree t).leaf = ρ.tree t.leaf := by
  cases t
  rfl

theorem tree_flat (t : SyntaxTree) : (ρ.tree t).flat = ρ.tree t.flat := by
  cases t with
  | node kind s e cs =>
    have hleaf : SyntaxTree.leaf ∘ ρ.tree = ρ.tree ∘ SyntaxTree.leaf := funext ρ.tree_leaf
    change SyntaxTree.node _ _ _ ((ρ.trees cs).map SyntaxTree.leaf) =
      .node _ _ _ (ρ.trees (cs.map SyntaxTree.leaf))
    rw [trees_eq_map, trees_eq_map, List.map_map, List.map_map, hleaf]
    rfl

end Respelling

theorem eq_of_fits {own : Text} (fits : (identityFor? own).isSome) :
    own = "==".toList ∨ own = "!=".toList := by
  obtain ⟨word, hword⟩ := Option.isSome_iff_exists.mp fits
  exact (eq_of_identityFor? hword).imp And.left And.left

theorem byteSize_of_fits {own : Text} (fits : (identityFor? own).isSome) :
    Text.byteSize own = 2 := by
  rcases eq_of_fits fits with rfl | rfl
  · rfl
  · rfl

theorem length_of_fits {own : Text} (fits : (identityFor? own).isSome) : own.length = 2 := by
  rcases eq_of_fits fits with rfl | rfl
  · rfl
  · rfl

theorem exists_head_of_fits {own : Text} (fits : (identityFor? own).isSome) :
    ∃ c more, own = c :: more ∧ c ≠ ' ' := by
  rcases eq_of_fits fits with rfl | rfl
  · exact ⟨'=', _, rfl, by decide⟩
  · exact ⟨'!', _, rfl, by decide⟩

/-- How many bytes the identity operator for an operator has more. -/
def growth (own : Text) : Nat := Text.byteSize ((identityFor? own).getD own) - 2

/-- The respelling of an operator where it stands: what stands behind it moves. -/
def Respelling.inPlace (place : Nat) {own : Text} (fits : (identityFor? own).isSome) :
    Respelling :=
  { place, own, fits, move := fun s => if s ≤ place then s else s + growth own }

theorem cases_inPlace (place : Nat) {own : Text} (fits : (identityFor? own).isSome) :
    (own = "==".toList ∧ (Respelling.inPlace place fits).word = "is".toList) ∨
      (own = "!=".toList ∧ (Respelling.inPlace place fits).word = "is not".toList) :=
  (Respelling.inPlace place fits).cases

section InPlace

variable {place : Nat} {own : Text} (fits : (identityFor? own).isSome)

theorem move_of_le {s : Nat} (h : s ≤ place) : (Respelling.inPlace place fits).move s = s :=
  if_pos h

theorem move_of_lt {s : Nat} (h : place < s) :
    (Respelling.inPlace place fits).move s = s + growth own := if_neg (Nat.not_le.mpr h)

theorem byteSize_word (place : Nat) {own : Text} (fits : (identityFor? own).isSome) :
    Text.byteSize (Respelling.inPlace place fits).word = 2 + growth own := by
  rcases cases_inPlace place fits with ⟨rfl, hword⟩ | ⟨rfl, hword⟩
  · rw [hword]
    decide
  · rw [hword]
    decide

end InPlace

end NoneComparison

end StyleRules
