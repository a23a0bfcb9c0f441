import StyleRules.Text.Basic
import Mathlib.Data.List.Perm.Basic

namespace StyleRules

variable {α : Type} {le : α → α → Bool}

theorem sortBy_place_perm (x : α) (ys : List α) : (sortBy.place le x ys).Perm (x :: ys) := by
  induction ys with
  | nil => exact List.Perm.refl _
  | cons y ys ih =>
    unfold sortBy.place
    split
    next => exact List.Perm.refl _
    next => exact (ih.cons y).trans (List.Perm.swap x y ys)

theorem sortBy_perm (xs : List α) : (sortBy le xs).Perm xs := by
  induction xs with
  | nil => exact List.Perm.refl _
  | cons x xs ih => exact (sortBy_place_perm x _).trans (ih.cons x)

theorem sortBy_place_pairwise (total : ∀ a b, le a b ∨ le b a)
    (trans : ∀ a b c, le a b → le b c → le a c) (x : α) {ys : List α}
    (hs : ys.Pairwise (le · ·)) : (sortBy.place le x ys).Pairwise (le · ·) := by
  induction ys with
  | nil => exact List.pairwise_singleton _ x
  | cons y ys ih =>
    have hy := List.pairwise_cons.mp hs
    unfold sortBy.place
    split
    next hle =>
      apply List.pairwise_cons.mpr
      refine ⟨?_, hs⟩
      intro z hz
      rcases List.mem_cons.mp hz with rfl | hz
      · exact hle
      · exact trans _ _ _ hle (hy.1 z hz)
    next hle =>
      apply List.pairwise_cons.mpr
      refine ⟨?_, ih hy.2⟩
      intro z hz
      rcases List.mem_cons.mp ((sortBy_place_perm x ys).mem_iff.mp hz) with rfl | hz
      · exact (total y z).resolve_right hle
      · exact hy.1 z hz

theorem sortBy_pairwise (total : ∀ a b, le a b ∨ le b a)
    (trans : ∀ a b c, le a b → le b c → le a c) (xs : List α) :
    (sortBy le xs).Pairwise (le · ·) := by
  induction xs with
  | nil => exact List.Pairwise.nil
  | cons x xs ih => exact sortBy_place_pairwise total trans x ih

theorem sortBy_eq_self {xs : List α} (hs : xs.Pairwise (le · ·)) : sortBy le xs = xs := by
  induction xs with
  | nil => rfl
  | cons x xs ih =>
    have hx := List.pairwise_cons.mp hs
    unfold sortBy
    rw [ih hx.2]
    cases xs with
    | nil => rfl
    | cons y ys => simp [sortBy.place, hx.1 y (by simp)]

theorem sortBy_place_eq_append {x : α} {ys : List α} (h : ∀ y ∈ ys, le x y = false) :
    sortBy.place le x ys = ys ++ [x] := by
  induction ys with
  | nil => rfl
  | cons y ys ih =>
    have hy := h y (by simp)
    unfold sortBy.place
    rw [hy, ih fun z hz => h z (List.mem_cons_of_mem y hz)]
    rfl

theorem sortBy_place_filter {p : α → Bool} (tie : ∀ a b, p a → p b → le a b) (x : α)
    (ys : List α) : (sortBy.place le x ys).filter p = (x :: ys).filter p := by
  induction ys with
  | nil => rfl
  | cons y ys ih =>
    unfold sortBy.place
    split
    next => rfl
    next hle =>
      rw [List.filter_cons, ih]
      by_cases hx : p x
      · have hy : ¬p y := fun hy => hle (tie x y hx hy)
        simp [hx, hy]
      · simp [hx, List.filter_cons]

/-- Elements that stand in the relation both ways come out in the order in which they went in. -/
theorem sortBy_filter {p : α → Bool} (tie : ∀ a b, p a → p b → le a b) (xs : List α) :
    (sortBy le xs).filter p = xs.filter p := by
  induction xs with
  | nil => rfl
  | cons x xs ih =>
    unfold sortBy
    rw [sortBy_place_filter tie, List.filter_cons, List.filter_cons, ih]

/-- An element put between two parts of a list leaves a further element its place among the rest. -/
theorem sortBy_place_split (trans : ∀ a b c, le a b → le b c → le a c) (y : α) {x : α}
    (before : List α) {after : List α} (hx : ∀ z ∈ after.head?, le x z) :
    ∃ b a, sortBy.place le y (before ++ after) = b ++ a ∧
      sortBy.place le y (before ++ x :: after) = b ++ x :: a := by
  induction before with
  | nil =>
    by_cases hy : le y x
    · -- what `y` may stand before may also come behind `x`
      refine ⟨[y], after, ?_, by simp [sortBy.place, hy]⟩
      cases after with
      | nil => rfl
      | cons z rest => simp [sortBy.place, trans y x z hy (hx z rfl)]
    · exact ⟨[], sortBy.place le y after, rfl, by simp [sortBy.place, hy]⟩
  | cons w before ih =>
    by_cases hy : le y w
    · exact ⟨y :: w :: before, after, by simp [sortBy.place, hy], by simp [sortBy.place, hy]⟩
    · obtain ⟨b, a, hrest, hsplit⟩ := ih
      refine ⟨w :: b, a, ?_, ?_⟩
      · simp [sortBy.place, hy, hrest]
      · simp [sortBy.place, hy, hsplit]

/-- One more element at the end of a list comes to stand somewhere among those sorted without it. -/
theorem sortBy_concat (total : ∀ a b, le a b ∨ le b a)
    (trans : ∀ a b c, le a b → le b c → le a c) (xs : List α) (x : α) :
    ∃ before after, sortBy le xs = before ++ after ∧
      sortBy le (xs ++ [x]) = before ++ x :: after := by
  induction xs with
  | nil => exact ⟨[], [], rfl, rfl⟩
  | cons y xs ih =>
    obtain ⟨before, after, hxs, hconcat⟩ := ih
    have hsorted := sortBy_pairwise total trans (xs ++ [x])
    rw [hconcat] at hsorted
    have hbehind := (List.pairwise_cons.mp (List.pairwise_append.mp hsorted).2.1).1
    obtain ⟨b, a, hrest, hsplit⟩ := sortBy_place_split trans y before
      (fun z hz => hbehind z (List.mem_of_mem_head? hz))
    exact ⟨b, a, by rw [sortBy, hxs, hrest], by rw [List.cons_append, sortBy, hconcat, hsplit]⟩

section Keys

variable {β : Type} {key : α → β}

theorem map_sortBy_place {le : β → β → Bool} (x : α) (ys : List α) :
    (sortBy.place (fun a b => le (key a) (key b)) x ys).map key =
      sortBy.place le (key x) (ys.map key) := by
  induction ys with
  | nil => rfl
  | cons y ys ih =>
    simp only [sortBy.place, List.map_cons]
    split
    next => rfl
    next => rw [List.map_cons, ih]

/-- The keys of a list sorted by its keys are its keys, sorted. -/
theorem map_sortBy {le : β → β → Bool} (xs : List α) :
    (sortBy (fun a b => le (key a) (key b)) xs).map key = sortBy le (xs.map key) := by
  induction xs with
  | nil => rfl
  | cons x xs ih => rw [sortBy, map_sortBy_place, ih, List.map_cons, sortBy]

theorem compare_ne_gt_iff [Ord β] {a b : β} :
    (compare a b != .gt) = true ↔ (compare a b).isLE := by
  cases compare a b <;> decide

variable [Ord β] [Std.TransOrd β]

theorem compare_ne_gt_total (a b : β) :
    (compare a b != .gt) = true ∨ (compare b a != .gt) = true := by
  rw [compare_ne_gt_iff, compare_ne_gt_iff, Std.OrientedOrd.eq_swap (a := b)]
  cases compare a b <;> decide

theorem compare_ne_gt_trans (a b c : β) (hab : (compare a b != .gt) = true)
    (hbc : (compare b c != .gt) = true) : (compare a c != .gt) = true := by
  rw [compare_ne_gt_iff] at hab hbc ⊢
  exact Std.TransCmp.isLE_trans hab hbc

/-- Keys that differ from one another come out in strictly ascending order. -/
theorem sortBy_strict [Std.LawfulEqOrd β] {xs : List α} (distinct : (xs.map key).Nodup) :
    (sortBy (fun a b => compare (key a) (key b) != .gt) xs).Pairwise
      fun a b => compare (key a) (key b) = .lt := by
  have hascending := sortBy_pairwise (fun a b => compare_ne_gt_total (key a) (key b))
    (fun a b c => compare_ne_gt_trans (key a) (key b) (key c)) xs
  have hperm : (sortBy (fun a b => compare (key a) (key b) != .gt) xs).Perm xs := sortBy_perm xs
  have hdistinct := List.pairwise_map.mp ((hperm.map key).nodup_iff.mpr distinct)
  apply List.Pairwise.imp₂ _ hascending hdistinct
  intro a b hle hne
  cases hcompare : compare (key a) (key b) with
  | lt => rfl
  | eq => exact absurd (Std.LawfulEqOrd.eq_of_compare hcompare) hne
  | gt => rw [hcompare] at hle; cases hle

/-- Lists of the same elements, no two of which share a key, are sorted to one list. -/
theorem sortBy_eq_of_perm [Std.LawfulEqOrd β] {xs ys : List α} (same : xs.Perm ys)
    (distinct : (xs.map key).Nodup) :
    sortBy (fun a b => compare (key a) (key b) != .gt) xs =
      sortBy (fun a b => compare (key a) (key b) != .gt) ys := by
  have hperm (zs : List α) :
      (sortBy (fun a b => compare (key a) (key b) != .gt) zs).Perm zs := sortBy_perm zs
  apply ((hperm xs).trans (same.trans (hperm ys).symm)).eq_of_pairwise _ (sortBy_strict distinct)
    (sortBy_strict ((same.map key).nodup_iff.mp distinct))
  intro a b _ _ hab hba
  rw [Std.OrientedOrd.eq_swap, hba] at hab
  cases hab

end Keys

end StyleRules
