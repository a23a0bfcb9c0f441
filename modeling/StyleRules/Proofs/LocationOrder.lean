import StyleRules.Location
import StyleRules.Proofs.Sorting

namespace StyleRules

namespace Location

theorem compare_eq_compareLex :
    compare = compareLex (compareOn (·.file))
      (compareLex (compareOn (·.line)) (compareOn (·.character))) := rfl

instance : Std.TransCmp compare := by
  rw [compare_eq_compareLex]
  infer_instance

/-- Only a location and itself compare as equal. -/
instance : Std.LawfulEqCmp compare where
  eq_of_compare := by
    intro a b h
    simp only [compare, Ordering.then_eq_eq] at h
    obtain ⟨hfile, hline, hcharacter⟩ := h
    have hf := Std.LawfulEqOrd.eq_of_compare hfile
    have hl := Std.LawfulEqOrd.eq_of_compare hline
    have hc := Std.LawfulEqOrd.eq_of_compare hcharacter
    exact Location.ext hf hl hc

theorem compare_swap (a b : Location) : compare a b = (compare b a).swap :=
  Std.OrientedCmp.eq_swap

theorem atMost_iff_isLE {a b : Location} : a.atMost b ↔ (compare a b).isLE := by
  rw [atMost]
  cases compare a b <;> decide

theorem atMost_total (a b : Location) : a.atMost b ∨ b.atMost a := by
  rw [atMost_iff_isLE, atMost_iff_isLE, compare_swap b a]
  cases compare a b <;> decide

theorem atMost_trans {a b c : Location} (hab : a.atMost b) (hbc : b.atMost c) : a.atMost c := by
  rw [atMost_iff_isLE] at hab hbc ⊢
  exact Std.TransCmp.isLE_trans hab hbc

theorem atMost_antisymm {a b : Location} (hab : a.atMost b) (hba : b.atMost a) : a = b := by
  rw [atMost_iff_isLE] at hab hba
  rw [compare_swap b a] at hba
  have heq : compare a b = .eq := by
    cases h : compare a b with
    | lt => rw [h] at hba; cases hba
    | eq => rfl
    | gt => rw [h] at hab; cases hab
  exact Std.LawfulEqCmp.eq_of_compare heq

variable {α : Type} {location : α → Location}

theorem sortOn_perm (items : List α) : (sortOn location items).Perm items := sortBy_perm items

theorem sortOn_ascending (items : List α) :
    ((sortOn location items).map location).Pairwise (·.atMost ·) := by
  apply List.pairwise_map.mpr
  apply sortBy_pairwise
  · intro a b
    exact atMost_total _ _
  · intro a b c hab hbc
    exact atMost_trans hab hbc

/-- Sorting brings out ascending locations exactly if they are those of the items, each as often. -/
theorem map_sortOn_eq_iff {items : List α} {locations : List Location}
    (ascending : locations.Pairwise (·.atMost ·)) :
    (sortOn location items).map location = locations ↔ (items.map location).Perm locations := by
  have hperm : ((sortOn location items).map location).Perm (items.map location) :=
    (sortOn_perm items).map location
  constructor
  · intro h
    rw [← h]
    exact hperm.symm
  · intro h
    apply List.Perm.eq_of_pairwise _ (sortOn_ascending items) ascending (hperm.trans h)
    intro a b _ _ hab hba
    exact atMost_antisymm hab hba

/-- What is found at one location comes out of sorting in the order in which it went in. -/
theorem sortOn_filter (items : List α) (l : Location) :
    (sortOn location items).filter (location · = l) = items.filter (location · = l) := by
  apply sortBy_filter
  intro a b ha hb
  rw [of_decide_eq_true ha, of_decide_eq_true hb]
  exact (atMost_total l l).elim id id

/-- Ascending lists that have the same at every location are the same. -/
theorem eq_of_ascending_of_filter_eq {items others : List α}
    (hitems : (items.map location).Pairwise (·.atMost ·))
    (hothers : (others.map location).Pairwise (·.atMost ·))
    (h : ∀ l, items.filter (location · = l) = others.filter (location · = l)) :
    items = others := by
  induction items generalizing others with
  | nil =>
    cases others with
    | nil => rfl
    | cons b others =>
      have hb := h (location b)
      rw [List.filter_cons_of_pos (by simp)] at hb
      cases hb
  | cons a items ih =>
    cases others with
    | nil =>
      have ha := h (location a)
      rw [List.filter_cons_of_pos (by simp)] at ha
      cases ha
    | cons b others =>
      obtain ⟨hafirst, harest⟩ := List.pairwise_cons.mp hitems
      obtain ⟨hbfirst, hbrest⟩ := List.pairwise_cons.mp hothers
      -- Each of the two first locations occurs in the other list, behind the first one there.
      have hab : (location a).atMost (location b) := by
        have hmem : b ∈ (b :: others).filter (location · = location b) := by simp
        rw [← h (location b)] at hmem
        rcases List.mem_cons.mp (List.mem_filter.mp hmem).1 with rfl | hmem
        · exact (atMost_total _ _).elim id id
        · exact hafirst _ (List.mem_map_of_mem hmem)
      have hba : (location b).atMost (location a) := by
        have hmem : a ∈ (a :: items).filter (location · = location a) := by simp
        rw [h (location a)] at hmem
        rcases List.mem_cons.mp (List.mem_filter.mp hmem).1 with rfl | hmem
        · exact (atMost_total _ _).elim id id
        · exact hbfirst _ (List.mem_map_of_mem hmem)
      have hsame : location a = location b := atMost_antisymm hab hba
      have hfirst := h (location a)
      rw [List.filter_cons_of_pos (by simp), List.filter_cons_of_pos (by simp [hsame])] at hfirst
      obtain ⟨rfl, -⟩ := List.cons.inj hfirst
      congr 1
      apply ih harest hbrest
      intro l
      have hl := h l
      by_cases ha : location a = l
      · rw [List.filter_cons_of_pos (by simpa using ha),
          List.filter_cons_of_pos (by simpa using ha)] at hl
        exact (List.cons.inj hl).2
      · rwa [List.filter_cons_of_neg (by simpa using ha),
          List.filter_cons_of_neg (by simpa using ha)] at hl

/-- Lists that have the same at every location, in the same order, are sorted to one list. -/
theorem sortOn_eq_of_filter_eq {items others : List α}
    (h : ∀ l, items.filter (location · = l) = others.filter (location · = l)) :
    sortOn location items = sortOn location others := by
  apply eq_of_ascending_of_filter_eq (sortOn_ascending items) (sortOn_ascending others)
  intro l
  rw [sortOn_filter, sortOn_filter, h]

end Location

end StyleRules
