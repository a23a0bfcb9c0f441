import StyleRules.Proofs.LocationOrder

namespace StyleRules

theorem compare_bool_eq_lt_iff {a b : Bool} : compare a b = .lt ↔ a < b := by
  cases a <;> cases b <;> decide

theorem compare_char_eq_lt_iff {a b : Char} : compare a b = .lt ↔ a < b :=
  compareOfLessAndEq_eq_lt

/-- The first characters in which two texts differ order them, and an end comes first. -/
theorem compare_text_eq_lt_iff {a b : Text} : compare a b = .lt ↔ a < b := by
  rw [List.compare_eq_compareLex]
  induction a generalizing b with
  | nil =>
    cases b with
    | nil => simp [List.compareLex]
    | cons y b => simp [List.compareLex]
  | cons x a ih =>
    cases b with
    | nil => simp [List.compareLex]
    | cons y b =>
      rw [List.compareLex_cons_cons, Ordering.then_eq_lt, List.cons_lt_cons_iff,
        compare_char_eq_lt_iff, Std.compare_eq_iff_eq, ih]

section Parts

variable {α β : Type} [Ord α]

/-- An optional part is compared as its flag and then as its value, or what stands for it. -/
theorem compare_option [Std.ReflOrd α] (standIn : α) (a b : Option α) :
    compare a b =
      (compare a.isSome b.isSome).then (compare (a.getD standIn) (b.getD standIn)) := by
  cases a with
  | none =>
    cases b with
    | none => exact Std.compare_self.symm
    | some y => rfl
  | some x =>
    cases b with
    | none => rfl
    | some y => rfl

theorem then_eq_lt_iff_lex [LT α] [Std.LawfulEqOrd α] {a b : α} {r : β → β → Prop} {x y : β}
    {rest : Ordering} (hfirst : compare a b = .lt ↔ a < b) (hrest : rest = .lt ↔ r x y) :
    (compare a b).then rest = .lt ↔ Prod.Lex (· < ·) r (a, x) (b, y) := by
  rw [Ordering.then_eq_lt, Prod.lex_def, hfirst, Std.compare_eq_iff_eq, hrest]

end Parts

namespace Location

/-- The order of keys: the first part in which two of them differ decides. -/
def KeyBefore (a b : Bool × Text × Bool × Nat × Bool × Nat) : Prop :=
  Prod.Lex (· < ·) (Prod.Lex (· < ·) (Prod.Lex (· < ·) (Prod.Lex (· < ·)
    (Prod.Lex (· < ·) (· < ·))))) a b

/-- The sorted form of a list of locations: all of them, each as often, in ascending order. -/
structure Sorted (locations sorted : List Location) : Prop where
  perm : sorted.Perm locations
  ascending : sorted.Pairwise (·.atMost ·)

variable {a b c : Location}

theorem before_iff : a.before b ↔ compare a b = .lt := beq_iff_eq

/-- A location stands before another if and only if its key does. -/
theorem before_iff_keyBefore : a.before b ↔ KeyBefore a.sortKey b.sortKey := by
  rw [before_iff, compare, compare_option [] a.file, compare_option 0 a.line,
    compare_option 0 a.character, Ordering.then_assoc, Ordering.then_assoc]
  apply then_eq_lt_iff_lex compare_bool_eq_lt_iff
  apply then_eq_lt_iff_lex compare_text_eq_lt_iff
  apply then_eq_lt_iff_lex compare_bool_eq_lt_iff
  apply then_eq_lt_iff_lex Std.compare_eq_lt
  apply then_eq_lt_iff_lex compare_bool_eq_lt_iff
  exact Std.compare_eq_lt

theorem isSome_getD_injective {α : Type} (standIn : α) :
    Function.Injective fun a : Option α => (a.isSome, a.getD standIn) := by
  intro a b h
  obtain ⟨hflag, hvalue⟩ := Prod.mk.inj h
  cases a with
  | none =>
    cases b with
    | none => rfl
    | some y => cases hflag
  | some x =>
    cases b with
    | none => cases hflag
    | some y => exact congrArg some hvalue

theorem sortKey_injective : Function.Injective sortKey := by
  intro a b h
  simp only [sortKey, Prod.mk.injEq] at h
  obtain ⟨hfile, hname, hline, hnumber, hcharacter, hcolumn⟩ := h
  exact Location.ext (isSome_getD_injective [] (Prod.ext hfile hname))
    (isSome_getD_injective 0 (Prod.ext hline hnumber))
    (isSome_getD_injective 0 (Prod.ext hcharacter hcolumn))

theorem before_trans (hab : a.before b) (hbc : b.before c) : a.before c := by
  rw [before_iff] at hab hbc ⊢
  exact Std.TransCmp.lt_trans hab hbc

/-- Of two locations one stands before the other, or they are the same, and only one of this. -/
theorem before_trichotomy (a b : Location) :
    (a.before b ∧ ¬b.before a ∧ a ≠ b) ∨ (b.before a ∧ ¬a.before b ∧ a ≠ b) ∨
      (a = b ∧ ¬a.before b ∧ ¬b.before a) := by
  have hswap := compare_swap b a
  have hself (l : Location) : compare l l = .eq := Std.ReflCmp.compare_self
  have hne (h : compare a b ≠ .eq) : a ≠ b := fun hab => h (by rw [hab, hself])
  simp only [before_iff, hswap]
  cases h : compare a b with
  | lt => exact Or.inl ⟨rfl, by decide, hne (by rw [h]; decide)⟩
  | eq => exact Or.inr (Or.inr ⟨Std.LawfulEqCmp.eq_of_compare h, by decide, by decide⟩)
  | gt => exact Or.inr (Or.inl ⟨rfl, by decide, hne (by rw [h]; decide)⟩)

theorem atMost_iff_not_before : a.atMost b ↔ ¬b.before a := by
  rw [atMost_iff_isLE, before_iff, compare_swap b a]
  cases compare a b <;> decide

theorem sorted_sortOn (locations : List Location) : Sorted locations (sortOn id locations) where
  perm := sortOn_perm locations
  ascending := by simpa using @sortOn_ascending Location id locations

/-- The sorted form does not depend on the order in which locations are given. -/
theorem Sorted.eq_sortOn {locations others sorted : List Location} (h : Sorted others sorted)
    (same : locations.Perm others) : sorted = sortOn id locations := by
  have hperm : (locations.map id).Perm sorted := by
    rw [List.map_id]
    exact same.trans h.perm.symm
  have hsorted := (@map_sortOn_eq_iff Location id locations sorted h.ascending).mpr hperm
  rw [← hsorted, List.map_id]

/-- Locations are strictly and totally ordered by their keys, and all arrangements of a list of
locations are sorted to one list. -/
theorem before_strict_total (a b c : Location) :
    ((a.before b ∧ ¬b.before a ∧ a ≠ b) ∨ (b.before a ∧ ¬a.before b ∧ a ≠ b) ∨
      (a = b ∧ ¬a.before b ∧ ¬b.before a)) ∧
    (a.before b → b.before c → a.before c) ∧
    (a.atMost b ↔ a.before b ∨ a = b) ∧ (b.before a ↔ ¬a.before b ∧ a ≠ b) ∧
    (b.atMost a ↔ ¬a.before b) ∧
    (a.before b ↔ KeyBefore a.sortKey b.sortKey) ∧ Function.Injective sortKey ∧
    ∀ locations others : List Location, locations.Perm others →
      Sorted others (sortOn id locations) ∧ sortOn id others = sortOn id locations ∧
        ∀ sorted, Sorted others sorted → sorted = sortOn id locations := by
  have hcases := before_trichotomy a b
  refine ⟨hcases, before_trans, ?_, ?_, atMost_iff_not_before, before_iff_keyBefore,
    sortKey_injective, ?_⟩
  · rw [atMost_iff_not_before]
    tauto
  · tauto
  · intro locations others same
    have hsorted := sorted_sortOn locations
    exact ⟨⟨hsorted.perm.trans same, hsorted.ascending⟩, (sorted_sortOn others).eq_sortOn same,
      fun sorted h => h.eq_sortOn same⟩

/-- No file and a file with an empty name, and numbers that are absent in turn. -/
theorem before_strict_total_absent :
    let a : Location := { character := some 3 }
    let b : Location := { file := some [], character := some 1 }
    let c : Location := { file := some [], line := some 1 }
    a.before b ∧ b.before c ∧ a.before c ∧ KeyBefore a.sortKey c.sortKey ∧
      [c, a, b, a].Perm [a, c, a, b] ∧ sortOn id [a, c, a, b] = sortOn id [c, a, b, a] := by
  intro a b c
  have hab : a.before b := by decide
  have hbc : b.before c := by decide
  obtain ⟨-, htrans, -⟩ := before_strict_total a b c
  obtain ⟨-, -, -, -, -, hkey, -, hsorted⟩ := before_strict_total a c b
  have hac : a.before c := htrans hab hbc
  have hperm : [c, a, b, a].Perm [a, c, a, b] := by decide
  exact ⟨hab, hbc, hac, hkey.mp hac, hperm, (hsorted _ _ hperm).2.1⟩

end Location

end StyleRules
