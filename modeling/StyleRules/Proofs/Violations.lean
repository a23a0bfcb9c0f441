import StyleRules.Proofs.TypeBodies

namespace StyleRules

namespace WeakDelegate

/-- The text after the last newline. -/
def lastLine (text : Text) : Text := (text.reverse.takeWhile (· ≠ '\n')).reverse

theorem lineBefore_eq (code : Text) (offset : Nat) :
    lineBefore code offset = lastLine (code.take offset) := rfl

theorem lastLine_suffix (text : Text) : lastLine text <:+ text := by
  have h : (text.reverse.takeWhile (· ≠ '\n')) <+: text.reverse := List.takeWhile_prefix _
  rw [← List.reverse_suffix, List.reverse_reverse] at h
  exact h

theorem lastLine_append_of_mem (a : Text) {b : Text} (h : '\n' ∈ b) :
    lastLine (a ++ b) = lastLine b := by
  have hbreak : ∃ c ∈ b.reverse, (decide (c ≠ '\n')) = false := ⟨'\n', by simpa using h, by simp⟩
  obtain ⟨htake, -⟩ := Text.takeWhile_append_of_exists a.reverse hbreak
  rw [lastLine, List.reverse_append, htake]
  rfl

theorem lastLine_append_of_not_mem (a : Text) {b : Text} (h : '\n' ∉ b) :
    lastLine (a ++ b) = lastLine a ++ b := by
  have hline : ∀ c ∈ b.reverse, decide (c ≠ '\n') = true := by
    intro c hc
    apply decide_eq_true
    rintro rfl
    exact h (List.mem_reverse.mp hc)
  rw [lastLine, List.reverse_append, List.takeWhile_append_of_pos hline, List.reverse_append,
    List.reverse_reverse]
  rfl

/-- Whatever follows "weak" on its line is not owned. -/
theorem isUnowned_after_weak {before after : Text} {n : Nat} (hb : Text.AtBoundary before)
    (h : '\n' ∉ after.take n) :
    isUnowned (before ++ ("weak ".toList ++ after)) (before.length + n + 5) = true := by
  have hline : '\n' ∉ "weak ".toList ++ after.take n := by
    rw [List.mem_append, not_or]
    exact ⟨by decide, h⟩
  have hlast : Text.AtBoundary (lastLine before) := hb.of_suffix (lastLine_suffix before)
  have hweak : "weak".toList ∈ ownershipKeywords := by decide
  rw [isUnowned, lineBefore_eq, take_weak_add, lastLine_append_of_not_mem before hline,
    Text.words_append _ hlast, words_weak, List.any_append, List.any_cons, decide_eq_true hweak,
    Bool.true_or, Bool.or_true]

/-- What is not owned stays so. -/
theorem isUnowned_moved {before after : Text} {offset : Nat} (hb : Text.AtBoundary before)
    (h : isUnowned (before ++ after) offset = true) :
    isUnowned (before ++ ("weak ".toList ++ after)) (moved before.length offset) = true := by
  unfold moved
  split
  next hlt =>
    rw [isUnowned, lineBefore_eq] at h ⊢
    rwa [take_weak_of_le after (Nat.le_of_lt hlt)]
  next hle =>
    obtain ⟨n, rfl⟩ := Nat.exists_eq_add_of_le (Nat.le_of_not_lt hle)
    by_cases hn : '\n' ∈ after.take n
    · rw [isUnowned, lineBefore_eq, List.take_length_add_append,
        lastLine_append_of_mem before hn] at h
      rw [isUnowned, lineBefore_eq, take_weak_add,
        lastLine_append_of_mem before (List.mem_append_right _ hn), lastLine_append_of_mem _ hn]
      exact h
    · exact isUnowned_after_weak hb hn

theorem mem_violationsIn {code : Text} {offset : Nat} :
    offset ∈ violationsIn code ↔ ∃ name, (offset, name) ∈ declarations code ∧
      isDelegate name = true ∧ inTypeBody code (scopes code) offset = true ∧
      isUnowned code offset = false := by
  unfold violationsIn
  rw [List.mem_filterMap]
  constructor
  · rintro ⟨⟨declared, name⟩, hd, h⟩
    dsimp only at h
    split at h
    next hall =>
      cases Option.some.inj h
      simp only [Bool.and_eq_true, Bool.not_eq_true'] at hall
      exact ⟨name, hd, hall.1.1, hall.1.2, hall.2⟩
    next => cases h
  · rintro ⟨name, hd, hdelegate, hbody, howned⟩
    exact ⟨(offset, name), hd, by simp [hdelegate, hbody, howned]⟩

/-- The violations of code in which a declaration is made weak are violations of the code before,
at another place than that declaration. -/
theorem mem_violationsIn_weakened {before after name : Text} {offset : Nat}
    (hb : Text.AtBoundary before) (ha : StartsWord after)
    (hd : (before.length, name) ∈ declarations (before ++ after))
    (h : offset ∈ violationsIn (before ++ ("weak ".toList ++ after))) :
    ∃ old ∈ violationsIn (before ++ after), old ≠ before.length ∧
      offset = moved before.length old := by
  obtain ⟨found, hdeclared, hdelegate, hbody, howned⟩ := mem_violationsIn.mp h
  obtain ⟨early, late, hold, hnew, hearly, hlate⟩ := declarations_weakened ha hd hb
  have hmoved : ∃ old, (old, found) ∈ declarations (before ++ after) ∧
      offset = moved before.length old := by
    rw [hnew] at hdeclared
    rw [hold]
    rcases List.mem_append.mp hdeclared with he | hl
    · exact ⟨offset, List.mem_append_left _ he, (if_pos (hearly _ he)).symm⟩
    · obtain ⟨d, hm, heq⟩ := List.mem_map.mp hl
      cases heq
      have := hlate d hm
      exact ⟨d.1, List.mem_append_right _ hm, (if_neg (by omega)).symm⟩
  obtain ⟨old, hformer, rfl⟩ := hmoved
  rw [inTypeBody_moved hb ha] at hbody
  refine ⟨old, mem_violationsIn.mpr ⟨found, hformer, hdelegate, hbody, ?_⟩, ?_, rfl⟩
  · apply Bool.eq_false_iff.mpr
    intro hunowned
    rw [isUnowned_moved hb hunowned] at howned
    cases howned
  · rintro rfl
    have hweak := @isUnowned_after_weak before after 0 hb (by simp)
    rw [moved, if_neg (Nat.lt_irrefl _)] at howned
    rw [Nat.add_zero, howned] at hweak
    cases hweak

/-- Declarations before the one made weak stay declared. -/
theorem declared_of_weakened {before after name : Text} (hb : Text.AtBoundary before)
    (ha : StartsWord after) (hd : (before.length, name) ∈ declarations (before ++ after))
    {d : Nat × Text} (h : d ∈ declarations (before ++ after)) (hlt : d.1 < before.length) :
    d ∈ declarations (before ++ ("weak ".toList ++ after)) := by
  obtain ⟨early, late, hold, hnew, -, hlate⟩ := declarations_weakened ha hd hb
  rw [hold] at h
  rw [hnew]
  rcases List.mem_append.mp h with he | hl
  · exact List.mem_append_left _ he
  · have := hlate d hl
    omega

end WeakDelegate

end StyleRules
