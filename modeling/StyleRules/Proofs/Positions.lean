import StyleRules.Proofs.Acceptance
import StyleRules.Proofs.Lines
import StyleRules.Proofs.Words
import Mathlib.Data.List.TakeWhile

namespace StyleRules

namespace LineIndex

/-- The offsets at which the lines start that start no later than the offset. -/
def startsUpTo (text : Text) (offset : Nat) : List Nat :=
  (ofText text).starts.takeWhile (· ≤ offset)

theorem position?_eq {text : Text} {offset : Nat} (h : offset ≤ text.length) :
    (ofText text).position? offset = some ((startsUpTo text offset).length,
      offset - (startsUpTo text offset).getLastD 0 + 1) := by
  have hsize : (ofText text).size = text.length := rfl
  have hn : ¬((offset : Int) < 0 ∨ ((ofText text).size : Int) < offset) := by omega
  rw [position?, if_neg hn]
  rfl

/-- An offset has a position if and only if it lies within the text or at its end. -/
theorem position?_eq_none_iff {text : Text} {offset : Int} :
    (ofText text).position? offset = none ↔ offset < 0 ∨ (text.length : Int) < offset := by
  have hsize : (ofText text).size = text.length := rfl
  rw [position?, hsize]
  split
  next h => simpa using h
  next h => simpa using h

theorem startsUpTo_ne_nil (text : Text) (offset : Nat) : startsUpTo text offset ≠ [] := by
  simp [startsUpTo, ofText]

theorem startsUpTo_getLastD_le (text : Text) (offset : Nat) :
    (startsUpTo text offset).getLastD 0 ≤ offset := by
  have hne := startsUpTo_ne_nil text offset
  rw [List.getLastD_eq_getLast?, List.getLast?_eq_some_getLast hne]
  simpa using List.mem_takeWhile_imp (List.getLast_mem hne)

theorem startsUpTo_prefix (text : Text) {a b : Nat} (h : a ≤ b) :
    startsUpTo text a <+: startsUpTo text b := by
  unfold startsUpTo
  induction (ofText text).starts with
  | nil => exact List.nil_prefix
  | cons s rest ih =>
    by_cases hs : s ≤ a
    · have hb : s ≤ b := Nat.le_trans hs h
      simpa [hs, hb] using ih
    · simp [hs]

/-- Later offsets have later positions: a later line, or a later character of the same line. -/
theorem position?_strictMono {text : Text} {a b : Nat} (h : a < b) (hb : b ≤ text.length) :
    ∃ p q : Nat × Nat, (ofText text).position? a = some p ∧ (ofText text).position? b = some q ∧
      (p.1 < q.1 ∨ (p.1 = q.1 ∧ p.2 < q.2)) := by
  refine ⟨_, _, position?_eq (by omega), position?_eq hb, ?_⟩
  obtain ⟨further, heq⟩ := startsUpTo_prefix text (Nat.le_of_lt h)
  cases further with
  | nil =>
    rw [List.append_nil] at heq
    have := startsUpTo_getLastD_le text a
    right
    rw [← heq]
    exact ⟨rfl, by dsimp only; omega⟩
  | cons s more =>
    left
    rw [← heq]
    simp

/-- A place belongs to one offset only. -/
theorem position?_injective {text : Text} {a b : Int} {p : Nat × Nat}
    (ha : (ofText text).position? a = some p) (hb : (ofText text).position? b = some p) :
    a = b := by
  have hwithin {x : Int} (hx : (ofText text).position? x = some p) :
      ∃ n : Nat, x = n ∧ n ≤ text.length := by
    have hsome : ¬(x < 0 ∨ (text.length : Int) < x) := by
      intro hout
      rw [position?_eq_none_iff.mpr hout] at hx
      cases hx
    exact ⟨x.toNat, by omega, by omega⟩
  have hirrefl {m n : Nat} (hlt : m < n) (hn : n ≤ text.length)
      (hm : (ofText text).position? m = some p) : (ofText text).position? n ≠ some p := by
    intro hp
    obtain ⟨q, r, hq, hr, hqr⟩ := position?_strictMono hlt hn
    rw [hm] at hq
    rw [hp] at hr
    cases hq
    cases hr
    omega
  obtain ⟨m, rfl, hm⟩ := hwithin ha
  obtain ⟨n, rfl, hn⟩ := hwithin hb
  rcases Nat.lt_trichotomy m n with hlt | heq | hlt
  · exact absurd hb (hirrefl hlt hn ha)
  · rw [heq]
  · exact absurd ha (hirrefl hlt hm hb)

theorem startsUpTo_append {before after : Text} (meet : Text.Meet before after)
    (offset : Nat) : startsUpTo (before ++ after) offset =
      ((0 :: before.breakEnds 0) ++ after.breakEnds before.length).takeWhile (· ≤ offset) := by
  simp only [startsUpTo, ofText]
  rw [Text.breakEnds_append 0 meet, Nat.zero_add, List.cons_append]

/-- Up to an offset before a text only lines of what comes before the text start. -/
theorem startsUpTo_before {before after : Text} {offset : Nat}
    (meet : Text.Meet before after) (h : offset ≤ before.length) :
    startsUpTo (before ++ after) offset =
      (0 :: before.breakEnds 0).takeWhile (· ≤ offset) := by
  rw [startsUpTo_append meet]
  apply Text.takeWhile_append_of_head
  intro b hb
  have := (Text.breakEnds_bounds (List.mem_of_mem_head? hb)).1
  exact decide_eq_false (by omega)

/-- Up to an offset in a text all lines of what comes before the text start. -/
theorem startsUpTo_behind {before after : Text} (n : Nat)
    (meet : Text.Meet before after) :
    startsUpTo (before ++ after) (before.length + n) =
      (0 :: before.breakEnds 0) ++ (after.breakEnds before.length).takeWhile
        (· ≤ before.length + n) := by
  rw [startsUpTo_append meet]
  apply List.takeWhile_append_of_pos
  intro b hb
  apply decide_eq_true
  rcases List.mem_cons.mp hb with rfl | hb
  · exact Nat.zero_le _
  · have := (Text.breakEnds_bounds hb).2
    omega

/-- Where two texts meet, a place is that of the end of the first. -/
theorem position?_meet {before after last : Text} {early : List Text}
    (hearly : before.segments = early ++ [last]) (meet : Text.Meet before after) :
    (ofText (before ++ after)).position? before.length =
      some (early.length + 1, last.length + 1) := by
  have hpassed : startsUpTo (before ++ after) before.length = 0 :: before.breakEnds 0 := by
    have hbehind := startsUpTo_behind 0 meet
    have hnone : (after.breakEnds before.length).takeWhile (· ≤ before.length + 0) = [] := by
      rw [List.takeWhile_eq_nil_iff]
      intro hpos
      have := (Text.breakEnds_bounds (List.getElem_mem hpos)).1
      simpa using this
    rwa [hnone, List.append_nil] at hbehind
  have hcount := Text.length_segments 0 before
  have hlast := Text.length_last_segment 0 hearly
  rw [hearly, List.length_append, List.length_singleton] at hcount
  rw [position?_eq (by rw [List.length_append]; omega), hpassed, List.getLastD_cons,
    List.length_cons, ← hcount]
  congr 2
  omega

end LineIndex

namespace Location

theorem compare_point {file : Option Text} {a b c d : Nat} (ha : 1 ≤ a) (hb : 1 ≤ b) (hc : 1 ≤ c)
    (hd : 1 ≤ d) :
    compare (.point file a c) (.point file b d) = (Ord.compare a b).then (Ord.compare c d) := by
  unfold compare point
  rw [Std.compare_self]
  rfl

end Location

namespace SourceFile

section Place

variable {file : Option Text} {index : LineIndex} {offset : Int}

theorem place_of_position? {p : Nat × Nat} (h : index.position? offset = some p) :
    place file index offset = .point file p.1 p.2 (LineIndex.one_le_of_position? h).1
      (LineIndex.one_le_of_position? h).2 := by
  unfold place
  split
  next line character hp =>
    obtain rfl := Option.some.inj (hp.symm.trans h)
    rfl
  next hnone =>
    rw [h] at hnone
    cases hnone

theorem place_of_position?_eq_none (h : index.position? offset = none) :
    place file index offset = { file } := by
  unfold place
  split
  next line character hp =>
    rw [h] at hp
    cases hp
  next => rfl

end Place

theorem locate_eq {f : SourceFile} {offset : Nat} {p : Nat × Nat}
    (h : (LineIndex.ofText f.contents).position? offset = some p) :
    f.locate offset = .point f.identifier p.1 p.2 (LineIndex.one_le_of_position? h).1
      (LineIndex.one_le_of_position? h).2 := place_of_position? h

/-- Later offsets of a file have later locations. -/
theorem locate_before {f : SourceFile} {a b : Nat} (h : a < b) (hb : b ≤ f.contents.length) :
    (f.locate a).before (f.locate b) := by
  obtain ⟨p, q, hp, hq, hlt⟩ := LineIndex.position?_strictMono h hb
  rw [locate_eq hp, locate_eq hq, Location.before, Location.compare_point]
  rcases hlt with hl | ⟨hl, hc⟩
  · simp [Nat.compare_eq_lt.mpr hl]
  · simp [hl, Nat.compare_eq_lt.mpr hc]

theorem locate_atMost {f : SourceFile} {a b : Nat} (h : a ≤ b) (hb : b ≤ f.contents.length) :
    (f.locate a).atMost (f.locate b) := by
  rcases Nat.lt_or_eq_of_le h with hlt | rfl
  · have hl := locate_before hlt hb
    simp only [Location.before, beq_iff_eq] at hl
    simp [Location.atMost, hl]
  · simp [Location.atMost, Location.compare, Std.compare_self]

theorem locate_injective {f : SourceFile} {a b : Nat} (ha : a ≤ f.contents.length)
    (hb : b ≤ f.contents.length) (h : f.locate a = f.locate b) : a = b := by
  have irrefl : ∀ l : Location, l.before l = false := by
    intro l
    simp [Location.before, Location.compare, Std.compare_self]
  rcases Nat.lt_trichotomy a b with hlt | heq | hlt
  · have hl := locate_before hlt hb
    rw [h, irrefl] at hl
    cases hl
  · exact heq
  · have hl := locate_before hlt ha
    rw [h, irrefl] at hl
    cases hl

end SourceFile

end StyleRules
