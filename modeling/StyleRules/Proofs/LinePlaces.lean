import StyleRules.Proofs.LocationOrder
import StyleRules.Proofs.Positions
import Mathlib.Data.List.Sort

namespace StyleRules

section Ascending

variable {xs : List Nat} {n i y : Nat}

/-- Of ascending numbers, those that are no greater than a number come first. -/
theorem le_iff_lt_length_takeWhile (ascending : xs.Pairwise (· < ·)) (hy : xs[i]? = some y) :
    y ≤ n ↔ i < (xs.takeWhile (· ≤ n)).length := by
  induction xs generalizing i with
  | nil => cases hy
  | cons x xs ih =>
    obtain ⟨hx, hxs⟩ := List.pairwise_cons.mp ascending
    rw [List.takeWhile_cons]
    by_cases hn : x ≤ n
    · rw [if_pos (decide_eq_true hn), List.length_cons]
      cases i with
      | zero =>
        cases hy
        exact iff_of_true hn (Nat.succ_pos _)
      | succ i => rw [ih hxs hy, Nat.add_lt_add_iff_right]
    · rw [if_neg (by simpa using hn)]
      refine iff_of_false ?_ (Nat.not_lt_zero i)
      rcases List.mem_cons.mp (List.mem_of_getElem? hy) with rfl | hmem
      · exact hn
      · have := hx y hmem
        omega

theorem mem_takeWhile_le_iff (ascending : xs.Pairwise (· < ·)) :
    y ∈ xs.takeWhile (· ≤ n) ↔ y ∈ xs ∧ y ≤ n := by
  have hinitial : xs.takeWhile (· ≤ n) <+: xs := List.takeWhile_prefix _
  constructor
  · intro h
    exact ⟨hinitial.subset h, by simpa using List.mem_takeWhile_imp h⟩
  · rintro ⟨h, hle⟩
    obtain ⟨i, hi⟩ := List.mem_iff_getElem?.mp h
    have hlt := (le_iff_lt_length_takeWhile ascending hi).mp hle
    have hget := List.prefix_iff_getElem?.mp hinitial i hlt
    rw [Option.some.inj (hi.symm.trans hget)]
    exact List.getElem_mem hlt

/-- How many of ascending numbers are no greater than a number, sought between two bounds by halving
what lies between them; there is no result if this looks outside the list. -/
def insertionPoint? (xs : List Nat) (n lo hi : Nat) : Option Nat :=
  if lo < hi then
    match xs[(lo + hi) / 2]? with
    | none => none
    | some y =>
      if n < y then insertionPoint? xs n lo ((lo + hi) / 2)
      else insertionPoint? xs n ((lo + hi) / 2 + 1) hi
  else some lo
termination_by hi - lo

theorem insertionPoint?_eq (ascending : xs.Pairwise (· < ·)) {lo hi : Nat}
    (hlo : lo ≤ (xs.takeWhile (· ≤ n)).length) (hhi : (xs.takeWhile (· ≤ n)).length ≤ hi)
    (hbound : hi ≤ xs.length) :
    insertionPoint? xs n lo hi = some (xs.takeWhile (· ≤ n)).length := by
  -- What is sought stays between the bounds, so that the middle is always within the list.
  fun_induction insertionPoint? xs n lo hi with
  | case1 lo hi hlt hnone =>
    have := List.getElem?_eq_none_iff.mp hnone
    omega
  | case2 lo hi hlt y hy hn ih =>
    have hiff := le_iff_lt_length_takeWhile ascending (n := n) hy
    exact ih hlo (by omega) (by omega)
  | case3 lo hi hlt y hy hn ih =>
    have hiff := le_iff_lt_length_takeWhile ascending (n := n) hy
    exact ih (by omega) hhi hbound
  | case4 lo hi hge => exact congrArg some (by omega)

end Ascending

namespace Text

/-- A line break ends at an offset: behind a line feed, or behind a carriage return that no line
feed follows. -/
def EndsBreak (text : Text) : Nat → Prop
  | 0 => False
  | i + 1 => text[i]? = some '\n' ∨ (text[i]? = some '\r' ∧ text[i + 1]? ≠ some '\n')

instance (text : Text) : DecidablePred text.EndsBreak
  | 0 => inferInstanceAs (Decidable False)
  | i + 1 => inferInstanceAs
      (Decidable (text[i]? = some '\n' ∨ (text[i]? = some '\r' ∧ text[i + 1]? ≠ some '\n')))

/-- How many line breaks end no later than an offset. -/
def breaksUpTo (text : Text) (offset : Nat) : Nat :=
  (List.range (offset + 1)).countP fun b => text.EndsBreak b

theorem endsBreak_cons {c : Char} {rest : Text} {n : Nat} :
    EndsBreak (c :: rest) (n + 1) ↔
      (n = 0 ∧ (c = '\n' ∨ (c = '\r' ∧ rest.head? ≠ some '\n'))) ∨ EndsBreak rest n := by
  cases n with
  | zero => simp [EndsBreak, List.head?_eq_getElem?]
  | succ n => simp [EndsBreak]

theorem exists_endsBreak_cons {c : Char} {rest : Text} {offset b : Nat} :
    (∃ n, b = offset + n ∧ EndsBreak (c :: rest) n) ↔
      (b = offset + 1 ∧ (c = '\n' ∨ (c = '\r' ∧ rest.head? ≠ some '\n'))) ∨
        ∃ n, b = offset + 1 + n ∧ EndsBreak rest n := by
  constructor
  · rintro ⟨n, rfl, h⟩
    cases n with
    | zero => cases h
    | succ n =>
      rcases endsBreak_cons.mp h with ⟨rfl, hc⟩ | h
      · exact Or.inl ⟨rfl, hc⟩
      · exact Or.inr ⟨n, by omega, h⟩
  · rintro (⟨rfl, hc⟩ | ⟨n, rfl, h⟩)
    · exact ⟨1, rfl, endsBreak_cons.mpr (Or.inl ⟨rfl, hc⟩)⟩
    · exact ⟨n + 1, by omega, endsBreak_cons.mpr (Or.inr h)⟩

/-- The breaks that are found in a text are those that end somewhere in it. -/
theorem mem_breakEnds_iff {offset b : Nat} {text : Text} :
    b ∈ text.breakEnds offset ↔ ∃ n, b = offset + n ∧ text.EndsBreak n := by
  fun_induction breakEnds offset text with
  | case1 offset =>
    refine iff_of_false List.not_mem_nil ?_
    rintro ⟨n, -, h⟩
    cases n with
    | zero => cases h
    | succ n => simp [EndsBreak] at h
  | case2 offset rest ih =>
    rw [List.mem_cons, ih, exists_endsBreak_cons, exists_endsBreak_cons]
    simp [Nat.add_assoc]
  | case3 offset rest hrest ih =>
    have hhead : rest.head? ≠ some '\n' := by
      intro hhead
      obtain ⟨more, hmore⟩ := List.head?_eq_some_iff.mp hhead
      exact hrest more hmore
    rw [List.mem_cons, ih, exists_endsBreak_cons]
    simp [hhead]
  | case4 offset rest ih =>
    rw [List.mem_cons, ih, exists_endsBreak_cons]
    simp
  | case5 offset c rest _ hreturn hnewline ih =>
    have hc : ¬(c = '\n' ∨ (c = '\r' ∧ rest.head? ≠ some '\n')) := by
      rintro (hc | ⟨hc, -⟩)
      · exact hnewline hc
      · exact hreturn hc
    rw [ih, exists_endsBreak_cons]
    simp [hc]

/-- The breaks that are found up to an offset are as many as end by then. -/
theorem length_breakEnds_takeWhile (text : Text) (offset : Nat) :
    ((text.breakEnds 0).takeWhile (· ≤ offset)).length = text.breaksUpTo offset := by
  have hascending := breakEnds_ascending 0 text
  have hsame : (text.breakEnds 0).takeWhile (· ≤ offset) =
      (List.range (offset + 1)).filter fun b => text.EndsBreak b := by
    apply (hascending.sublist (List.takeWhile_sublist _)).eq_of_mem_iff
      (List.pairwise_lt_range.sublist List.filter_sublist)
    intro b
    rw [mem_takeWhile_le_iff hascending, mem_breakEnds_iff, List.mem_filter, List.mem_range,
      decide_eq_true_eq]
    simp only [Nat.zero_add, exists_eq_left']
    rw [and_comm, Nat.lt_succ_iff]
  rw [hsame, breaksUpTo, List.countP_eq_length_filter]

end Text

namespace LineIndex

variable {text : Text} {offset : Nat}

theorem starts_ascending (text : Text) : (ofText text).starts.Pairwise (· < ·) := by
  refine List.pairwise_cons.mpr ⟨fun b hb => ?_, Text.breakEnds_ascending 0 text⟩
  have := (Text.breakEnds_bounds hb).1
  omega

theorem length_startsUpTo (text : Text) (offset : Nat) :
    (startsUpTo text offset).length = text.breaksUpTo offset + 1 := by
  rw [startsUpTo, ofText, List.takeWhile_cons, if_pos (decide_eq_true (Nat.zero_le offset)),
    List.length_cons, Text.length_breakEnds_takeWhile]

/-- The line of an offset counts the breaks that end no later, and halving finds it. The character
counts from where that line starts. -/
theorem position?_line (h : offset ≤ text.length) :
    ∃ start, insertionPoint? (ofText text).starts offset 0 (ofText text).starts.length =
        some (text.breaksUpTo offset + 1) ∧
      (ofText text).starts[text.breaksUpTo offset]? = some start ∧ start ≤ offset ∧
      (ofText text).position? offset = some (text.breaksUpTo offset + 1, offset - start + 1) := by
  have hinitial : startsUpTo text offset <+: (ofText text).starts := List.takeWhile_prefix _
  have hcount := length_startsUpTo text offset
  have hlast : (startsUpTo text offset)[text.breaksUpTo offset]? =
      some ((startsUpTo text offset).getLastD 0) := by
    have hne := startsUpTo_ne_nil text offset
    rw [List.getLastD_eq_getLast?, List.getLast?_eq_some_getLast hne, Option.getD_some,
      ← List.getLast?_eq_some_getLast hne, List.getLast?_eq_getElem?, hcount, Nat.add_sub_cancel]
  refine ⟨(startsUpTo text offset).getLastD 0, ?_, ?_, startsUpTo_getLastD_le text offset, ?_⟩
  · have hpoint := insertionPoint?_eq (n := offset) (starts_ascending text) (Nat.zero_le _)
      hinitial.length_le (Nat.le_refl _)
    rw [hpoint, ← hcount]
    rfl
  · obtain ⟨later, hlater⟩ := hinitial
    rw [← hlater, List.getElem?_append_left (by omega), hlast]
  · rw [position?_eq h, hcount]

/-- The place of a character that is no line break names it in the lines of the text. -/
theorem getElem?_splitLines {c : Char} (hc : text[offset]? = some c)
    (hbreak : ¬(c = '\r' ∨ c = '\n')) :
    ∃ line character, (ofText text).position? offset = some (line + 1, character + 1) ∧
      text.splitLines[line]?.bind (·[character]?) = some c := by
  obtain ⟨hr, hn⟩ := not_or.mp hbreak
  obtain ⟨hlt, rfl⟩ := List.getElem?_eq_some_iff.mp hc
  -- The text is cut at the offset: the line it is in is the last one of the first part, up to there.
  have hbefore : (text.take offset).length = offset := by
    rw [List.length_take]
    omega
  obtain ⟨early, last, hearly⟩ := (List.eq_nil_or_concat' _).resolve_left
    (Text.segments_ne_nil (text.take offset))
  obtain ⟨first, late, -, hlate⟩ := Text.segments_cons (text.drop (offset + 1)) hr hn
  have meet : Text.Meet (text.take offset) (text[offset] :: text.drop (offset + 1)) :=
    Text.Meet.of_head fun x hx => by
      cases hx
      exact hn
  have hwhole : text.take offset ++ text[offset] :: text.drop (offset + 1) = text := by
    rw [← List.drop_eq_getElem_cons hlt, List.take_append_drop]
  have hplace := position?_meet hearly meet
  have hlines := Text.splitLines_append hearly hlate meet (Or.inr (Or.inl (by simp)))
  rw [hwhole] at hplace hlines
  rw [hbefore] at hplace
  refine ⟨early.length, last.length, hplace, ?_⟩
  rw [hlines]
  simp

end LineIndex

namespace SourceFile

variable {f : SourceFile} {a b : Nat}

theorem locate_atMost_iff (ha : a ≤ f.contents.length) (hb : b ≤ f.contents.length) :
    (f.locate a).atMost (f.locate b) ↔ a ≤ b := by
  constructor
  · intro h
    by_contra hlt
    have hba := locate_atMost (Nat.le_of_not_le hlt) ha
    have hsame := locate_injective ha hb (Location.atMost_antisymm h hba)
    omega
  · intro h
    exact locate_atMost h hb

/-- Sorting offsets of a file by where they are is sorting them. -/
theorem sortOn_locate {offsets : List Nat} (within : ∀ o ∈ offsets, o ≤ f.contents.length) :
    Location.sortOn f.locate offsets = sortBy (fun a b => decide (a ≤ b)) offsets := by
  have hlocated : (Location.sortOn f.locate offsets).Perm offsets := Location.sortOn_perm offsets
  have hsorted : (sortBy (fun a b => decide (a ≤ b)) offsets).Perm offsets := sortBy_perm offsets
  have hascending : (Location.sortOn f.locate offsets).Pairwise (· ≤ ·) := by
    have hplaces := List.pairwise_map.mp (@Location.sortOn_ascending Nat f.locate offsets)
    apply hplaces.imp_of_mem
    intro a b ha hb h
    exact (locate_atMost_iff (within a (hlocated.mem_iff.mp ha))
      (within b (hlocated.mem_iff.mp hb))).mp h
  have hordered : (sortBy (fun a b => decide (a ≤ b)) offsets).Pairwise (· ≤ ·) := by
    have hpairs := @sortBy_pairwise Nat (fun a b => decide (a ≤ b))
      (fun a b => by simpa using Nat.le_total a b)
      (fun a b c => by simpa using @Nat.le_trans a b c) offsets
    simpa using hpairs
  apply (hlocated.trans hsorted.symm).eq_of_pairwise _ hascending hordered
  intro a b _ _ hab hba
  exact Nat.le_antisymm hab hba

/-- Exactly the offsets up to the length of a text have a place in it, places ascend strictly with
them, and the line of an offset counts the breaks that end no later. -/
theorem places_follow_lines (f : SourceFile) :
    let text := f.contents
    let index := LineIndex.ofText text
    (∀ offset : Int, (index.position? offset).isSome ↔ 0 ≤ offset ∧ offset ≤ text.length) ∧
    (∀ a b : Nat, a < b → b ≤ text.length → ∃ p q, index.position? a = some p ∧
      index.position? b = some q ∧ Prod.Lex (· < ·) (· < ·) p q) ∧
    (∀ offset : Nat, offset ≤ text.length → ∃ start,
      insertionPoint? index.starts offset 0 index.starts.length =
        some (text.breaksUpTo offset + 1) ∧
      index.starts[text.breaksUpTo offset]? = some start ∧ start ≤ offset ∧
      index.position? offset = some (text.breaksUpTo offset + 1, offset - start + 1)) ∧
    (∀ (offset : Nat) (c : Char), text[offset]? = some c → ¬(c = '\r' ∨ c = '\n') →
      ∃ line character, index.position? offset = some (line + 1, character + 1) ∧
        text.splitLines[line]?.bind (·[character]?) = some c) ∧
    (∀ offsets : List Nat, (∀ o ∈ offsets, o ≤ text.length) →
      Location.sortOn f.locate offsets = sortBy (fun a b => decide (a ≤ b)) offsets) ∧
    ∀ a b : Nat, a ≤ text.length → b ≤ text.length → f.locate a = f.locate b → a = b := by
  intro text index
  refine ⟨fun offset => ?_, fun a b hlt hb => ?_, fun _ => LineIndex.position?_line,
    fun _ _ => LineIndex.getElem?_splitLines, fun _ => sortOn_locate, fun _ _ => locate_injective⟩
  · rw [← not_iff_not, Bool.not_eq_true, Option.isSome_eq_false_iff, Option.isNone_iff_eq_none,
      LineIndex.position?_eq_none_iff]
    omega
  · obtain ⟨p, q, hp, hq, hpq⟩ := LineIndex.position?_strictMono hlt hb
    exact ⟨p, q, hp, hq, Prod.lex_def.mpr hpq⟩

/-- An offset within a break of two characters, breaks side by side, and the end of the text behind
its last break. -/
theorem places_follow_lines_mixed :
    let f : SourceFile := { contents := "a\r\nb\r\rc\n".toList }
    (LineIndex.ofText f.contents).position? 2 = some (1, 3) ∧
      (LineIndex.ofText f.contents).position? 8 = some (5, 1) ∧
      f.contents.splitLines = ["a", "b", "", "c"].map String.toList ∧
      (LineIndex.ofText f.contents).position? 6 = some (3 + 1, 0 + 1) ∧
      f.contents.splitLines[3]?.bind (·[0]?) = some 'c' ∧
      Location.sortOn f.locate [8, 2, 0, 6, 2] = [0, 2, 2, 6, 8] := by
  intro f
  obtain ⟨-, -, hline, hcharacter, hsort, -⟩ := places_follow_lines f
  obtain ⟨inside, -, hinside, -, hsecond⟩ := hline 2 (by decide)
  obtain ⟨last, -, hlast, -, hend⟩ := hline 8 (by decide)
  obtain ⟨line, character, hplace, hnamed⟩ := hcharacter 6 'c' (by decide) (by decide)
  have hsorted := hsort [8, 2, 0, 6, 2] (by decide)
  cases Option.some.inj (show some 0 = some inside from hinside)
  cases Option.some.inj (show some 8 = some last from hlast)
  have hat : (LineIndex.ofText f.contents).position? 6 = some (3 + 1, 0 + 1) := by decide
  obtain ⟨rfl, rfl⟩ : line = 3 ∧ character = 0 := by
    have heq := Option.some.inj (hat.symm.trans hplace)
    simpa using heq
  exact ⟨hsecond, hend, by decide, hat, hnamed, hsorted⟩

end SourceFile

end StyleRules
