import StyleRules.Proofs.Triggering

namespace StyleRules

namespace Location

theorem sortDescendingOn_descending {α : Type} {location : α → Location} (items : List α) :
    ((sortDescendingOn location items).map location).Pairwise fun a b => b.atMost a := by
  apply List.pairwise_map.mpr
  apply sortBy_pairwise
  · intro a b
    exact atMost_total _ _
  · intro a b c hab hbc
    exact atMost_trans hbc hab

/-- However they are given, ascending locations are sorted from the last to the first. -/
theorem sortDescendingOn_eq_reverse {ls ascending : List Location} (same : ls.Perm ascending)
    (h : ascending.Pairwise (·.atMost ·)) : sortDescendingOn id ls = ascending.reverse := by
  have hdescending : (sortDescendingOn id ls).Pairwise fun a b => b.atMost a := by
    simpa using @sortDescendingOn_descending _ id ls
  have hperm : (sortDescendingOn id ls).Perm ascending.reverse :=
    (sortBy_perm ls).trans (same.trans ascending.reverse_perm.symm)
  apply List.Perm.eq_of_pairwise _ hdescending (List.pairwise_reverse.mpr h) hperm
  intro a b _ _ hab hba
  exact atMost_antisymm hba hab

end Location

namespace Marked

variable {x : Char} {text : Text} {offset o : Nat}

/-- A text with a character put in at offsets, from the last to the first. -/
def insertAll (x : Char) (offsets : List Nat) (text : Text) : Text :=
  offsets.foldr (fun o text => text.take o ++ x :: text.drop o) text

/-- No run of the character stands between a carriage return and the line feed that belongs to
it. -/
def Unbroken (x : Char) (text : Text) : Prop :=
  ∀ n, ¬ ('\r' :: List.replicate (n + 1) x ++ ['\n']) <:+: text

instance (x : Char) (text : Text) : Decidable (Unbroken x text) :=
  decidable_of_iff (∀ n < text.length, ¬ ('\r' :: List.replicate (n + 1) x ++ ['\n']) <:+: text) <| by
    constructor
    · intro h n hinfix
      have hlength := hinfix.length_le
      simp only [List.cons_append, List.length_cons, List.length_append, List.length_replicate]
        at hlength
      exact h n (by omega) hinfix
    · intro h n _
      exact h n

theorem stripFrom_marker (offset : Nat) (rest : Text) :
    stripFrom [x] 0 offset (x :: rest) = { stripFrom [x] 0 offset rest with
      offsets := offset :: (stripFrom [x] 0 offset rest).offsets } := by
  have hstart : Text.startsWith [x] (x :: rest) = true := by
    simp [Text.startsWith, List.isPrefixOf]
  rw [stripFrom, if_pos ⟨List.cons_ne_nil _ _, hstart⟩]
  rfl

theorem stripFrom_plain {c : Char} (hc : c ≠ x) (offset : Nat) (rest : Text) :
    stripFrom [x] 0 offset (c :: rest) = { stripFrom [x] 0 (offset + 1) rest with
      text := c :: (stripFrom [x] 0 (offset + 1) rest).text } := by
  have hstart : Text.startsWith [x] (c :: rest) = false := by
    simp [Text.startsWith, List.isPrefixOf, hc.symm]
  rw [stripFrom, if_neg]
  rintro ⟨-, h⟩
  rw [hstart] at h
  cases h

theorem stripFrom_text (x : Char) (offset : Nat) (text : Text) :
    (stripFrom [x] 0 offset text).text = text.filter (· ≠ x) := by
  induction text generalizing offset with
  | nil => rfl
  | cons c rest ih =>
    by_cases hc : c = x
    · subst hc
      rw [stripFrom_marker, ih, List.filter_cons_of_neg (by simp)]
    · rw [stripFrom_plain hc, List.filter_cons_of_pos (by simpa using hc)]
      exact congrArg (c :: ·) (ih (offset + 1))

/-- Markers that are put in where stripping met them come back. -/
theorem insertAll_stripFrom (x : Char) (before text : Text) :
    insertAll x (stripFrom [x] 0 before.length text).offsets
      (before ++ (stripFrom [x] 0 before.length text).text) = before ++ text := by
  induction text generalizing before with
  | nil => rfl
  | cons c rest ih =>
    by_cases hc : c = x
    · subst hc
      have hrest := ih before
      rw [stripFrom_marker]
      simp only [insertAll, List.foldr_cons] at hrest ⊢
      rw [hrest, List.take_left, List.drop_left]
    · have hrest := ih (before ++ [c])
      rw [List.length_append, List.length_singleton, List.append_assoc, List.append_assoc] at hrest
      rw [stripFrom_plain hc]
      exact hrest

/-- An offset of a marker counts the other characters before the marker. -/
theorem exists_of_mem_stripFrom (h : o ∈ (stripFrom [x] 0 offset text).offsets) :
    ∃ early late, text = early ++ x :: late ∧ o = offset + (early.filter (· ≠ x)).length := by
  induction text generalizing offset with
  | nil => cases h
  | cons c rest ih =>
    by_cases hc : c = x
    · subst hc
      rw [stripFrom_marker] at h
      rcases List.mem_cons.mp h with rfl | h
      · exact ⟨[], rest, rfl, rfl⟩
      · obtain ⟨early, late, hrest, ho⟩ := ih h
        refine ⟨c :: early, late, by rw [hrest]; rfl, ?_⟩
        rw [List.filter_cons_of_neg (by simp)]
        exact ho
    · rw [stripFrom_plain hc] at h
      obtain ⟨early, late, hrest, ho⟩ := ih h
      refine ⟨c :: early, late, by rw [hrest]; rfl, ?_⟩
      rw [List.filter_cons_of_pos (by simpa using hc), List.length_cons]
      omega

theorem exists_of_head?_filter {c : Char} (h : (text.filter (· ≠ x)).head? = some c) :
    ∃ n rest, text = List.replicate n x ++ c :: rest := by
  induction text with
  | nil => cases h
  | cons a text ih =>
    by_cases ha : a = x
    · subst ha
      rw [List.filter_cons_of_neg (by simp)] at h
      obtain ⟨n, rest, htext⟩ := ih h
      exact ⟨n + 1, rest, by rw [htext]; rfl⟩
    · rw [List.filter_cons_of_pos (by simpa using ha), List.head?_cons] at h
      exact ⟨0, text, by rw [Option.some.inj h]; rfl⟩

theorem exists_of_getLast?_filter {c : Char} (h : (text.filter (· ≠ x)).getLast? = some c) :
    ∃ n front, text = front ++ c :: List.replicate n x := by
  rw [← List.head?_reverse, ← List.filter_reverse] at h
  obtain ⟨n, rest, hrest⟩ := exists_of_head?_filter h
  refine ⟨n, rest.reverse, ?_⟩
  rw [← List.reverse_reverse text, hrest]
  simp

/-- Where a marker stood, the stripped text is not within a line break. -/
theorem meet_of_strip (whole : Unbroken x text) (h : o ∈ (strip text [x]).offsets) :
    Text.Meet ((strip text [x]).text.take o) ((strip text [x]).text.drop o) := by
  obtain ⟨early, late, rfl, ho⟩ := exists_of_mem_stripFrom h
  have htext : (strip (early ++ x :: late) [x]).text =
      early.filter (· ≠ x) ++ late.filter (· ≠ x) := by
    rw [strip, stripFrom_text, List.filter_append, List.filter_cons_of_neg (by simp)]
  rw [Nat.zero_add] at ho
  rw [htext, ho, List.take_left, List.drop_left]
  intro hreturn hnewline
  obtain ⟨m, front, hfront⟩ := exists_of_getLast?_filter hreturn
  obtain ⟨k, rest, hrest⟩ := exists_of_head?_filter hnewline
  refine whole (m + k) ⟨front, rest, ?_⟩
  have hrun : List.replicate (m + k + 1) x = List.replicate m x ++ x :: List.replicate k x := by
    rw [Nat.add_assoc, List.replicate_add, Nat.add_comm k 1, List.replicate_add]
    rfl
  rw [hrun, hfront, hrest]
  simp

section Insertion

variable {offsets : List Nat}

theorem length_insertAll (x : Char) (offsets : List Nat) (text : Text) :
    (insertAll x offsets text).length = text.length + offsets.length := by
  induction offsets with
  | nil => rfl
  | cons p offsets ih =>
    simp only [insertAll, List.foldr_cons] at ih ⊢
    rw [List.length_append, List.length_cons, List.length_take, List.length_drop, ih,
      List.length_cons]
    omega

/-- Putting characters in changes nothing before the first of them. -/
theorem take_insertAll (h : ∀ p ∈ offsets, o ≤ p ∧ p ≤ text.length) :
    (insertAll x offsets text).take o = text.take o := by
  induction offsets with
  | nil => rfl
  | cons p offsets ih =>
    obtain ⟨hop, hp⟩ := h p List.mem_cons_self
    have hrest := ih fun q hq => h q (List.mem_cons_of_mem p hq)
    have hlength := length_insertAll x offsets text
    simp only [insertAll, List.foldr_cons] at hrest hlength ⊢
    rw [List.take_append_of_le_length (by rw [List.length_take]; omega), List.take_take,
      Nat.min_eq_left hop, hrest]

/-- What stands at an offset is still there, unless a character is put in there. -/
theorem getElem?_insertAll (h : ∀ p ∈ offsets, o ≤ p ∧ p ≤ text.length) :
    (insertAll x offsets text)[o]? = text[o]? ∨ (insertAll x offsets text)[o]? = some x := by
  induction offsets with
  | nil => exact Or.inl rfl
  | cons p offsets ih =>
    obtain ⟨hop, hp⟩ := h p List.mem_cons_self
    have hrest := ih fun q hq => h q (List.mem_cons_of_mem p hq)
    have hlength := length_insertAll x offsets text
    simp only [insertAll, List.foldr_cons] at hrest hlength ⊢
    rcases Nat.lt_or_eq_of_le hop with hlt | rfl
    · rwa [List.getElem?_append_left (by rw [List.length_take]; omega), List.getElem?_take_of_lt hlt]
    · right
      rw [List.getElem?_append_right (by rw [List.length_take]; omega), List.length_take,
        Nat.min_eq_left (by omega), Nat.sub_self]
      rfl

theorem meet_insertAll (hn : x ≠ '\n') (h : ∀ p ∈ offsets, o ≤ p ∧ p ≤ text.length)
    (meet : Text.Meet (text.take o) (text.drop o)) :
    Text.Meet ((insertAll x offsets text).take o) ((insertAll x offsets text).drop o) := by
  rw [take_insertAll h]
  intro hreturn hnewline
  rw [List.head?_drop] at hnewline
  rcases @getElem?_insertAll x text o offsets h with hsame | hput
  · rw [hsame, ← List.head?_drop] at hnewline
    exact meet hreturn hnewline
  · rw [hput] at hnewline
    exact hn (Option.some.inj hnewline)

end Insertion

end Marked

namespace Render

variable {x : Char}

theorem modify_append_cons {α : Type} (early : List α) (line : α) (late : List α) (f : α → α) :
    (early ++ line :: late).modify early.length f = early ++ f line :: late := by
  rw [List.modify_eq_take_drop, List.take_left, List.drop_left]
  rfl

theorem markLine_append (marker last first : Text) :
    markLine marker (last.length + 1) (last ++ first) = last ++ marker ++ first := by
  rw [markLine, Nat.add_sub_cancel, List.take_left, List.drop_left]

/-- A marker at the place where two texts meet is put between them. -/
theorem mark_splitLines (hr : x ≠ '\r') (hn : x ≠ '\n') {a b last : Text} {early : List Text}
    (hearly : a.segments = early ++ [last]) (meet : Text.Meet a b) (file : Option Text) :
    mark [x] (a ++ b).splitLines (.point file (early.length + 1) (last.length + 1)) =
      (a ++ x :: b).splitLines := by
  obtain ⟨first, late, hlate, hcons⟩ := Text.segments_cons b hr hn
  have hmarked := Text.splitLines_append hearly hcons
    (.of_head (by simpa using hn)) (Or.inr (Or.inl (by simp)))
  rw [hmarked]
  unfold mark
  dsimp only [Location.point_line, Location.point_character]
  by_cases hline : late ≠ [] ∨ last ++ first ≠ [] ∨ early = []
  · have hmissing (lines : List Text) :
        early.length + 1 - (early ++ (last ++ first) :: lines).length = 0 := by
      rw [List.length_append, List.length_cons]
      omega
    rw [Text.splitLines_append hearly hlate meet hline, hmissing, List.replicate_zero,
      List.append_nil, Nat.add_sub_cancel, modify_append_cons, markLine_append, List.append_assoc]
    rfl
  · -- The texts meet behind the last break, where no line is left.
    simp only [not_or, not_not] at hline
    obtain ⟨rfl, hempty, hne⟩ := hline
    obtain ⟨rfl, rfl⟩ := List.append_eq_nil_iff.mp hempty
    have hlines : (a ++ b).splitLines = early := by
      have hpos := List.length_pos_of_ne_nil hne
      rw [Text.splitLines, Text.segments_append hearly hlate meet]
      rw [if_pos ⟨by simp only [List.length_append, List.length_cons]; omega, by simp⟩]
      simp
    rw [hlines, Nat.add_sub_cancel_left, Nat.add_sub_cancel, List.replicate_one, modify_append_cons]
    rfl

/-- Markers at the places of ascending offsets, put in from the last to the first, are put in at
the offsets. -/
theorem foldr_mark (hr : x ≠ '\r') (hn : x ≠ '\n') (f : SourceFile) {offsets : List Nat}
    (ascending : offsets.Pairwise (· ≤ ·)) (bounded : ∀ o ∈ offsets, o ≤ f.contents.length)
    (meet : ∀ o ∈ offsets, Text.Meet (f.contents.take o) (f.contents.drop o)) :
    (offsets.map f.locate).foldr (fun l lines => mark [x] lines l) f.contents.splitLines =
      (Marked.insertAll x offsets f.contents).splitLines := by
  induction offsets with
  | nil => rfl
  | cons o offsets ih =>
    obtain ⟨hfirst, hascending⟩ := List.pairwise_cons.mp ascending
    have hrest := ih hascending (fun p hp => bounded p (List.mem_cons_of_mem o hp))
      (fun p hp => meet p (List.mem_cons_of_mem o hp))
    have hbound : ∀ p ∈ offsets, o ≤ p ∧ p ≤ f.contents.length :=
      fun p hp => ⟨hfirst p hp, bounded p (List.mem_cons_of_mem o hp)⟩
    have hmeet := meet o List.mem_cons_self
    have hmeet' := Marked.meet_insertAll hn hbound hmeet
    have hsame := @Marked.take_insertAll x f.contents o offsets hbound
    rw [hsame] at hmeet'
    obtain ⟨early, last, hearly⟩ : ∃ early last,
        Text.segments (f.contents.take o) = early ++ [last] :=
      ⟨_, _, (List.dropLast_concat_getLast (Text.segments_ne_nil _)).symm⟩
    have hposition := LineIndex.position?_meet hearly hmeet
    rw [List.take_append_drop, List.length_take, Nat.min_eq_left (bounded o List.mem_cons_self)]
      at hposition
    have hmark := mark_splitLines hr hn hearly hmeet' f.identifier
    rw [← hsame, List.take_append_drop] at hmark
    rw [List.map_cons, List.foldr_cons, hrest, SourceFile.locate_eq hposition, hmark]
    rfl

/-- Rendering the places of the markers of a text, in whatever order, gives the text with its
markers. -/
theorem locations_strip (hr : x ≠ '\r') (hn : x ≠ '\n') {text : Text}
    (whole : Marked.Unbroken x text) {f : SourceFile} {ls : List Location}
    (holds : f.contents = (Marked.strip text [x]).text)
    (same : ls.Perm ((Marked.strip text [x]).offsets.map f.locate)) :
    locations ls (Marked.strip text [x]).text [x] = source text := by
  have hbounded : ∀ o ∈ (Marked.strip text [x]).offsets, o ≤ f.contents.length := by
    intro o ho
    rw [holds]
    have := (Marked.stripFrom_offset_bounds ho).2
    simpa [Marked.strip] using this
  have hascending : (Marked.strip text [x]).offsets.Pairwise (· ≤ ·) :=
    Marked.stripFrom_ascending _ _ _ text
  have hlocated : ((Marked.strip text [x]).offsets.map f.locate).Pairwise (·.atMost ·) := by
    apply List.pairwise_map.mpr
    apply hascending.imp_of_mem
    intro a b _ hb hab
    exact SourceFile.locate_atMost hab (hbounded b hb)
  have hmarks := foldr_mark hr hn f hascending hbounded (by
    intro o ho
    rw [holds]
    exact Marked.meet_of_strip whole ho)
  have hback : Marked.insertAll x (Marked.strip text [x]).offsets f.contents = text := by
    rw [holds]
    exact Marked.insertAll_stripFrom x [] text
  rw [hback, holds] at hmarks
  rw [locations, source, Location.sortDescendingOn_eq_reverse same hlocated, List.foldl_reverse,
    hmarks]

/-- Adjacent markers, markers at the end of a line, on an empty line and behind the last break. -/
theorem locations_strip_shuffled :
    let text := "↓a↓↓\r\n↓\n\nb↓\n↓".toList
    let f : SourceFile := { contents := "a\r\n\n\nb\n".toList }
    let ls : List Location := [.point none 1 2, .point none 5 1, .point none 2 1, .point none 1 1,
      .point none 4 2, .point none 1 2]
    Marked.Unbroken '↓' text ∧ f.contents = (Marked.strip text).text ∧
      ls.Perm ((Marked.strip text).offsets.map f.locate) ∧
      locations ls (Marked.strip text).text = source text ∧
      source text = "```\n↓a↓↓\n↓\n\nb↓\n↓\n```".toList := by
  intro text f ls
  have whole : Marked.Unbroken '↓' text := by decide
  have holds : f.contents = (Marked.strip text).text := by decide
  have same : ls.Perm ((Marked.strip text).offsets.map f.locate) := by decide
  exact ⟨whole, holds, same, locations_strip (by decide) (by decide) whole holds same, by decide⟩

end Render

end StyleRules
