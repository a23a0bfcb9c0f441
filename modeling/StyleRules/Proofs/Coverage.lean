import StyleRules.Proofs.Directives
import StyleRules.Proofs.Positions
import StyleRules.Proofs.TypeBodies

namespace StyleRules

namespace WeakDelegate

/-- The number of the line that a text ends in. -/
def lastLineNumber (text : Text) : Nat := (text.breakEnds 0).length + 1

/-- The length of the line that a text ends in. -/
def lastLineLength (text : Text) : Nat := text.length - (text.breakEnds 0).getLastD 0

/-- The lines of a masked text before and after a declaration in it is made weak: they differ in
the line of the declaration only. -/
theorem splitLines_weakened {before after : Text} (h : Cut before after) :
    ∃ early last first late,
      (mask (before ++ after) .swift false).splitLines =
        early ++ (last ++ 'v' :: 'a' :: first) :: late ∧
      (mask (before ++ ("weak ".toList ++ after)) .swift false).splitLines =
        early ++ (last ++ ("weak ".toList ++ 'v' :: 'a' :: first)) :: late ∧
      Text.AtBoundary last ∧ 1 + early.length = lastLineNumber before ∧
      last.length = lastLineLength before := by
  obtain ⟨rest, hafter⟩ := h.mask_after false
  have hends : (mask before .swift false).breakEnds 0 = before.breakEnds 0 :=
    Mask.breakEnds_scan false .code 0 before
  have hlength : (mask before .swift false).length = before.length := Mask.length_scan _ _ _ _
  obtain ⟨early, last, hearly⟩ : ∃ early last,
      (mask before .swift false).segments = early ++ [last] :=
    ⟨_, _, (List.dropLast_concat_getLast (Text.segments_ne_nil _)).symm⟩
  obtain ⟨first, lines, hrest, hfirst⟩ :=
    Text.segments_cons rest (show 'a' ≠ '\r' by decide) (by decide)
  obtain ⟨line, late, hline, hlate⟩ :=
    Text.segments_cons ('a' :: rest) (show 'v' ≠ '\r' by decide) (by decide)
  rw [hfirst] at hline
  obtain ⟨rfl, rfl⟩ := List.cons.inj hline
  have hweak : Text.segments "weak ".toList = [] ++ ["weak ".toList] := by decide
  have hword := Text.segments_append hweak hlate (.of_head (by simp))
  have hsplit := Text.splitLines_append hearly hlate (.of_head (by simp)) (by simp)
  have hsplit' := Text.splitLines_append hearly hword (.of_head (by simp)) (by simp)
  rw [← hafter, ← h.mask_append false] at hsplit
  rw [← hafter, ← h.mask_weak false] at hsplit'
  have hcount := Text.length_segments 0 (mask before .swift false)
  have hlast := Text.length_last_segment 0 hearly
  rw [hends] at hcount hlast
  rw [hearly, List.length_append] at hcount
  refine ⟨early, last, first, _, hsplit, hsplit', ?_, ?_, ?_⟩
  · exact h.boundary_kept.of_suffix (Text.last_segment_suffix hearly).1
  · simp only [List.length_cons, List.length_nil] at hcount
    unfold lastLineNumber
    omega
  · unfold lastLineLength
    omega

/-- Every directive of a text is read again once a declaration is made weak: as it was if it stands
on another line, and with at least the identifiers that it had if it stands on the same line. -/
theorem ofText_weakened {before after : Text} (h : Cut before after) {d : Directive}
    (hd : d ∈ Directive.ofText (before ++ after) .swift) :
    (d.line ≠ lastLineNumber before ∧
      d ∈ Directive.ofText (before ++ ("weak ".toList ++ after)) .swift) ∨
    (d.line = lastLineNumber before ∧
      ∃ d' ∈ Directive.ofText (before ++ ("weak ".toList ++ after)) .swift,
        Directive.Kept (lastLineLength before) d d') := by
  obtain ⟨early, last, first, late, hold, hnew, hb, hnumber, hlength⟩ := splitLines_weakened h
  rw [Directive.ofText, hold, Directive.ofLines_append, Directive.ofLines, hnumber] at hd
  rw [Directive.ofText, hnew, Directive.ofLines_append, Directive.ofLines, hnumber]
  rcases List.mem_append.mp hd with hd | hd
  · have hline := Directive.mem_ofLines hd
    exact Or.inl ⟨by omega, List.mem_append_left _ hd⟩
  · rcases List.mem_append.mp hd with hd | hd
    · obtain ⟨d', hd', hkept⟩ := Directive.ofLineFrom_cut hb ⟨'v', _, rfl, Or.inl rfl⟩
        (Directive.inert_var first) (show 1 + last.length = lastLineLength before + 1 by omega)
        (Nat.zero_le _) hd
      refine Or.inr ⟨(Directive.mem_ofLineFrom hd).1, d', ?_, hkept⟩
      exact List.mem_append_right _ (List.mem_append_left _ hd')
    · have hline := Directive.mem_ofLines hd
      exact Or.inl ⟨by omega, List.mem_append_right _ (List.mem_append_right _ hd)⟩

/-- Two stretches without line breaks, the second of them longer. -/
structure Longer (growth : Nat) (part part' : Text) : Prop where
  breaks : ∀ offset, part.breakEnds offset = []
  breaks' : ∀ offset, part'.breakEnds offset = []
  head : ∀ c ∈ part.head?, c ≠ '\n'
  head' : ∀ c ∈ part'.head?, c ≠ '\n'
  length : part'.length = part.length + growth

theorem longer_weak : Longer 5 [] "weak ".toList where
  breaks _ := rfl
  breaks' _ := rfl
  head := by simp
  head' := by simp
  length := rfl

section Longer

variable {growth n : Nat} {before part part' after : Text} (longer : Longer growth part part')
include longer

theorem Longer.head_append (hbreak : ∀ c ∈ after.head?, c ≠ '\n') :
    (∀ c ∈ (part ++ after).head?, c ≠ '\n') ∧ ∀ c ∈ (part' ++ after).head?, c ≠ '\n' := by
  have hhead {part : Text} (hpart : ∀ c ∈ part.head?, c ≠ '\n') :
      ∀ c ∈ (part ++ after).head?, c ≠ '\n' := by
    cases part with
    | nil => exact hbreak
    | cons c part => exact hpart
  exact ⟨hhead longer.head, hhead longer.head'⟩

theorem startsUpTo_longer (hbreak : ∀ c ∈ after.head?, c ≠ '\n') :
    LineIndex.startsUpTo (before ++ (part' ++ after)) (before.length + n + growth) =
      (0 :: before.breakEnds 0) ++ (((part ++ after).breakEnds before.length).takeWhile
        (· ≤ before.length + n)).map (· + growth) := by
  have hshift : after.breakEnds (before.length + part'.length) =
      (after.breakEnds (before.length + part.length)).map (· + growth) := by
    rw [longer.length, ← Nat.add_assoc, Text.breakEnds_add]
  have meet {text : Text} : Text.Meet text after := .of_head hbreak
  rw [Nat.add_assoc, LineIndex.startsUpTo_behind (n + growth) (.of_head (longer.head_append hbreak).2),
    Text.breakEnds_append _ meet, Text.breakEnds_append _ meet, longer.breaks, longer.breaks',
    List.nil_append, List.nil_append, hshift, List.takeWhile_map]
  congr 3
  funext b
  simp only [Function.comp_apply, decide_eq_decide]
  omega

theorem position?_before {offset : Nat} (hbreak : ∀ c ∈ after.head?, c ≠ '\n')
    (hle : offset ≤ before.length) :
    ∃ line character, (LineIndex.ofText (before ++ (part ++ after))).position? offset =
        some (line, character) ∧
      (LineIndex.ofText (before ++ (part' ++ after))).position? offset = some (line, character) ∧
      (line = lastLineNumber before →
        character + before.length = lastLineLength before + offset + 1) := by
  obtain ⟨hhead, hhead'⟩ := longer.head_append hbreak
  have hold := @LineIndex.position?_eq (before ++ (part ++ after)) offset
    (by rw [List.length_append]; omega)
  have hnew := @LineIndex.position?_eq (before ++ (part' ++ after)) offset
    (by rw [List.length_append]; omega)
  have hlast := LineIndex.startsUpTo_getLastD_le (before ++ (part ++ after)) offset
  rw [LineIndex.startsUpTo_before (.of_head hhead) hle] at hold hlast
  rw [LineIndex.startsUpTo_before (.of_head hhead') hle] at hnew
  refine ⟨_, _, hold, hnew, ?_⟩
  intro hline
  have hall : (0 :: before.breakEnds 0).takeWhile (· ≤ offset) = 0 :: before.breakEnds 0 :=
    (List.takeWhile_prefix _).eq_of_length hline
  rw [hall, List.getLastD_cons] at hlast ⊢
  unfold lastLineLength
  omega

/-- Behind a stretch that becomes longer a place stays on its line, and moves along it if that is
the line of the stretch. -/
theorem position?_behind (hbreak : ∀ c ∈ after.head?, c ≠ '\n')
    (hn : n ≤ (part ++ after).length) :
    ∃ line character character',
      (LineIndex.ofText (before ++ (part ++ after))).position? (before.length + n : Nat) =
        some (line, character) ∧
      (LineIndex.ofText (before ++ (part' ++ after))).position?
        (before.length + n + growth : Nat) = some (line, character') ∧
      ((character' = character ∧ line ≠ lastLineNumber before) ∨
        (character' = character + growth ∧ line = lastLineNumber before ∧
          lastLineLength before < character)) := by
  have hlength := longer.length
  rw [List.length_append] at hn
  have hold := @LineIndex.position?_eq (before ++ (part ++ after)) (before.length + n)
    (by rw [List.length_append, List.length_append]; omega)
  have hnew := @LineIndex.position?_eq (before ++ (part' ++ after)) (before.length + n + growth)
    (by rw [List.length_append, List.length_append]; omega)
  have hlast := LineIndex.startsUpTo_getLastD_le (before ++ (part ++ after)) (before.length + n)
  rw [LineIndex.startsUpTo_behind n (.of_head (longer.head_append hbreak).1)] at hold hlast
  rw [startsUpTo_longer longer hbreak, List.length_append, List.length_map,
    ← List.length_append] at hnew
  refine ⟨_, _, _, hold, hnew, ?_⟩
  cases hstarts : ((part ++ after).breakEnds before.length).takeWhile (· ≤ before.length + n) with
  | nil =>
    right
    rw [hstarts, List.append_nil, List.getLastD_cons] at hlast
    simp only [List.map_nil, List.append_nil, List.getLastD_cons, List.length_cons]
    refine ⟨by omega, rfl, ?_⟩
    unfold lastLineLength
    omega
  | cons b more =>
    left
    obtain ⟨starts, last, hend⟩ : ∃ starts last, b :: more = starts ++ [last] :=
      ⟨_, _, (List.dropLast_concat_getLast (List.cons_ne_nil b more)).symm⟩
    rw [hend, List.map_append, List.map_cons, List.map_nil, ← List.append_assoc,
      ← List.append_assoc, List.getLastD_concat, List.getLastD_concat]
    refine ⟨by omega, ?_⟩
    intro hline
    have := congrArg List.length hend
    simp only [List.length_append, List.length_cons, List.length_nil, lastLineNumber] at hline this
    omega

end Longer

/-- What the character of a place becomes once a declaration is made weak: the same, or five
characters further if the place is on the line of the declaration and not before it. -/
def MovedOn (before : Text) (line character character' : Nat) : Prop :=
  (character' = character ∧
      (line = lastLineNumber before → character ≤ lastLineLength before)) ∨
    (character' = character + 5 ∧ line = lastLineNumber before ∧
      lastLineLength before < character)

/-- The place of an offset once a declaration is made weak is on the same line. -/
theorem position?_moved {before after : Text} {offset : Nat}
    (hbreak : ∀ c ∈ after.head?, c ≠ '\n') (h : offset ≤ (before ++ after).length) :
    ∃ line character character',
      (LineIndex.ofText (before ++ after)).position? offset = some (line, character) ∧
      (LineIndex.ofText (before ++ ("weak ".toList ++ after))).position?
        (moved before.length offset : Nat) = some (line, character') ∧
      MovedOn before line character character' := by
  by_cases hlt : offset < before.length
  · obtain ⟨line, character, hold, hnew, hline⟩ :=
      position?_before longer_weak hbreak (Nat.le_of_lt hlt)
    rw [moved, if_pos hlt]
    refine ⟨line, character, character, hold, hnew, Or.inl ⟨rfl, fun heq => ?_⟩⟩
    have := hline heq
    omega
  · obtain ⟨n, rfl⟩ := Nat.exists_eq_add_of_le (Nat.le_of_not_lt hlt)
    rw [moved, if_neg hlt]
    rw [List.length_append] at h
    obtain ⟨line, character, character', hold, hnew, hmoved⟩ :=
      position?_behind longer_weak hbreak (n := n) (Nat.le_of_add_le_add_left h)
    exact ⟨line, character, character', hold, hnew,
      hmoved.imp_left fun hsame => ⟨hsame.1, fun heq => absurd heq hsame.2⟩⟩

theorem covers_of_line_eq {d d' : Directive} {file : Option Text} {line character character' : Nat}
    (hl : 1 ≤ line) (hc : 1 ≤ character) (hc' : 1 ≤ character')
    (hline : d'.line = d.line) (hmodifier : d'.modifier = d.modifier)
    (hcharacter : d.line = line → d.character ≤ character → d'.character ≤ character')
    (h : d.covers (.point file line character) = true) :
    d'.covers (.point file line character') = true := by
  unfold Directive.covers Location.point at h ⊢
  dsimp only at h ⊢
  rw [hmodifier, hline]
  cases hm : d.modifier with
  | next => rwa [hm] at h
  | this => rwa [hm] at h
  | previous => rwa [hm] at h
  | onward =>
    rw [hm] at h
    simp only [Option.getD_some, Bool.or_eq_true, Bool.and_eq_true, decide_eq_true_eq,
      beq_iff_eq] at h ⊢
    rcases h with hlt | ⟨heq, hle⟩
    · exact Or.inl hlt
    · exact Or.inr ⟨heq, hcharacter heq.symm hle⟩

/-- Where a rule is enabled once a declaration is made weak, it was enabled before. -/
theorem isEnabled_of_weakened {f : SourceFile} {before after rule : Text} {offset : Nat}
    (h : Cut before after) (hswift : f.dialect = .swift) (hcontents : f.contents = before ++ after)
    (hoffset : offset ≤ f.contents.length)
    (henabled : SourceFile.isEnabled { f with contents := before ++ ("weak ".toList ++ after) } rule
      (SourceFile.locate { f with contents := before ++ ("weak ".toList ++ after) }
        (moved before.length offset)) = true) :
    f.isEnabled rule (f.locate offset) = true := by
  have hbreak : ∀ c ∈ after.head?, c ≠ '\n' := by
    obtain ⟨rest, rfl⟩ := h.starts
    simp
  rw [hcontents] at hoffset
  obtain ⟨line, character, character', hold, hnew, hmoved⟩ := position?_moved hbreak hoffset
  rw [← hcontents] at hold
  rw [SourceFile.locate_eq hold]
  rw [SourceFile.locate_eq (f := { f with contents := before ++ ("weak ".toList ++ after) }) hnew]
    at henabled
  simp only [SourceFile.isEnabled, SourceFile.directives, Directive.leaveEnabled, hswift, hcontents,
    Bool.not_eq_true', List.any_eq_false, Bool.and_eq_true, not_and] at henabled ⊢
  intro d hd happlies hcovers
  rcases ofText_weakened h hd with ⟨hother, hsame⟩ | ⟨hline, d', hd', hkept⟩
  · refine henabled d hsame happlies (covers_of_line_eq _ _ _ rfl rfl ?_ hcovers)
    intro heq hle
    rcases hmoved with ⟨hc, -⟩ | ⟨-, hl, -⟩
    · omega
    · omega
  · refine henabled d' hd' (hkept.rules rule happlies)
      (covers_of_line_eq _ _ _ hkept.line hkept.modifier ?_ hcovers)
    intro heq hle
    rcases hmoved with ⟨hc, hshort⟩ | ⟨hc, hl, hlong⟩
    · have := hshort (by omega)
      rcases hkept.character with ⟨-, hd⟩ | ⟨hd, -⟩
      · omega
      · omega
    · rcases hkept.character with ⟨-, hd⟩ | ⟨-, hd⟩
      · omega
      · omega

end WeakDelegate

end StyleRules
