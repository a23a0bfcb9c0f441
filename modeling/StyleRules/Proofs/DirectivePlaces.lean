import StyleRules.Proofs.Remasking
import StyleRules.Proofs.Rereading

namespace StyleRules

namespace Mask

variable {d : Dialect} {c : Char} {rest : Text}

/-- The regions of a comment, its delimiters included. -/
def Region.IsComment : Region → Prop
  | .lineComment | .blockComment _ | .blockEnd _ => True
  | .code | .literal .. | .literalEnd _ => False

/-- The regions that the characters of a text belong to. -/
def regions (d : Dialect) (region : Region) : Text → List Region
  | [] => []
  | c :: rest =>
    let here := enter d region c rest
    here :: regions d (leave here c) rest

/-- A mask shows every character as its region does. -/
theorem scan_eq_zipWith (comments : Bool) (region : Region) (text : Text) :
    scan d comments region text = (regions d region text).zipWith (shown comments) text := by
  induction text generalizing region with
  | nil => rfl
  | cons c rest ih => simp only [scan, regions, List.zipWith_cons_cons, ih]

/-- The scanner's way up to an offset does not depend on whether comments are blanked out. -/
theorem exists_before {text : Text} {i : Nat} (region : Region) (h : text.drop i = c :: rest) :
    ∃ before, (regions d region text)[i]? = some (enter d before c rest) ∧
      ∀ comments, (scan d comments region text).drop i = scan d comments before (c :: rest) := by
  induction i generalizing region text with
  | zero =>
    rw [List.drop_zero] at h
    subst h
    exact ⟨region, rfl, fun _ => rfl⟩
  | succ i ih =>
    cases text with
    | nil => cases h
    | cons x text => exact ih (leave (enter d region x text) x) h

/-- Where the sign of a line comment is shown although literals are not, it stands in a comment. -/
theorem isComment_of_shown {before : Region} (hd : d.Visible) (hc : ¬Blanked c)
    (hstart : Text.startsWith d.lineComment (c :: rest) = true)
    (hshown : shown false (enter d before c rest) c = c) :
    (enter d before c rest).IsComment := by
  have hblank : blank c ≠ c := fun hb => hc (hb ▸ blanked_blank c)
  cases hhere : enter d before c rest with
  | lineComment => trivial
  | blockComment n => trivial
  | blockEnd n => trivial
  | literal quote n =>
    rw [hhere] at hshown
    exact absurd hshown hblank
  | literalEnd n =>
    rw [hhere] at hshown
    exact absurd hshown hblank
  | code =>
    have hopen := open_of_enter_eq_code (fun hb => hc (Or.inr hb)) hhere
    rw [enter_of_open hopen, opens_of_lineComment hd.delimited hstart] at hhere
    cases hhere

theorem shown_of_isComment {region : Region} (h : region.IsComment) (comments : Bool) :
    shown comments region c = if comments then blank c else c := by
  cases region with
  | code => cases h
  | literal quote n => cases h
  | literalEnd n => cases h
  | lineComment => rfl
  | blockComment n => rfl
  | blockEnd n => rfl

/-- The character at an offset belongs to a comment: it is blanked out with the comments, and not
with the literals alone. -/
structure Commented (d : Dialect) (text : Text) (offset : Nat) : Prop where
  region : ∃ region, (regions d .code text)[offset]? = some region ∧ region.IsComment
  hidden : (mask text d true)[offset]? = some ' '
  kept : (mask text d false)[offset]? = text[offset]?

section Sign

variable {text before after : Text}

/-- Where a mask is cut into two, its text can be cut too. -/
theorem exists_ahead {comments : Bool} (hmask : mask text d comments = before ++ after)
    (hne : after ≠ []) : ∃ c rest region, text.drop before.length = c :: rest ∧
      (regions d .code text)[before.length]? = some (enter d region c rest) ∧
      scan d comments region (c :: rest) = after := by
  have hwithin : before.length < text.length := by
    have hlength : (mask text d comments).length = text.length := length_scan d comments .code text
    have hpos := List.length_pos_iff.mpr hne
    rw [hmask, List.length_append] at hlength
    omega
  have hahead := List.drop_eq_getElem_cons hwithin
  obtain ⟨region, hregion, hscan⟩ := @exists_before d _ _ text before.length .code hahead
  refine ⟨_, _, region, hahead, hregion, ?_⟩
  rw [← hscan, ← mask, hmask, List.drop_left]

/-- Where the sign of a line comment is shown although literals are not, the text has it, in a
comment. -/
theorem commented_of_sign (hd : d.Visible) (hmask : mask text d false = before ++ after)
    (hsign : Text.startsWith d.lineComment after = true) :
    Text.startsWith d.lineComment (text.drop before.length) = true ∧
      Commented d text before.length := by
  have hunblanked : ∀ x ∈ d.lineComment, ¬Blanked x :=
    fun x hx hb => (hd.alien x hb).lineComment hx
  obtain ⟨x, more, hcomment⟩ := List.exists_cons_of_ne_nil hd.lineComment
  have hx : ¬Blanked x := hunblanked x (by rw [hcomment]; exact List.mem_cons_self)
  have hne : after ≠ [] := by
    rintro rfl
    rw [Text.startsWith_nil hd.lineComment] at hsign
    cases hsign
  obtain ⟨c, rest, region, hahead, hregion, hafter⟩ := exists_ahead hmask hne
  have hstart : Text.startsWith d.lineComment (c :: rest) = true := by
    apply startsWith_of_scan (fun x hx => ?_) (hafter ▸ hsign)
    have hx := hunblanked x hx
    exact ⟨fun hs => hx (Or.inl hs), fun hb => hx (Or.inr hb)⟩
  have hc : c = x := by
    rw [hcomment] at hstart
    simp only [Text.startsWith, List.isPrefixOf, Bool.and_eq_true, beq_iff_eq] at hstart
    exact hstart.1.symm
  have hshown : shown false (enter d region c rest) c = c := by
    rw [← hafter, hcomment] at hsign
    simp only [scan, Text.startsWith, List.isPrefixOf, Bool.and_eq_true, beq_iff_eq] at hsign
    exact hsign.1.symm.trans hc.symm
  rw [← hc] at hx
  have hcommented := isComment_of_shown hd hx hstart hshown
  have hget : text[before.length]? = some c := by rw [← List.head?_drop, hahead, List.head?_cons]
  have hmasked (comments : Bool) : (mask text d comments)[before.length]? =
      some (if comments then blank c else c) := by
    rw [mask, scan_eq_zipWith, List.getElem?_zipWith, hregion, hget,
      ← shown_of_isComment hcommented]
  have hblank : blank c = ' ' := if_neg fun hb => hx (Or.inr hb)
  refine ⟨hahead ▸ hstart, ⟨_, hregion, hcommented⟩, ?_, ?_⟩
  · rw [hmasked, if_pos rfl, hblank]
  · rw [hmasked, if_neg Bool.false_ne_true, hget]

end Sign

end Mask

namespace Directive

variable {d : Dialect} {found : Directive}

theorem startsWith_of_read? {text left : Text} {m : Modifier} {rules : List Text}
    (h : read? d text = some (m, rules, left)) : Text.startsWith d.lineComment text = true := by
  rw [read?_eq] at h
  obtain ⟨opened, hopened, -⟩ := Option.bind_eq_some_iff.mp h
  obtain ⟨rest, hrest, -⟩ := Option.bind_eq_some_iff.mp hopened
  unfold after? at hrest
  split at hrest
  next hstart => exact hstart
  next => cases hrest

theorem exists_line_of_mem {line : Nat} {texts : List Text} (h : found ∈ ofLines d line texts) :
    ∃ early text late, texts = early ++ text :: late ∧
      found ∈ ofLineFrom d (line + early.length) 0 1 text := by
  induction texts generalizing line with
  | nil => cases h
  | cons text texts ih =>
    rcases List.mem_append.mp h with h | h
    · exact ⟨[], text, texts, rfl, h⟩
    · obtain ⟨early, text', late, rfl, hmem⟩ := ih h
      refine ⟨text :: early, text', late, rfl, ?_⟩
      rwa [List.length_cons, Nat.add_comm early.length, ← Nat.add_assoc]

/-- A directive of the lines of a text stands at the sign of a comment, where its line and character
say. -/
theorem exists_cut_of_mem {text : Text} (h : found ∈ ofLines d 1 text.splitLines) :
    ∃ before after, text = before ++ after ∧ Text.startsWith d.lineComment after = true ∧
      (LineIndex.ofText text).position? before.length = some (found.line, found.character) := by
  obtain ⟨early, line, late, hlines, hmem⟩ := exists_line_of_mem h
  obtain ⟨a, b, m, rules, left, rfl, hread, rfl⟩ := exists_read?_of_mem hmem
  obtain ⟨more, hsegments⟩ := Text.splitLines_prefix text
  rw [hlines, List.append_assoc, List.cons_append] at hsegments
  obtain ⟨before, after, rfl, hbefore, meet⟩ := Text.exists_of_segments hsegments.symm
  refine ⟨before, b ++ after, rfl, ?_, ?_⟩
  · have hstart := List.isPrefixOf_iff_prefix.mp (startsWith_of_read? hread)
    exact List.isPrefixOf_iff_prefix.mpr (hstart.trans (List.prefix_append b after))
  · rw [LineIndex.position?_meet hbefore meet, Nat.add_comm early.length, Nat.add_comm a.length]

/-- The first directive stands before the second. -/
def Before (a b : Directive) : Prop :=
  a.line < b.line ∨ (a.line = b.line ∧ a.character < b.character)

theorem ofLineFrom_ascending (line skip character : Nat) (text : Text) :
    (ofLineFrom d line skip character text).Pairwise Before := by
  fun_induction ofLineFrom d line skip character text with
  | case1 => exact List.Pairwise.nil
  | case2 character c rest k ih => exact ih
  | case3 character c rest m rules left hread ih =>
    refine List.pairwise_cons.mpr ⟨fun other hother => ?_, ih⟩
    obtain ⟨hline, hcharacter⟩ := mem_ofLineFrom hother
    exact Or.inr ⟨hline.symm, by dsimp only; omega⟩
  | case4 character c rest hread ih => exact ih

theorem ofLines_ascending (line : Nat) (texts : List Text) :
    (ofLines d line texts).Pairwise Before := by
  induction texts generalizing line with
  | nil => exact List.Pairwise.nil
  | cons text texts ih =>
    refine List.pairwise_append.mpr ⟨ofLineFrom_ascending line 0 1 text, ih (line + 1), ?_⟩
    intro a ha b hb
    have hline := (mem_ofLineFrom ha).1
    have hlater := (mem_ofLines hb).1
    exact Or.inl (by omega)

/-- Every directive stands where a text has the sign of a line comment, in a comment and neither in
code nor in a literal, behind the directive before it. -/
theorem ofText_placed (known : d ∈ Dialect.known) (text : Text) :
    (∀ found ∈ ofText text d, ∃ offset : Nat,
      (∀ other : Int, (LineIndex.ofText text).position? other =
        some (found.line, found.character) ↔ other = offset) ∧
      Text.startsWith d.lineComment (text.drop offset) = true ∧
      Mask.Commented d text offset) ∧
    (ofText text d).Pairwise Before := by
  refine ⟨fun found h => ?_, ofLines_ascending 1 _⟩
  obtain ⟨before, after, hmask, hsign, hposition⟩ := exists_cut_of_mem h
  rw [Mask.position?_mask] at hposition
  have hcommented := Mask.commented_of_sign (Mask.visible_of_known known) hmask hsign
  refine ⟨before.length, fun other => ⟨fun hother => ?_, ?_⟩, hcommented⟩
  · exact LineIndex.position?_injective hother hposition
  · rintro rfl
    exact hposition

/-- The sign of the first directive starts with the end of a block comment, and the second stands
behind what would be one if it did not stand in a literal. -/
theorem ofText_placed_overlapping :
    let text : Text :=
      "/* *// lintcheck:disable a\r\"// lintcheck:disable b\" //lintcheck:disable:next c\n".toList
    Dialect.swift ∈ Dialect.known ∧
      ofText text .swift = [⟨1, 5, ["a".toList], .onward⟩, ⟨2, 26, ["c".toList], .next⟩] ∧
      (∃ offset : Nat, (LineIndex.ofText text).position? offset = some (1, 5) ∧
        Mask.Commented .swift text offset) ∧
      ∃ offset : Nat, (LineIndex.ofText text).position? offset = some (2, 26) ∧
        Mask.Commented .swift text offset := by
  intro text
  have known : Dialect.swift ∈ Dialect.known := by decide
  have htext : ofText text .swift =
      [⟨1, 5, ["a".toList], .onward⟩, ⟨2, 26, ["c".toList], .next⟩] := by decide +kernel
  obtain ⟨hplaced, -⟩ := ofText_placed known text
  rw [htext] at hplaced
  obtain ⟨first, hfirst, -, hin⟩ := hplaced ⟨1, 5, ["a".toList], .onward⟩ (by simp)
  obtain ⟨second, hsecond, -, hin'⟩ := hplaced ⟨2, 26, ["c".toList], .next⟩ (by simp)
  exact ⟨known, htext, ⟨first, (hfirst _).mpr rfl, hin⟩, second, (hsecond _).mpr rfl, hin'⟩

end Directive

end StyleRules
