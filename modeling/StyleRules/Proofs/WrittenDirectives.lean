import StyleRules.Proofs.Directives
import StyleRules.Proofs.Remasking
import Mathlib.Data.List.Count

namespace StyleRules

namespace Text

theorem head_append_of_forall {p : Char → Prop} {text : Text} (hne : text ≠ [])
    (h : ∀ c ∈ text, p c) (rest : Text) : ∀ c ∈ (text ++ rest).head?, p c := by
  obtain ⟨x, more, rfl⟩ := List.exists_cons_of_ne_nil hne
  intro c hc
  cases Option.mem_some.mp hc
  exact h x List.mem_cons_self

theorem isSpaceOrTab_of_isWordChar {c : Char} (h : isWordChar c) : isSpaceOrTab c = false := by
  apply Bool.eq_false_iff.mpr
  intro hs
  simp only [isSpaceOrTab, Bool.or_eq_true, beq_iff_eq] at hs
  rcases hs with rfl | rfl
  · exact absurd h (by decide)
  · exact absurd h (by decide)

theorem not_break_of_isWordChar {c : Char} (h : isWordChar c) : ¬(c = '\r' ∨ c = '\n') := by
  rintro (rfl | rfl)
  · exact absurd h (by decide)
  · exact absurd h (by decide)

theorem not_break_of_not_mem {text : Text} (hr : '\r' ∉ text) (hn : '\n' ∉ text) :
    ∀ c ∈ text, ¬(c = '\r' ∨ c = '\n') := by
  rintro c hc (rfl | rfl)
  · exact hr hc
  · exact hn hc

theorem not_break_of_isSpaceOrTab {c : Char} (h : isSpaceOrTab c) : ¬(c = '\r' ∨ c = '\n') := by
  rintro (rfl | rfl)
  · exact absurd h (by decide)
  · exact absurd h (by decide)

theorem isBlank_of_isSpaceOrTab {c : Char} (h : isSpaceOrTab c) : isBlank c = true := by
  simp only [isSpaceOrTab, Bool.or_eq_true, beq_iff_eq] at h
  rcases h with rfl | rfl
  · decide
  · decide

end Text

/-- What stands for a modifier in a directive. -/
def Modifier.written : Modifier → Text
  | onward => []
  | m => ':' :: m.name

/-- The lines that a directive on the first line speaks about. -/
def Modifier.FromFirst : Modifier → Nat → Prop
  | onward, _ => True
  | next, line => line = 2
  | this, line => line = 1
  | previous, _ => False

namespace Directive

/-- An identifier is not empty and has word characters only. -/
structure IsIdentifier (word : Text) : Prop where
  ne_nil : word ≠ []
  wordChars : ∀ c ∈ word, Text.isWordChar c = true

/-- What stands between two identifiers: spaces and tabs and no more than one comma, but not
nothing. -/
structure Separates (separator : Text) : Prop where
  ne_nil : separator ≠ []
  chars : ∀ c ∈ separator, Text.isSpaceOrTab c = true ∨ c = ','
  comma : separator.count ',' ≤ 1

/-- Identifiers as they are written, each but the first behind what separates it from the one
before. -/
def writeRules (first : Text) (more : List (Text × Text)) : Text :=
  first ++ more.flatMap fun rule => rule.1 ++ rule.2

/-- The parts of a directive that is written as a comment of its own. -/
structure Wording where
  gap : Text
  modifier : Modifier
  space : Text
  first : Text
  more : List (Text × Text)
  gap_spaces : ∀ c ∈ gap, Text.isSpaceOrTab c = true
  space_ne_nil : space ≠ []
  space_spaces : ∀ c ∈ space, Text.isSpaceOrTab c = true
  first_identifier : IsIdentifier first
  more_separated : ∀ rule ∈ more, Separates rule.1 ∧ IsIdentifier rule.2

namespace Wording

variable (w : Wording) (d : Dialect)

def rules : List Text := w.first :: w.more.map Prod.snd

def line : Text :=
  d.lineComment ++ (w.gap ++ ((Dialect.directivePrefix ++ ":disable".toList) ++
    (w.modifier.written ++ (w.space ++ writeRules w.first w.more))))

end Wording

theorem IsIdentifier.head {word : Text} (h : IsIdentifier word) (rest : Text) :
    ∀ c ∈ (word ++ rest).head?, Text.isWordChar c = true :=
  Text.head_append_of_forall h.ne_nil h.wordChars rest

theorem Separates.head {separator : Text} (h : Separates separator) (rest : Text) :
    ∀ c ∈ (separator ++ rest).head?, Text.isWordChar c = false := by
  refine Text.head_append_of_forall h.ne_nil (fun c hc => Bool.eq_false_iff.mpr fun hword => ?_) rest
  rcases h.chars c hc with hspace | rfl
  · rw [Text.isSpaceOrTab_of_isWordChar hword] at hspace
    cases hspace
  · exact absurd hword (by decide)

/-- A separator is skipped whole. -/
theorem Separates.afterSeparator {separator : Text} (h : Separates separator) :
    afterSeparator separator = [] := by
  unfold Directive.afterSeparator
  have hsplit := List.takeWhile_append_dropWhile (p := Text.isSpaceOrTab) (l := separator)
  cases hrest : separator.dropWhile Text.isSpaceOrTab with
  | nil => rfl
  | cons c rest =>
    rw [hrest] at hsplit
    have hmem : ∀ x ∈ c :: rest, x ∈ separator := by
      intro x hx
      rw [← hsplit]
      exact List.mem_append_right _ hx
    have hhead : Text.isSpaceOrTab c = false := by
      have := List.head_dropWhile_not Text.isSpaceOrTab (l := separator) (by simp [hrest])
      simpa [hrest] using this
    obtain rfl : c = ',' := by
      rcases h.chars c (hmem c List.mem_cons_self) with hspace | hcomma
      · rw [hhead] at hspace
        cases hspace
      · exact hcomma
    -- The first comma is the only one, so that spaces and tabs are left.
    have hcount := h.comma
    rw [← hsplit, List.count_append, List.count_cons_self] at hcount
    have hno : ',' ∉ rest := List.count_eq_zero.mp (by omega)
    apply List.dropWhile_eq_nil_iff.mpr
    intro x hx
    rcases h.chars x (hmem x (List.mem_cons_of_mem _ hx)) with hspace | rfl
    · exact hspace
    · exact absurd hx hno

theorem rulesOf_writeRules {first : Text} {more : List (Text × Text)} (hfirst : IsIdentifier first)
    (hmore : ∀ rule ∈ more, Separates rule.1 ∧ IsIdentifier rule.2) :
    rulesOf (writeRules first more) = (first :: more.map Prod.snd, []) := by
  induction more generalizing first with
  | nil =>
    have htake : first.takeWhile Text.isWordChar = first :=
      List.takeWhile_eq_self_iff.mpr hfirst.wordChars
    have hdrop : first.dropWhile Text.isWordChar = [] :=
      List.dropWhile_eq_nil_iff.mpr hfirst.wordChars
    have hend : (rulesOf (Directive.afterSeparator [])).1 = [] := rfl
    have hwhole : writeRules first [] = first := List.append_nil first
    rw [hwhole, rulesOf_of_word (by rw [htake]; exact hfirst.ne_nil), htake, hdrop, if_pos hend]
    rfl
  | cons rule more ih =>
    obtain ⟨⟨hseparator, hword⟩, hmore⟩ := List.forall_mem_cons.mp hmore
    have hwhole : writeRules first (rule :: more) =
        first ++ (rule.1 ++ writeRules rule.2 more) := by
      simp [writeRules]
    have hhead := hseparator.head (writeRules rule.2 more)
    have htake : (writeRules first (rule :: more)).takeWhile Text.isWordChar = first := by
      rw [hwhole, Text.takeWhile_append_of_head first hhead]
      exact List.takeWhile_eq_self_iff.mpr hfirst.wordChars
    have hdrop : (writeRules first (rule :: more)).dropWhile Text.isWordChar =
        rule.1 ++ writeRules rule.2 more := by
      rw [hwhole, Text.dropWhile_append_of_head first hhead,
        List.dropWhile_eq_nil_iff.mpr hfirst.wordChars]
      rfl
    have hnext : ∀ c ∈ (writeRules rule.2 more).head?, Text.isWordChar c = true := hword.head _
    have hskip : Directive.afterSeparator (rule.1 ++ writeRules rule.2 more) =
        writeRules rule.2 more := by
      have hcomma : ∀ c ∈ (writeRules rule.2 more).head?, c ≠ ',' := by
        rintro c hc rfl
        exact absurd (hnext _ hc) (by decide)
      rw [afterSeparator_append rule.1 (fun c hc => Text.isSpaceOrTab_of_isWordChar (hnext c hc))
        hcomma, hseparator.afterSeparator]
      rfl
    rw [rulesOf_of_word (by rw [htake]; exact hfirst.ne_nil), htake, hdrop, hskip,
      ih hword hmore, if_neg (List.cons_ne_nil _ _)]
    rfl

theorem readModifier_written (m : Modifier) {rest : Text}
    (h : ∀ c ∈ rest.head?, Text.isSpaceOrTab c = true) :
    readModifier (m.written ++ rest) = (m, rest) := by
  cases m with
  | onward =>
    cases rest with
    | nil => rfl
    | cons c rest =>
      have hc := h c rfl
      simp only [Text.isSpaceOrTab, Bool.or_eq_true, beq_iff_eq] at hc
      rcases hc with rfl | rfl
      · rfl
      · rfl
  | next => rfl
  | this => rfl
  | previous => rfl

namespace Wording

variable (w : Wording) (d : Dialect)

theorem opened?_line :
    opened? d (w.line d) = some (w.modifier, w.space ++ writeRules w.first w.more) := by
  have hgap : ∀ c ∈ w.gap, Text.isBlank c = true :=
    fun c hc => Text.isBlank_of_isSpaceOrTab (w.gap_spaces c hc)
  have hspace : ∀ c ∈ (w.space ++ writeRules w.first w.more).head?,
      Text.isSpaceOrTab c = true :=
    Text.head_append_of_forall w.space_ne_nil w.space_spaces _
  have hkeyword (rest : Text) :
      ((Dialect.directivePrefix ++ ":disable".toList) ++ rest).dropWhile Text.isBlank =
        (Dialect.directivePrefix ++ ":disable".toList) ++ rest := rfl
  rw [opened?, line, after?_append, Option.bind_some, List.dropWhile_append_of_pos hgap, hkeyword,
    after?_append, Option.map_some, readModifier_written _ hspace]

theorem read?_line : read? d (w.line d) = some (w.modifier, w.rules, []) := by
  have hhead : ∀ c ∈ (writeRules w.first w.more).head?, Text.isSpaceOrTab c = false :=
    fun c hc => Text.isSpaceOrTab_of_isWordChar (w.first_identifier.head _ c hc)
  have htake := Text.takeWhile_append_of_head w.space hhead
  have hdrop := Text.dropWhile_append_of_head w.space hhead
  rw [List.takeWhile_eq_self_iff.mpr w.space_spaces] at htake
  rw [List.dropWhile_eq_nil_iff.mpr w.space_spaces, List.nil_append] at hdrop
  rw [read?_of_opened (w.opened?_line d) (by rw [htake]; exact w.space_ne_nil), hdrop,
    rulesOf_writeRules w.first_identifier w.more_separated, if_neg (List.cons_ne_nil _ _)]
  rfl

theorem line_no_break {d : Dialect} (h : ∀ c ∈ d.lineComment, ¬(c = '\r' ∨ c = '\n')) :
    ∀ c ∈ w.line d, ¬(c = '\r' ∨ c = '\n') := by
  have hkeyword : ∀ c ∈ Dialect.directivePrefix ++ ":disable".toList, ¬(c = '\r' ∨ c = '\n') :=
    Text.not_break_of_not_mem (by decide) (by decide)
  have hmodifier : ∀ c ∈ w.modifier.written, ¬(c = '\r' ∨ c = '\n') := by
    cases w.modifier with
    | onward => exact Text.not_break_of_not_mem (by decide) (by decide)
    | next => exact Text.not_break_of_not_mem (by decide) (by decide)
    | this => exact Text.not_break_of_not_mem (by decide) (by decide)
    | previous => exact Text.not_break_of_not_mem (by decide) (by decide)
  have hword {word : Text} (hword : IsIdentifier word) : ∀ c ∈ word, ¬(c = '\r' ∨ c = '\n') :=
    fun c hc => Text.not_break_of_isWordChar (hword.wordChars c hc)
  have hseparator {separator : Text} (hseparator : Separates separator) :
      ∀ c ∈ separator, ¬(c = '\r' ∨ c = '\n') := by
    intro c hc
    rcases hseparator.chars c hc with hspace | rfl
    · exact Text.not_break_of_isSpaceOrTab hspace
    · decide
  intro c hc
  simp only [line, writeRules, List.mem_append, List.mem_flatMap] at hc
  rcases hc with hc | hc | (hc | hc) | hc | hc | hc | ⟨rule, hrule, hc | hc⟩
  · exact h c hc
  · exact Text.not_break_of_isSpaceOrTab (w.gap_spaces c hc)
  · exact hkeyword c (List.mem_append_left _ hc)
  · exact hkeyword c (List.mem_append_right _ hc)
  · exact hmodifier c hc
  · exact Text.not_break_of_isSpaceOrTab (w.space_spaces c hc)
  · exact hword w.first_identifier c hc
  · exact hseparator (w.more_separated rule hrule).1 c hc
  · exact hword (w.more_separated rule hrule).2 c hc

theorem ofLineFrom_line {d : Dialect} (h : d.lineComment ≠ []) (line character : Nat) :
    ofLineFrom d line 0 character (w.line d) = [⟨line, character, w.rules, w.modifier⟩] := by
  have hread := w.read?_line d
  cases hline : w.line d with
  | nil => exact absurd (List.append_eq_nil_iff.mp hline).1 h
  | cons c rest =>
    rw [hline] at hread
    have hpassed := ofLineFrom_passed d line 0 (character + 1) rest []
    rw [List.append_nil] at hpassed
    rw [ofLineFrom, hread]
    exact congrArg (List.cons _) hpassed

/-- The directive is the first of the text, and the only one of its line. -/
theorem ofText_line {d : Dialect} (hopen : d.lineComment ≠ [])
    (hcomment : ∀ c ∈ d.lineComment, ¬(c = '\r' ∨ c = '\n')) {x : Char} (rest : Text)
    (hx : x = '\r' ∨ x = '\n') :
    ∃ more, ofText (w.line d ++ x :: rest) d =
      ⟨1, 1, w.rules, w.modifier⟩ :: ofLines d 2 more := by
  have hbreak := w.line_no_break hcomment
  have hstart : d.lineComment <+: w.line d := List.prefix_append _ _
  have hmask : ∃ masked, mask (w.line d ++ x :: rest) d false = w.line d ++ x :: masked := by
    have hshown : (w.line d).map (Mask.shown false .lineComment) = w.line d := List.map_id _
    rw [mask, Mask.scan_comment_line false (x :: rest) hopen hstart
      fun c hc hn => hbreak c hc (Or.inr hn), hshown, Mask.scan, Mask.shown_break _ _ hx]
    exact ⟨_, rfl⟩
  obtain ⟨masked, hmask⟩ := hmask
  obtain ⟨more, hlines⟩ := Text.splitLines_append_break masked hbreak hx
  refine ⟨more, ?_⟩
  rw [ofText, hmask, hlines, ofLines, w.ofLineFrom_line hopen]
  rfl

end Wording

/-- A directive at the start of a text leaves a rule disabled at the places of its lines, if it
names the rule. -/
theorem leaveEnabled_of_start {rules : List Text} {m : Modifier} (rule : Text) {l : Location}
    {line character : Nat} (hline : l.line = some line) (hcharacter : l.character = some character) :
    leaveEnabled [⟨1, 1, rules, m⟩] rule l = false ↔
      (rule ∈ rules ∨ allRules ∈ rules) ∧ m.FromFirst line := by
  have hl := l.one_le_line line hline
  have hc := l.one_le_character character hcharacter
  have happlies : appliesTo ⟨1, 1, rules, m⟩ rule = true ↔ rule ∈ rules ∨ allRules ∈ rules := by
    simp only [appliesTo, Bool.or_eq_true, decide_eq_true_eq, or_comm]
  have hcovers : covers ⟨1, 1, rules, m⟩ l = true ↔
      m.FromFirst line := by
    cases m with
    | onward =>
      simp only [covers, hline, hcharacter, Modifier.FromFirst, Option.getD_some, Bool.or_eq_true,
        Bool.and_eq_true, decide_eq_true_eq, beq_iff_eq, iff_true]
      omega
    | next => simp [covers, hline, Modifier.FromFirst]
    | this => simp [covers, hline, Modifier.FromFirst]
    | previous =>
      simp only [covers, hline, Modifier.FromFirst, beq_iff_eq, iff_false]
      omega
  rw [← happlies, ← hcovers, ← Bool.and_eq_true]
  simp [leaveEnabled]

/-- A directive written into the first line of a text is the only one read from the line, and
it disables the rules that it names on the lines that its modifier stands for. -/
theorem ofText_reads_written {d : Dialect} (known : d ∈ Dialect.known) (w : Wording) {ending : Text}
    (hending : ending ∈ ["\n".toList, "\r".toList, "\r\n".toList]) (text : Text) :
    ∃ later, ofText (w.line d ++ ending ++ text) d = ⟨1, 1, w.rules, w.modifier⟩ :: later ∧
      (∀ found ∈ later, 1 < found.line) ∧
      ∀ (rule : Text) (file : Option Text) (line character : Nat) (hline : 1 ≤ line)
        (hcharacter : 1 ≤ character),
        leaveEnabled [⟨1, 1, w.rules, w.modifier⟩] rule (.point file line character) = false ↔
          (rule ∈ w.rules ∨ allRules ∈ w.rules) ∧ w.modifier.FromFirst line := by
  have visible := Mask.visible_of_known known
  have hcomment : ∀ c ∈ d.lineComment, ¬(c = '\r' ∨ c = '\n') :=
    fun c hc hbreak => (visible.alien c (Or.inr hbreak)).lineComment hc
  obtain ⟨x, rest, hrest, hx⟩ : ∃ x rest, ending ++ text = x :: rest ∧ (x = '\r' ∨ x = '\n') := by
    simp only [List.mem_cons, List.not_mem_nil, or_false] at hending
    rcases hending with rfl | rfl | rfl
    · exact ⟨_, _, rfl, Or.inr rfl⟩
    · exact ⟨_, _, rfl, Or.inl rfl⟩
    · exact ⟨_, _, rfl, Or.inl rfl⟩
  obtain ⟨more, hmore⟩ := w.ofText_line visible.lineComment hcomment rest hx
  refine ⟨ofLines d 2 more, ?_, fun found hfound => (mem_ofLines hfound).1, ?_⟩
  · rw [List.append_assoc, hrest, hmore]
  · intro rule file line character hline hcharacter
    exact leaveEnabled_of_start rule rfl rfl

/-- A directive whose identifiers look like other parts of a directive. -/
def Wording.confusing : Wording where
  gap := "\t".toList
  modifier := .next
  space := "  ".toList
  first := "next".toList
  more := [(" ,\t".toList, "lintcheck".toList), (",".toList, "disable".toList)]
  gap_spaces := List.all_eq_true.mp (by decide)
  space_ne_nil := by decide
  space_spaces := List.all_eq_true.mp (by decide)
  first_identifier := ⟨by decide, List.all_eq_true.mp (by decide)⟩
  more_separated := by
    intro rule hrule
    simp only [List.mem_cons, List.not_mem_nil, or_false] at hrule
    rcases hrule with rfl | rfl
    · exact ⟨⟨by decide, by simp [Text.isSpaceOrTab], by decide⟩, by decide,
        List.all_eq_true.mp (by decide)⟩
    · exact ⟨⟨by decide, by simp, by decide⟩, by decide, List.all_eq_true.mp (by decide)⟩

theorem ofText_reads_written_confusing :
    let text := "//\tlintcheck:disable:next  next ,\tlintcheck,disable\rlet x = \"*/".toList
    ∃ later, ofText text .swift =
        ⟨1, 1, ["next".toList, "lintcheck".toList, "disable".toList], .next⟩ :: later ∧
      (∀ found ∈ later, 1 < found.line) ∧
      leaveEnabled [⟨1, 1, Wording.confusing.rules, .next⟩] "lintcheck".toList
        (.point none 2 7) = false := by
  intro text
  obtain ⟨later, hread, hlater, hdisabled⟩ := @ofText_reads_written .swift
    (List.mem_cons_of_mem _ List.mem_cons_self) Wording.confusing "\r".toList
    (List.mem_cons_of_mem _ List.mem_cons_self) "let x = \"*/".toList
  refine ⟨later, hread, hlater, ?_⟩
  exact (hdisabled "lintcheck".toList none 2 7 (by decide) (by decide)).mpr
    ⟨Or.inl (by decide), rfl⟩

end Directive

end StyleRules
