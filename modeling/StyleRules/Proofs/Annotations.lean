import StyleRules.Proofs.LinePlaces
import StyleRules.Proofs.RenderedMarkers

namespace StyleRules

namespace Location

theorem atMost_point {file : Option Text} {a b c d : Nat} (ha : 1 ≤ a) (hb : 1 ≤ b) (hc : 1 ≤ c)
    (hd : 1 ≤ d) :
    (point file a c).atMost (.point file b d) ↔ a < b ∨ (a = b ∧ c ≤ d) := by
  rw [atMost, compare_point, bne_iff_ne, ne_eq, Ordering.then_eq_gt, Nat.compare_eq_gt,
    Std.compare_eq_iff_eq, Nat.compare_eq_gt]
  omega

end Location

namespace Text

theorem length_segments_le (text : Text) :
    text.segments.length ≤ text.splitLines.length + 1 := by
  unfold splitLines
  dsimp only
  split
  next => rw [List.length_dropLast]; omega
  next => omega

theorem getLast?_segments {text : Text} (h : text.splitLines.length < text.segments.length) :
    text.segments.getLast? = some [] := by
  unfold splitLines at h
  dsimp only at h
  split at h
  next hlast => exact hlast.2
  next => omega

end Text

namespace LineIndex

variable {text : Text} {offset : Nat}

theorem length_startsUpTo_le (text : Text) (offset : Nat) :
    (startsUpTo text offset).length ≤ text.splitLines.length + 1 := by
  have hinitial : startsUpTo text offset <+: (ofText text).starts := List.takeWhile_prefix _
  have hle := hinitial.length_le
  have hsegments := Text.length_segments 0 text
  have hlines := Text.length_segments_le text
  rw [ofText, List.length_cons] at hle
  omega

/-- Only the end of a text can be in no line of it, behind the last break. -/
theorem eq_length_of_startsUpTo (h : offset ≤ text.length)
    (hbehind : (startsUpTo text offset).length = text.splitLines.length + 1) :
    offset = text.length := by
  have hinitial : startsUpTo text offset <+: (ofText text).starts := List.takeWhile_prefix _
  have hcount := Text.length_segments 0 text
  have hlines := Text.length_segments_le text
  have hle := hinitial.length_le
  rw [ofText, List.length_cons] at hle
  have hall : startsUpTo text offset = 0 :: text.breakEnds 0 :=
    hinitial.eq_of_length (by rw [ofText, List.length_cons]; omega)
  have hlast := @Text.getLast?_segments text (by omega)
  obtain ⟨early, hearly⟩ := List.getLast?_eq_some_iff.mp hlast
  have hend := Text.length_last_segment 0 hearly
  have hstart := startsUpTo_getLastD_le text offset
  rw [hall, List.getLastD_cons] at hstart
  rw [List.length_nil] at hend
  omega

end LineIndex

namespace SourceFile

/-- What comes from an offset has no place, or is in one of the lines of the text, or is the end of
the text behind its last line. -/
theorem place_cases (f : SourceFile) (o : Int) :
    place f.identifier (.ofText f.contents) o = { file := f.identifier } ∨
      ∃ line character, place f.identifier (.ofText f.contents) o =
          .point f.identifier (line + 1) (character + 1) ∧
        (line < f.contents.splitLines.length ∨ (line = f.contents.splitLines.length ∧
          place f.identifier (.ofText f.contents) o = f.locate f.contents.length)) := by
  by_cases hout : o < 0 ∨ (f.contents.length : Int) < o
  · left
    exact place_of_position?_eq_none (LineIndex.position?_eq_none_iff.mpr hout)
  · right
    obtain ⟨offset, rfl⟩ : ∃ n : Nat, o = n := ⟨o.toNat, by omega⟩
    have hoffset : offset ≤ f.contents.length := by omega
    have hplace := locate_eq (f := f) (LineIndex.position?_eq hoffset)
    have hpos := List.length_pos_iff.mpr (LineIndex.startsUpTo_ne_nil f.contents offset)
    have hle := LineIndex.length_startsUpTo_le f.contents offset
    refine ⟨(LineIndex.startsUpTo f.contents offset).length - 1,
      offset - (LineIndex.startsUpTo f.contents offset).getLastD 0, ?_, ?_⟩
    · exact hplace.trans
        (Location.ext rfl (congrArg some (Nat.sub_add_cancel hpos).symm) rfl)
    · by_cases hbehind :
        (LineIndex.startsUpTo f.contents offset).length = f.contents.splitLines.length + 1
      · right
        have hend := LineIndex.eq_length_of_startsUpTo hoffset hbehind
        exact ⟨by omega, by rw [hend]; rfl⟩
      · left
        omega

end SourceFile

namespace Render

/-- The number of the line that a diagnostic is about. -/
def lineOf (d : Diagnostic) : Nat := d.location.line.getD 0

/-- The number of the character that a diagnostic is about. -/
def columnOf (d : Diagnostic) : Nat := d.location.character.getD 1

/-- A caret below the character that a diagnostic is about, and what it says. -/
def pointer (d : Diagnostic) : Text :=
  List.replicate (columnOf d - 1) ' ' ++ '^' :: ' ' :: d.headline

/-- A line of a text with the diagnostics shown below it. -/
structure Row where
  line : Text
  below : List Diagnostic

namespace Row

def lines (r : Row) : List Text := r.line :: r.below.map pointer

/-- Shows a diagnostic right below the line. -/
def add (d : Diagnostic) (r : Row) : Row := { r with below := d :: r.below }

end Row

/-- The lines of a text with the diagnostics shown below each of them and behind all of them. -/
structure Sheet where
  rows : List Row
  behind : List Diagnostic

namespace Sheet

def lines (s : Sheet) : List Text := s.rows.flatMap (·.lines) ++ s.behind.map pointer

/-- The sheet shows these diagnostics in the text of a file, each once; those behind the last break
of the text come behind all lines. -/
structure Shows (s : Sheet) (f : SourceFile) (ds : List Diagnostic) : Prop where
  source : s.rows.map (·.line) = f.contents.splitLines
  each : (s.rows.flatMap (·.below) ++ s.behind).Perm ds
  below : ∀ i r, s.rows[i]? = some r → ∀ d ∈ r.below, d.location.line = some (i + 1)
  ascending : ∀ r ∈ s.rows, r.below.Pairwise (columnOf · ≤ columnOf ·)
  behind : ∀ d ∈ s.behind, d.location = f.locate f.contents.length ∧
    d.location.line = some (f.contents.splitLines.length + 1)

section Insertion

variable {early late : List Row} {r : Row} {behind : List Diagnostic}

theorem flatMap_lines (free : ∀ r ∈ early, r.below = []) :
    early.flatMap (·.lines) = early.map (·.line) := by
  induction early with
  | nil => rfl
  | cons r early ih =>
    obtain ⟨hr, hfree⟩ := List.forall_mem_cons.mp free
    rw [List.flatMap_cons, ih hfree, Row.lines, hr]
    rfl

theorem insertLine_append {early late : List Text} {n : Nat} (hn : early.length = n)
    (line : Text) : insertLine (early ++ late) n line = early ++ line :: late := by
  rw [insertLine, ← hn, List.take_left, List.drop_left]

/-- Where nothing is shown below the lines before it, a line is found by its number. -/
theorem insertLine_lines (free : ∀ r ∈ early, r.below = []) (d : Diagnostic) :
    insertLine (lines ⟨early ++ r :: late, behind⟩) (early.length + 1) (pointer d) =
      lines ⟨early ++ r.add d :: late, behind⟩ := by
  have hsplit : lines ⟨early ++ r :: late, behind⟩ = (early.map (·.line) ++ [r.line]) ++
      (r.below.map pointer ++ late.flatMap (·.lines) ++ behind.map pointer) := by
    simp only [lines, List.flatMap_append, List.flatMap_cons, flatMap_lines free]
    simp [Row.lines]
  rw [hsplit, insertLine_append (by simp)]
  simp only [lines, List.flatMap_append, List.flatMap_cons, flatMap_lines free]
  simp [Row.lines, Row.add]

theorem insertLine_behind (free : ∀ r ∈ early, r.below = []) (d : Diagnostic) :
    insertLine (lines ⟨early, behind⟩) (early.length + 1) (pointer d) =
      lines ⟨early, behind.take 1 ++ d :: behind.drop 1⟩ := by
  simp only [lines, flatMap_lines free]
  cases behind with
  | nil =>
    rw [insertLine, List.take_of_length_le (by simp), List.drop_of_length_le (by simp)]
    simp
  | cons first rest =>
    have hsplit : early.map (·.line) ++ (first :: rest).map pointer =
        (early.map (·.line) ++ [pointer first]) ++ rest.map pointer := by
      simp
    rw [hsplit, insertLine_append (by simp)]
    simp

end Insertion

variable {s : Sheet} {f : SourceFile} {ds : List Diagnostic} {d : Diagnostic}

theorem Shows.mem_of_below (h : s.Shows f ds) {r : Row} (hr : r ∈ s.rows) (hd : d ∈ r.below) :
    d ∈ ds :=
  h.each.mem_iff.mp (List.mem_append_left _ (List.mem_flatMap.mpr ⟨r, hr, hd⟩))

/-- Below the lines before the first diagnostic nothing is shown. -/
theorem Shows.free (h : s.Shows f ds) {n : Nat} (first : ∀ e ∈ ds, n < lineOf e) :
    ∀ r ∈ s.rows.take n, r.below = [] := by
  intro r hr
  obtain ⟨i, hi⟩ := List.mem_iff_getElem?.mp hr
  rw [List.getElem?_take] at hi
  split at hi
  next hlt =>
    apply List.eq_nil_iff_forall_not_mem.mpr
    intro e he
    have hline := h.below i r hi e he
    have hfirst := first e (h.mem_of_below (List.mem_of_getElem? hi) he)
    rw [lineOf, hline, Option.getD_some] at hfirst
    omega
  next => cases hi

theorem getElem?_exchange {early late : List Row} (r : Row) {r' q : Row} {i : Nat}
    (h : (early ++ r' :: late)[i]? = some q) :
    (i = early.length ∧ q = r') ∨ (early ++ r :: late)[i]? = some q := by
  by_cases hi : i = early.length
  · subst hi
    rw [List.getElem?_append_right (Nat.le_refl _), Nat.sub_self] at h
    exact Or.inl ⟨rfl, (Option.some.inj h).symm⟩
  · right
    rw [← h]
    rcases Nat.lt_or_gt_of_ne hi with hlow | hhigh
    · rw [List.getElem?_append_left hlow, List.getElem?_append_left hlow]
    · obtain ⟨k, rfl⟩ : ∃ k, i = early.length + (k + 1) := ⟨i - early.length - 1, by omega⟩
      rw [List.getElem?_append_right (by omega), List.getElem?_append_right (by omega),
        Nat.add_sub_cancel_left]
      rfl

/-- One more diagnostic is shown right below its line, if it stands before all others. -/
theorem Shows.add (h : s.Shows f ds) {line : Nat} (hline : d.location.line = some (line + 1))
    (hlt : line < f.contents.splitLines.length)
    (first : ∀ e ∈ ds, line + 1 < lineOf e ∨ (line + 1 = lineOf e ∧ columnOf d ≤ columnOf e)) :
    ∃ s' : Sheet, insertLine s.lines (line + 1) (pointer d) = s'.lines ∧ s'.Shows f (d :: ds) := by
  obtain ⟨rows, behind⟩ := s
  have hfree := h.free (n := line) fun e he => by
    have := first e he
    omega
  have hlength : line < rows.length := by
    have hsource := congrArg List.length h.source
    rw [List.length_map] at hsource
    dsimp only at hsource
    omega
  obtain ⟨early, r, late, hrows, hearly⟩ : ∃ early r late, rows = early ++ r :: late ∧
      early.length = line :=
    ⟨rows.take line, rows[line], rows.drop (line + 1), by simp, by simp; omega⟩
  dsimp only at hfree
  subst hrows hearly
  rw [List.take_left] at hfree
  have hr : (early ++ r :: late)[early.length]? = some r := by simp
  have hbelow := h.below _ r hr
  have hfirst : ∀ e ∈ r.below, columnOf d ≤ columnOf e := by
    intro e he
    have hat := first e (h.mem_of_below (List.mem_of_getElem? hr) he)
    rw [lineOf, hbelow e he, Option.getD_some] at hat
    omega
  refine ⟨⟨early ++ r.add d :: late, behind⟩, insertLine_lines hfree d, ?_, ?_, ?_, ?_, h.behind⟩
  · rw [← h.source]
    simp [Row.add]
  · have heach := h.each
    simp only [List.flatMap_append, List.flatMap_cons, Row.add, List.append_assoc,
      List.cons_append] at heach ⊢
    exact List.perm_middle.trans (heach.cons d)
  · intro i q hq e he
    rcases getElem?_exchange r hq with ⟨rfl, rfl⟩ | hq
    · rcases List.mem_cons.mp he with rfl | he
      · exact hline
      · exact hbelow e he
    · exact h.below i q hq e he
  · intro q hq
    obtain ⟨i, hi⟩ := List.mem_iff_getElem?.mp hq
    rcases getElem?_exchange r hi with ⟨-, rfl⟩ | hi
    · exact List.pairwise_cons.mpr ⟨hfirst, h.ascending r (List.mem_of_getElem? hr)⟩
    · exact h.ascending q (List.mem_of_getElem? hi)

/-- One more diagnostic is shown behind all lines, if nothing is shown below any of them. -/
theorem Shows.addBehind (h : s.Shows f ds) (hd : d.location = f.locate f.contents.length)
    (hline : d.location.line = some (f.contents.splitLines.length + 1))
    (first : ∀ e ∈ ds, f.contents.splitLines.length < lineOf e) :
    ∃ s' : Sheet, insertLine s.lines (f.contents.splitLines.length + 1) (pointer d) = s'.lines ∧
      s'.Shows f (d :: ds) := by
  obtain ⟨rows, behind⟩ := s
  have hlength : rows.length = f.contents.splitLines.length := by
    have hsource := congrArg List.length h.source
    rwa [List.length_map] at hsource
  have hfree := h.free first
  rw [← hlength] at hfree ⊢
  dsimp only at hfree
  rw [List.take_length] at hfree
  refine ⟨_, insertLine_behind hfree d, h.source, ?_, h.below, h.ascending, ?_⟩
  · have hmiddle : (behind.take 1 ++ d :: behind.drop 1).Perm (d :: behind) := by
      have := @List.perm_middle _ d (behind.take 1) (behind.drop 1)
      rwa [List.take_append_drop] at this
    exact ((hmiddle.append_left _).trans List.perm_middle).trans (h.each.cons d)
  · intro e he
    rcases List.mem_append.mp he with he | he
    · exact h.behind e (List.mem_of_mem_take he)
    · rcases List.mem_cons.mp he with rfl | he
      · exact ⟨hd, hline⟩
      · exact h.behind e (List.mem_of_mem_drop he)

/-- Lines with nothing shown below them. -/
def blank (lines : List Text) : Sheet := ⟨lines.map fun line => ⟨line, []⟩, []⟩

end Sheet

section Runs

variable {f : SourceFile} {ds : List Diagnostic} {d : Diagnostic}

/-- The diagnostic is where an offset of the text of a file is. -/
def ComesFrom (f : SourceFile) (d : Diagnostic) : Prop :=
  ∃ o : Int, d.location = SourceFile.place f.identifier (.ofText f.contents) o

theorem ComesFrom.cases (h : ComesFrom f d) : d.location = { file := f.identifier } ∨
    ∃ line character, d.location = .point f.identifier (line + 1) (character + 1) ∧
      (line < f.contents.splitLines.length ∨ (line = f.contents.splitLines.length ∧
        d.location = f.locate f.contents.length)) := by
  obtain ⟨o, ho⟩ := h
  rw [ho]
  exact SourceFile.place_cases f o

/-- One more diagnostic with a place is shown, if it stands before all others. -/
theorem Sheet.Shows.step {s : Sheet} (h : s.Shows f ds) (comes : ComesFrom f d)
    (hd : d.location.isResolved = true)
    (placed : ∀ e ∈ ds, ComesFrom f e ∧ e.location.isResolved = true)
    (first : ∀ e ∈ ds, d.location.atMost e.location) :
    ∃ line character, d.location.line = some line ∧ d.location.character = some character ∧
      ∃ s' : Sheet, insertLine s.lines line (caretLine character d) = s'.lines ∧
        s'.Shows f (d :: ds) := by
  rcases comes.cases with hnone | ⟨line, character, hplace, hwhere⟩
  · rw [hnone] at hd
    cases hd
  · have hcaret : caretLine (character + 1) d = pointer d := by
      rw [pointer, columnOf, hplace, caretLine, List.append_assoc]
      rfl
    have hfirst : ∀ e ∈ ds,
        line + 1 < lineOf e ∨ (line + 1 = lineOf e ∧ columnOf d ≤ columnOf e) := by
      intro e he
      obtain ⟨hcomes, hresolved⟩ := placed e he
      have hle := first e he
      rcases hcomes.cases with hnone | ⟨m, k, hm, -⟩
      · rw [hnone] at hresolved
        cases hresolved
      · rw [hplace, hm] at hle
        rw [lineOf, columnOf, columnOf, hplace, hm]
        exact (Location.atMost_point _ _ _ _).mp hle
    have hline : d.location.line = some (line + 1) := by
      rw [hplace]
      rfl
    have hcharacter : d.location.character = some (character + 1) := by
      rw [hplace]
      rfl
    refine ⟨line + 1, character + 1, hline, hcharacter, ?_⟩
    rw [hcaret]
    rcases hwhere with hlt | ⟨rfl, hend⟩
    · exact h.add hline hlt hfirst
    · refine h.addBehind hend hline fun e he => ?_
      have := hfirst e he
      omega

end Runs

end Render

end StyleRules
