import StyleRules.Proofs.Declarations
import StyleRules.Proofs.Remasking

namespace StyleRules

namespace Text

variable {needle : Text}

/-- The needle starts nowhere in a text that another one follows. -/
def Free (needle : Text) : Text → Text → Prop
  | [], _ => True
  | c :: inner, rest => startsWith needle (c :: (inner ++ rest)) = false ∧ Free needle inner rest

theorem free_append {first second rest : Text} (hfirst : Free needle first (second ++ rest))
    (hsecond : Free needle second rest) : Free needle (first ++ second) rest := by
  induction first with
  | nil => exact hsecond
  | cons c first ih =>
    refine ⟨?_, ih hfirst.2⟩
    rw [List.append_eq, List.append_assoc]
    exact hfirst.1

theorem free_of_not_mem {inner : Text} (hne : needle ≠ []) (h : ∀ x ∈ inner, x ∉ needle)
    (rest : Text) : Free needle inner rest := by
  induction inner with
  | nil => trivial
  | cons c inner ih =>
    obtain ⟨hc, hinner⟩ := List.forall_mem_cons.mp h
    exact ⟨startsWith_of_not_mem _ hne hc, ih hinner⟩

/-- A needle that is not in a text does not start in it, if what follows is foreign to it. -/
theorem free_of_not_infix {inner rest : Text} (h : ¬needle <:+: inner)
    (hforeign : Foreign needle rest) : Free needle inner rest := by
  induction inner with
  | nil => trivial
  | cons c inner ih =>
    rw [List.infix_cons_iff, not_or] at h
    refine ⟨?_, ih h.2⟩
    rw [← List.cons_append, startsWith_append_of_foreign _ hforeign]
    exact Bool.eq_false_iff.mpr fun hs => h.1 (List.isPrefixOf_iff_prefix.mp hs)

theorem Free.not_infix {inner rest : Text} (hne : needle ≠ []) (h : Free needle inner rest) :
    ¬needle <:+: inner := by
  induction inner with
  | nil => rwa [List.infix_nil]
  | cons c inner ih =>
    rw [List.infix_cons_iff, not_or]
    refine ⟨fun hstart => ?_, ih h.2⟩
    have hs : startsWith needle (c :: (inner ++ rest)) = true :=
      List.isPrefixOf_iff_prefix.mpr (hstart.trans (List.prefix_append (c :: inner) rest))
    rw [h.1] at hs
    cases hs

/-- What stands behind a needle does not tell where it starts. -/
theorem Free.extend {inner rest : Text} (h : Free needle inner (needle ++ rest)) (more : Text) :
    Free needle inner (needle ++ (rest ++ more)) := by
  induction inner with
  | nil => trivial
  | cons c inner ih =>
    refine ⟨?_, ih h.2⟩
    apply Bool.eq_false_iff.mpr
    intro hs
    have hstart : needle <+: c :: (inner ++ (needle ++ rest)) := by
      apply List.prefix_of_prefix_length_le (List.isPrefixOf_iff_prefix.mp hs)
      · exact ⟨more, by simp⟩
      · simp only [List.length_cons, List.length_append]
        omega
    have hs' : startsWith needle (c :: (inner ++ (needle ++ rest))) = true :=
      List.isPrefixOf_iff_prefix.mpr hstart
    rw [h.1] at hs'
    cases hs'

/-- A text has a first place at which a needle stands in it, or none. -/
theorem not_infix_or_first (needle text : Text) : ¬needle <:+: text ∨
    ∃ inner outer, text = inner ++ (needle ++ outer) ∧ Free needle inner (needle ++ outer) := by
  induction text with
  | nil =>
    by_cases hne : needle = []
    · exact Or.inr ⟨[], [], by rw [hne]; rfl, trivial⟩
    · exact Or.inl (by rwa [List.infix_nil])
  | cons c text ih =>
    cases hs : startsWith needle (c :: text) with
    | true =>
      obtain ⟨outer, houter⟩ := exists_of_startsWith hs
      exact Or.inr ⟨[], outer, houter, trivial⟩
    | false =>
      rcases ih with hnone | ⟨inner, outer, rfl, hfree⟩
      · left
        rw [List.infix_cons_iff, not_or]
        refine ⟨fun hstart => ?_, hnone⟩
        rw [startsWith, List.isPrefixOf_iff_prefix.mpr hstart] at hs
        cases hs
      · exact Or.inr ⟨c :: inner, outer, rfl, hs, hfree⟩

theorem not_mem_of_mem_splitOn {c : Char} {text piece : Text} (h : piece ∈ splitOn c text) :
    c ∉ piece := by
  induction text generalizing piece with
  | nil =>
    rw [List.mem_singleton.mp h]
    exact List.not_mem_nil
  | cons x rest ih =>
    rw [splitOn] at h
    split at h
    next =>
      rcases List.mem_cons.mp h with rfl | h
      · exact List.not_mem_nil
      · exact ih h
    next hx =>
      split at h
      next first pieces hpieces =>
        rw [hpieces] at ih
        rcases List.mem_cons.mp h with rfl | h
        · exact fun hc => (List.mem_cons.mp hc).elim (Ne.symm hx) (ih List.mem_cons_self)
        · exact ih (List.mem_cons_of_mem _ h)
      next =>
        rw [List.mem_singleton.mp h]
        exact fun hc => hx (List.mem_singleton.mp hc).symm

end Text

/-- A line of a text that is commented out line by line. -/
def Dialect.commentLine (d : Dialect) (line : Text) : Text :=
  if line = [] then d.lineComment else d.lineComment ++ ' ' :: line

theorem Dialect.commentOut_of_none {d : Dialect} (h : d.blockComment = none) (text : Text) :
    d.commentOut text = Text.join ['\n'] ((Text.splitOn '\n' text).map d.commentLine) := by
  simp only [commentOut, h]
  rfl

theorem Dialect.commentOut_of_some {d : Dialect} {opening closing : Text}
    (h : d.blockComment = some (opening, closing)) (text : Text) :
    d.commentOut text = opening ++ ("\n  ".toList ++ (text ++ ("\n ".toList ++ closing))) := by
  simp only [commentOut, h, List.append_assoc]

namespace Mask

variable {d : Dialect} {opening closing : Text}

theorem blanked_of_mem_map {text : Text} {c : Char} (h : c ∈ text.map blank) : Blanked c := by
  obtain ⟨x, -, rfl⟩ := List.mem_map.mp h
  exact blanked_blank x

theorem scan_commentLine (h : d.Visible) {line : Text} (hline : '\n' ∉ line) (rest : Text) :
    scan d true .code (d.commentLine line ++ rest) =
      (d.commentLine line).map blank ++ scan d true .lineComment rest := by
  have hcomment := (h.alien '\n' (Or.inr (Or.inr rfl))).lineComment
  have hstart : d.lineComment <+: d.commentLine line := by
    unfold Dialect.commentLine
    split
    next => exact List.prefix_refl _
    next => exact List.prefix_append _ _
  have hbreak : ∀ c ∈ d.commentLine line, c ≠ '\n' := by
    rintro c hc rfl
    unfold Dialect.commentLine at hc
    split at hc
    next => exact hcomment hc
    next =>
      rcases List.mem_append.mp hc with hc | hc
      · exact hcomment hc
      · exact hline ((List.mem_cons.mp hc).resolve_left (by decide))
  exact scan_comment_line true rest h.lineComment hstart hbreak

theorem scan_join_commentLine (h : d.Visible) {lines : List Text}
    (hlines : ∀ line ∈ lines, '\n' ∉ line) :
    scan d true .code (Text.join ['\n'] (lines.map d.commentLine)) =
      (Text.join ['\n'] (lines.map d.commentLine)).map blank := by
  induction lines with
  | nil => rfl
  | cons line lines ih =>
    obtain ⟨hline, hmore⟩ := List.forall_mem_cons.mp hlines
    cases lines with
    | nil =>
      have hlast := scan_commentLine h hline []
      rw [List.append_nil] at hlast
      exact hlast.trans (List.append_nil _)
    | cons next lines =>
      have hbreak (rest : Text) : scan d true .lineComment ('\n' :: rest) =
          blank '\n' :: scan d true .code rest := by
        have henter : enter d .lineComment '\n' rest = .code :=
          opens_of_blanked h (Or.inr (Or.inr rfl)) rest
        rw [scan, henter]
        rfl
      have hjoin : Text.join ['\n'] ((line :: next :: lines).map d.commentLine) =
          d.commentLine line ++ '\n' :: Text.join ['\n'] ((next :: lines).map d.commentLine) := by
        simp [Text.join]
      rw [hjoin, scan_commentLine h hline, hbreak, ih hmore, List.map_append]
      rfl

theorem mask_commentOut_lines (h : d.Visible) (hnone : d.blockComment = none) (text : Text) :
    mask (d.commentOut text) d = (d.commentOut text).map blank := by
  rw [Dialect.commentOut_of_none hnone]
  exact scan_join_commentLine h fun line hline => Text.not_mem_of_mem_splitOn hline

/-- A block comment goes on where no delimiter that closes it starts. -/
theorem scan_blockComment_free (hblock : d.blockComment = some (opening, closing))
    {inner rest : Text} (h : Text.Free closing inner rest) :
    scan d true (.blockComment 0) (inner ++ rest) =
      inner.map blank ++ scan d true (.blockComment 0) rest := by
  induction inner with
  | nil => rfl
  | cons c inner ih =>
    have henter : enter d (.blockComment 0) c (inner ++ rest) = .blockComment 0 := by
      simp only [enter, hblock, if_neg (Bool.eq_false_iff.mp h.1)]
    rw [List.cons_append, scan, henter]
    simp only [leave, ih h.2, List.map_cons, List.cons_append]
    rfl

/-- A block comment is hidden up to the first delimiter that closes it, and code follows it. -/
theorem mask_blockComment (hd : d.Delimited) (hblock : d.blockComment = some (opening, closing))
    {inner rest : Text} (hfree : Text.Free closing inner (closing ++ rest))
    (hline : Text.startsWith d.lineComment (opening ++ (inner ++ (closing ++ rest))) = false) :
    mask (opening ++ (inner ++ (closing ++ rest))) d =
      (opening ++ (inner ++ closing)).map blank ++ mask rest d := by
  obtain ⟨-, hclosing⟩ : opening ≠ [] ∧ closing ≠ [] := hd.blockComment _ hblock
  have hopening := @scan_opening d true opening closing hd hblock _ hline
  rw [scan_blockComment_free hblock hfree, scan_closing hblock hclosing] at hopening
  rw [mask, hopening, List.map_append, List.map_append, List.append_assoc, List.append_assoc]
  rfl

theorem startsWith_opening_newline (h : d.Visible)
    (hline : Text.startsWith d.lineComment opening = false) (after : Text) :
    Text.startsWith d.lineComment (opening ++ '\n' :: after) = false := by
  have hnewline := (h.alien '\n' (Or.inr (Or.inr rfl))).lineComment
  rw [Text.startsWith_append_of_foreign opening (Text.foreign_cons after hnewline), hline]

section Block

variable (h : d.Visible) (hblock : d.blockComment = some (opening, closing))

include h hblock

theorem not_mem_closing {x : Char} (hx : Blanked x) : x ∉ closing :=
  ((h.alien x hx).blockComment _ hblock).2

theorem free_gap {gap : Text} (hgap : ∀ x ∈ gap, Blanked x) (rest : Text) :
    Text.Free closing gap rest :=
  Text.free_of_not_mem (h.blockComment _ hblock).2
    (fun x hx => not_mem_closing h hblock (hgap x hx)) rest

/-- A text without the delimiter that closes a block comment is hidden. -/
theorem mask_commentOut_of_not_infix (hline : Text.startsWith d.lineComment opening = false)
    {text : Text} (habsent : ¬closing <:+: text) :
    mask (d.commentOut text) d = (d.commentOut text).map blank := by
  have hnewline := not_mem_closing h hblock (Or.inr (Or.inr rfl))
  -- The line feed between the text and the delimiter that closes the comment keeps them apart.
  have hfree : Text.Free closing ("\n  ".toList ++ (text ++ "\n ".toList)) (closing ++ []) := by
    apply Text.free_append (free_gap h hblock (by simp [Blanked]) _)
    apply Text.free_append _ (free_gap h hblock (by simp [Blanked]) _)
    exact Text.free_of_not_infix habsent (Text.foreign_cons _ hnewline)
  have hmask := mask_blockComment h.delimited hblock hfree (startsWith_opening_newline h hline _)
  have hnil : mask [] d = [] := rfl
  rw [hnil, List.append_nil, List.append_nil, List.append_assoc, List.append_assoc] at hmask
  rw [Dialect.commentOut_of_some hblock, hmask]

theorem mask_commentOut_of_first (hline : Text.startsWith d.lineComment opening = false)
    {inner outer : Text} (hfirst : Text.Free closing inner (closing ++ outer)) :
    mask (d.commentOut (inner ++ (closing ++ outer))) d =
      (opening ++ ("\n  ".toList ++ (inner ++ closing))).map blank ++
        mask (outer ++ ("\n ".toList ++ closing)) d := by
  -- What the wrapping puts behind the text does not move the first delimiter in it.
  have hfree : Text.Free closing ("\n  ".toList ++ inner)
      (closing ++ (outer ++ ("\n ".toList ++ closing))) :=
    Text.free_append (free_gap h hblock (by simp [Blanked]) _) (hfirst.extend _)
  have hmask := mask_blockComment h.delimited hblock hfree (startsWith_opening_newline h hline _)
  rw [List.append_assoc, List.append_assoc] at hmask
  rw [Dialect.commentOut_of_some hblock, List.append_assoc, List.append_assoc, hmask]

end Block

end Mask

namespace WeakDelegate

theorem declarationsFrom_of_blanked {code : Text} (h : ∀ c ∈ code, Mask.Blanked c)
    (afterWord : Bool) (offset : Nat) : declarationsFrom afterWord 0 offset code = [] := by
  induction code generalizing afterWord offset with
  | nil => rfl
  | cons c rest ih =>
    obtain ⟨hc, hrest⟩ := List.forall_mem_cons.mp h
    have hvar : c ≠ 'v' := by
      rcases hc with rfl | rfl | rfl
      · decide
      · decide
      · decide
    rw [declarationsFrom, declared?_of_ne hvar, ite_self]
    exact ih hrest _ _

theorem violations_of_blanked {text : Text} (h : ∀ c ∈ mask text .swift, Mask.Blanked c) :
    violations text = [] := by
  rw [violations, violationsIn, declarations, declarationsFrom_of_blanked h]
  rfl

end WeakDelegate

/-- A text put into a block comment is hidden up to the first delimiter in it that closes the
comment; one that is commented out line by line is hidden. -/
theorem Dialect.commentOut_hides (text : Text) :
    (∀ c ∈ mask (python.commentOut text) .python, Mask.Blanked c) ∧
      ((¬"*/".toList <:+: text ∧ (∀ c ∈ mask (swift.commentOut text) .swift, Mask.Blanked c) ∧
          WeakDelegate.violations (swift.commentOut text) = []) ∨
        ∃ inner outer, text = inner ++ ("*/".toList ++ outer) ∧ ¬"*/".toList <:+: inner ∧
          mask (swift.commentOut text) .swift =
            ("/*".toList ++ ("\n  ".toList ++ (inner ++ "*/".toList))).map Mask.blank ++
              mask (outer ++ ("\n ".toList ++ "*/".toList)) .swift) := by
  have hpython : python.Visible := Mask.visible_of_known List.mem_cons_self
  have hswift : swift.Visible :=
    Mask.visible_of_known (List.mem_cons_of_mem _ List.mem_cons_self)
  have hblock : swift.blockComment = some ("/*".toList, "*/".toList) := rfl
  have hline : Text.startsWith swift.lineComment "/*".toList = false := by decide
  constructor
  · intro c hc
    rw [Mask.mask_commentOut_lines hpython rfl] at hc
    exact Mask.blanked_of_mem_map hc
  · rcases Text.not_infix_or_first "*/".toList text with habsent | ⟨inner, outer, rfl, hfirst⟩
    · left
      have hblanked : ∀ c ∈ mask (swift.commentOut text) .swift, Mask.Blanked c := by
        intro c hc
        rw [Mask.mask_commentOut_of_not_infix hswift hblock hline habsent] at hc
        exact Mask.blanked_of_mem_map hc
      exact ⟨habsent, hblanked, WeakDelegate.violations_of_blanked hblanked⟩
    · right
      exact ⟨inner, outer, rfl, hfirst.not_infix (by decide),
        Mask.mask_commentOut_of_first hswift hblock hline hfirst⟩

/-- A delegate is reported in a text that is commented out but has a comment of its own. -/
theorem Dialect.commentOut_leaks :
    let text := "/* a */ class A \x7b\n  var delegate: D?\n\x7d\n".toList
    ¬(∀ c ∈ mask (swift.commentOut text) .swift, Mask.Blanked c) ∧
      WeakDelegate.violations (swift.commentOut text) = [25] := by
  intro text
  have hviolations : WeakDelegate.violations (swift.commentOut text) = [25] := by decide +kernel
  refine ⟨fun hblanked => ?_, hviolations⟩
  rw [WeakDelegate.violations_of_blanked hblanked] at hviolations
  cases hviolations

end StyleRules
