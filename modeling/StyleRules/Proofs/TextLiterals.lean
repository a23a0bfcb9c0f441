import StyleRules.Proofs.CommentedOut
import StyleRules.Proofs.DirectivePlaces
import StyleRules.Proofs.Weakening
import StyleRules.SyntaxTree.Comparison

namespace StyleRules

namespace Dialect

/-- Reads the escapes of double quotes from left to right. -/
def unescape : Text → Text
  | '\\' :: '\\' :: rest => '\\' :: unescape rest
  | '\\' :: '"' :: rest => '"' :: unescape rest
  | '\\' :: 'r' :: rest => '\r' :: unescape rest
  | '\\' :: 'n' :: rest => '\n' :: unescape rest
  | c :: rest => c :: unescape rest
  | [] => []

/-- What stands between two quotes. -/
def unquote (literal : Text) : Text := (literal.drop 1).dropLast

/-- The escapes put in kind by kind: each replacement goes over what the ones before it left. -/
def escapeInTurn (text : Text) : Text :=
  Text.replaceChar '\n' ['\\', 'n']
    (Text.replaceChar '\r' ['\\', 'r']
      (Text.replaceChar '"' ['\\', '"'] (Text.replaceChar '\\' ['\\', '\\'] text)))

theorem unescape_cons {c : Char} (h : c ≠ '\\') (rest : Text) :
    unescape (c :: rest) = c :: unescape rest :=
  unescape.eq_5 c rest (fun _ hc _ => h hc) (fun _ hc _ => h hc) (fun _ hc _ => h hc)
    (fun _ hc _ => h hc)

/-- A character is written as it is, or by an escape that stands for it and holds no line break. -/
theorem escapeChar_cases (c : Char) :
    (escapeChar c = [c] ∧ c ≠ '\\' ∧ c ≠ '"' ∧ ¬(c = '\r' ∨ c = '\n')) ∨
      ∃ x, escapeChar c = ['\\', x] ∧ ¬(x = '\r' ∨ x = '\n') ∧
        ∀ rest, unescape ('\\' :: x :: rest) = c :: unescape rest := by
  unfold escapeChar
  split
  next h => exact Or.inr ⟨'\\', rfl, by decide, fun _ => by rw [h]; rfl⟩
  next hescape =>
    split
    next h => exact Or.inr ⟨'"', rfl, by decide, fun _ => by rw [h]; rfl⟩
    next hquote =>
      split
      next h => exact Or.inr ⟨'r', rfl, by decide, fun _ => by rw [h]; rfl⟩
      next hreturn =>
        split
        next h => exact Or.inr ⟨'n', rfl, by decide, fun _ => by rw [h]; rfl⟩
        next hnewline => exact Or.inl ⟨rfl, hescape, hquote, not_or.mpr ⟨hreturn, hnewline⟩⟩

theorem unescape_escape (text : Text) : unescape (text.flatMap escapeChar) = text := by
  induction text with
  | nil => rfl
  | cons c text ih =>
    rw [List.flatMap_cons]
    rcases escapeChar_cases c with ⟨hc, hescape, -, -⟩ | ⟨x, hc, -, hread⟩
    · rw [hc, List.singleton_append, unescape_cons hescape, ih]
    · rw [hc, List.cons_append, List.singleton_append, hread, ih]

theorem escape_no_break {text : Text} {a : Char} (h : a ∈ text.flatMap escapeChar) :
    ¬(a = '\r' ∨ a = '\n') := by
  obtain ⟨c, -, ha⟩ := List.mem_flatMap.mp h
  rcases escapeChar_cases c with ⟨hc, -, -, hbreak⟩ | ⟨x, hc, hbreak, -⟩
  · rw [hc, List.mem_singleton] at ha
    rwa [ha]
  · rw [hc] at ha
    rcases List.mem_cons.mp ha with rfl | ha
    · decide
    · rwa [List.mem_singleton.mp ha]

theorem escapeInTurn_append (first second : Text) :
    escapeInTurn (first ++ second) = escapeInTurn first ++ escapeInTurn second := by
  simp only [escapeInTurn, Text.replaceChar, List.flatMap_append]

theorem escapeInTurn_singleton (c : Char) : escapeInTurn [c] = escapeChar c := by
  unfold escapeChar
  split
  next h => rw [h]; rfl
  next hescape =>
    split
    next h => rw [h]; rfl
    next hquote =>
      split
      next h => rw [h]; rfl
      next hreturn =>
        split
        next h => rw [h]; rfl
        next hnewline =>
          simp [escapeInTurn, Text.replaceChar, hescape, hquote, hreturn, hnewline]

/-- No replacement goes over what the ones before it put in. -/
theorem escapeInTurn_eq (text : Text) : escapeInTurn text = text.flatMap escapeChar := by
  induction text with
  | nil => rfl
  | cons c text ih =>
    have hcut := escapeInTurn_append [c] text
    rw [List.singleton_append] at hcut
    rw [hcut, escapeInTurn_singleton, ih, List.flatMap_cons]

section Literal

variable (d : Dialect) (text : Text)

theorem textLiteral_eq_cons :
    d.textLiteral text = '"' :: (text.flatMap escapeChar ++ ['"']) := rfl

theorem unquote_textLiteral : unquote (d.textLiteral text) = text.flatMap escapeChar := by
  rw [unquote, textLiteral_eq_cons, List.drop_one, List.tail_cons, List.dropLast_concat]

theorem unescape_unquote : unescape (unquote (d.textLiteral text)) = text := by
  rw [unquote_textLiteral, unescape_escape]

theorem textLiteral_injective : Function.Injective d.textLiteral := by
  intro a b h
  rw [← unescape_unquote d a, h, unescape_unquote]

theorem blank_textLiteral :
    (d.textLiteral text).map Mask.blank = List.replicate (d.textLiteral text).length ' ' := by
  have hblank : ∀ a ∈ d.textLiteral text, Mask.blank a = ' ' := by
    intro a ha
    rw [textLiteral_eq_cons] at ha
    rcases List.mem_cons.mp ha with rfl | ha
    · rfl
    · rcases List.mem_append.mp ha with ha | ha
      · exact if_neg (escape_no_break ha)
      · rw [List.mem_singleton.mp ha]
        rfl
  exact List.map_eq_replicate_iff.mpr hblank

end Literal

end Dialect

namespace Mask

variable {d : Dialect} {text rest : Text}

/-- A literal in double quotes goes on up to the quote behind the escaped text. -/
theorem literalStretch_escape (comments : Bool) (text rest before : Text) :
    LiteralStretch d comments ['"'] before (text.flatMap Dialect.escapeChar ++ ['"']) rest := by
  -- An escape is passed as a whole, so that a quote is met as such only at the end.
  induction text generalizing before with
  | nil => exact literalStretch_quote (by decide) (Text.startsWith_append _ rest) before
  | cons c text ih =>
    rw [List.flatMap_cons, List.append_assoc]
    rcases Dialect.escapeChar_cases c with ⟨hc, hescape, hquote, hbreak⟩ | ⟨x, hc, -, -⟩
    · have hstart (more : Text) : Text.startsWith ['"'] (c :: more) = false :=
        Text.startsWith_of_not_mem more (by decide) (by simpa using hquote)
      rw [hc, List.singleton_append]
      exact (ih (before ++ [c])).cons (hstart _) (fun h => hbreak h.2) hescape
    · have hstart (more : Text) : Text.startsWith ['"'] ('\\' :: more) = false :=
        Text.startsWith_of_not_mem more (by decide) (by decide)
      rw [hc, List.cons_append, List.singleton_append]
      exact (ih (before ++ ['\\', x])).escape (hstart _)

theorem Reached.mask_eq {comments : Bool} {part shown rest : Text}
    (h : Reached d comments (part ++ rest) ⟨part.length, shown ++ rest⟩) :
    mask (part ++ rest) d comments = shown ++ mask rest d comments := by
  have hmasked := h.masked
  have hahead := h.ahead
  dsimp only at hmasked hahead
  rw [List.drop_left] at hmasked hahead
  rw [List.append_cancel_right hmasked, mask.eq_1 rest, ← hahead, List.take_append_drop]

theorem passLiteral_textLiteral (d : Dialect) (text rest : Text) :
    passLiteral (d.textLiteral text ++ rest) ['"'] ⟨0, d.textLiteral text ++ rest⟩ =
      some ⟨(d.textLiteral text).length, (d.textLiteral text).map blank ++ rest⟩ := by
  obtain ⟨found, hfound, hstop⟩ := (@literalStretch_escape d true text rest ['"']).sought
  have hwhole : ['"'] ++ (text.flatMap Dialect.escapeChar ++ ['"'] ++ rest) =
      d.textLiteral text ++ rest := by
    rw [Dialect.textLiteral_eq_cons, List.singleton_append, List.cons_append]
  have hlength : ['"'].length + (text.flatMap Dialect.escapeChar ++ ['"']).length =
      (d.textLiteral text).length := by
    rw [Dialect.textLiteral_eq_cons, List.length_cons, List.length_cons, List.length_nil]
    omega
  have hblank := blankOut_eq [] (d.textLiteral text) rest
  have hbehind : 0 + ['"'].length = ['"'].length := Nat.zero_add _
  rw [hwhole] at hfound hstop
  rw [hlength] at hstop
  simp only [List.length_nil, Nat.zero_add, List.nil_append] at hblank
  simp only [passLiteral, hbehind, hfound, Option.bind_some, hstop, hblank, Option.map_some]

theorem doubleQuote_of_known (known : d ∈ Dialect.known) :
    ['"'] ∈ d.quotes ∧ (∀ more, Text.startsWith d.lineComment ('"' :: more) = false) ∧
      ∀ more, ∀ delimiters ∈ d.blockComment,
        Text.startsWith delimiters.1 ('"' :: more) = false := by
  have hd : d = .python ∨ d = .swift := by simpa [Dialect.known] using known
  rcases hd with rfl | rfl
  · refine ⟨by decide, fun _ => rfl, ?_⟩
    intro more delimiters hmem
    cases hmem
  · refine ⟨by decide, fun _ => rfl, ?_⟩
    intro more delimiters hmem
    cases hmem
    rfl

/-- Only an empty literal that another quote follows is taken for the start of a triple one. -/
theorem openingQuote_textLiteral (known : d ∈ Dialect.known)
    (apart : text = [] → rest.head? ≠ some '"') :
    openingQuote d.quotes '"' (text.flatMap Dialect.escapeChar ++ ['"'] ++ rest) =
      some ['"'] := by
  have hsingle : Text.startsWith ['"', '"']
      (text.flatMap Dialect.escapeChar ++ ['"'] ++ rest) = false := by
    cases text with
    | nil =>
      cases rest with
      | nil => rfl
      | cons x rest =>
        have hx : x ≠ '"' := fun hx => apart rfl (by rw [hx]; rfl)
        simp [Text.startsWith, List.isPrefixOf, Ne.symm hx]
    | cons c text =>
      rcases Dialect.escapeChar_cases c with ⟨hc, -, hquote, -⟩ | ⟨x, hc, -, -⟩
      · simp [hc, Text.startsWith, List.isPrefixOf, Ne.symm hquote]
      · simp [hc, Text.startsWith, List.isPrefixOf]
  rw [openingQuote, if_pos (doubleQuote_of_known known).1, hsingle]
  rfl

section Opened

variable (known : d ∈ Dialect.known) (comments : Bool)
  (apart : text = [] → rest.head? ≠ some '"')

include known apart

/-- One round passes a literal in double quotes, and nothing of what follows it. -/
theorem round?_textLiteral :
    round? d comments (d.textLiteral text ++ rest) ⟨0, d.textLiteral text ++ rest⟩ =
      some ⟨(d.textLiteral text).length, (d.textLiteral text).map blank ++ rest⟩ := by
  obtain ⟨-, hline, hblock⟩ := doubleQuote_of_known known
  have hahead : (d.textLiteral text ++ rest).drop 0 =
      '"' :: (text.flatMap Dialect.escapeChar ++ ['"'] ++ rest) := rfl
  rw [round?_of_neither hahead (hline _) (hblock _), openingQuote_textLiteral known apart]
  exact passLiteral_textLiteral d text rest

/-- What follows a literal in double quotes is masked as if it stood alone. -/
theorem mask_textLiteral_append :
    mask (d.textLiteral text ++ rest) d comments =
      (d.textLiteral text).map blank ++ mask rest d comments := by
  obtain ⟨-, hline, hblock⟩ := doubleQuote_of_known known
  have hahead : (d.textLiteral text ++ rest).drop 0 =
      '"' :: (text.flatMap Dialect.escapeChar ++ ['"'] ++ rest) := rfl
  have hopening := openingQuote_textLiteral known apart
  have hopens : opens d '"' (text.flatMap Dialect.escapeChar ++ ['"'] ++ rest) =
      .literal ['"'] ['"'].length := by
    rw [opens_of_neither (hline _) (hblock _), hopening]
    rfl
  obtain ⟨q, hq, -, hreached⟩ :=
    passLiteral_of_opens (reached_start d comments _) hahead hopening hopens
  rw [passLiteral_textLiteral] at hq
  cases Option.some.inj hq
  exact hreached.mask_eq

end Opened

end Mask

namespace Directive

theorem ofText_of_blanked {d : Dialect} {text : Text} (h : d.Visible)
    (hblanked : ∀ c ∈ mask text d false, Mask.Blanked c) : ofText text d = [] := by
  apply List.eq_nil_iff_forall_not_mem.mpr
  intro found hfound
  obtain ⟨before, after, hmask, hsign, -⟩ := exists_cut_of_mem hfound
  cases after with
  | nil =>
    rw [Text.startsWith_nil h.lineComment] at hsign
    cases hsign
  | cons c after =>
    have hc : Mask.Blanked c := hblanked c (by rw [hmask]; simp)
    rw [Text.startsWith_of_not_mem after h.lineComment (h.alien c hc).lineComment] at hsign
    cases hsign

end Directive

/-- A text in double quotes is one literal to a scanner, with no directive and no delegate in it,
and no two texts are written alike. -/
theorem Dialect.textLiteral_closed [Parser] {d : Dialect} (known : d ∈ Dialect.known) (text : Text) :
    (∀ comments, mask (d.textLiteral text) d comments =
      List.replicate (d.textLiteral text).length ' ') ∧
    (∀ comments rest, (text = [] → rest.head? ≠ some '"') →
      Mask.round? d comments (d.textLiteral text ++ rest) ⟨0, d.textLiteral text ++ rest⟩ =
        some ⟨(d.textLiteral text).length,
          List.replicate (d.textLiteral text).length ' ' ++ rest⟩ ∧
      mask (d.textLiteral text ++ rest) d comments =
        List.replicate (d.textLiteral text).length ' ' ++ mask rest d comments) ∧
    Directive.ofText (d.textLiteral text) d = [] ∧
    (∀ (s : Settings) (path : Option Path) (cache : ParseCache),
      (Rule.diagnose ⟨.weakDelegate, s⟩
        { contents := d.textLiteral text, dialect := d, path } cache).1 = .ok []) ∧
    d.textLiteral text = '"' :: (escapeInTurn text ++ ['"']) ∧
    unescape (unquote (d.textLiteral text)) = text ∧
    Function.Injective d.textLiteral := by
  have hclosed {e : Dialect} (known : e ∈ Dialect.known) (comments : Bool) :
      mask (e.textLiteral text) e comments = List.replicate (e.textLiteral text).length ' ' := by
    have hmask := @Mask.mask_textLiteral_append e text [] known comments (by simp)
    have hnil : mask [] e comments = [] := rfl
    rwa [hnil, List.append_nil, List.append_nil, blank_textLiteral] at hmask
  have hblanked {e : Dialect} (known : e ∈ Dialect.known) (comments : Bool) :
      ∀ c ∈ mask (e.textLiteral text) e comments, Mask.Blanked c := by
    intro c hc
    rw [hclosed known] at hc
    exact Or.inl (List.eq_of_mem_replicate hc)
  refine ⟨hclosed known, ?_, ?_, ?_, ?_, unescape_unquote d text, textLiteral_injective d⟩
  · intro comments rest apart
    rw [← blank_textLiteral]
    exact ⟨Mask.round?_textLiteral known comments apart,
      Mask.mask_textLiteral_append known comments apart⟩
  · exact Directive.ofText_of_blanked (Mask.visible_of_known known) (hblanked known false)
  · intro s path cache
    have hswift : swift ∈ Dialect.known := by decide
    have hnone : WeakDelegate.violations (d.textLiteral text) = [] :=
      WeakDelegate.violations_of_blanked (hblanked hswift true)
    rw [WeakDelegate.diagnose_eq rfl, hnone]
    rfl
  · rw [escapeInTurn_eq, textLiteral_eq_cons]

open scoped Comparison

/-- Three quotes, the sign of a comment, a line break of two characters and a last backslash; and no
text at all, where the quotes of the literal stand side by side. -/
theorem Dialect.textLiteral_closed_escapes :
    let text : Text := "\"\"\" # lintcheck:disable all\r\n'\\".toList
    let literal : Text := "\"\\\"\\\"\\\" # lintcheck:disable all\\r\\n'\\\\\"".toList
    python ∈ Dialect.known ∧ swift ∈ Dialect.known ∧ python.textLiteral text = literal ∧
      mask (literal ++ "\"a\" b".toList) .python false =
        List.replicate literal.length ' ' ++ "    b".toList ∧
      mask (swift.textLiteral [] ++ " + 'c'".toList) .swift = "   + 'c'".toList ∧
      Directive.ofText literal .python = [] ∧ unescape (unquote literal) = text := by
  intro text literal
  have hpython : python ∈ Dialect.known := by decide
  have hswift : swift ∈ Dialect.known := by decide
  have hliteral : python.textLiteral text = literal := by decide
  obtain ⟨-, hbehind, hdirectives, -, -, hread, -⟩ := textLiteral_closed hpython text
  obtain ⟨-, hempty, -⟩ := textLiteral_closed hswift []
  obtain ⟨-, hfollowed⟩ := hbehind false "\"a\" b".toList (by decide)
  obtain ⟨-, hspaced⟩ := hempty true " + 'c'".toList (by decide)
  rw [hliteral] at hdirectives hread hfollowed
  refine ⟨hpython, hswift, hliteral, ?_, ?_, hdirectives, hread⟩
  · rw [hfollowed]
    rfl
  · rw [hspaced]
    rfl

end StyleRules
