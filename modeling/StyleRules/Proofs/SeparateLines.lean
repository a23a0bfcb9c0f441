import StyleRules.Proofs.LineEndings
import StyleRules.Proofs.Suppression

namespace StyleRules

/-- A text in which nothing is opened that may go on behind the end of its line. -/
structure Dialect.OpensBriefly (d : Dialect) (text : Text) : Prop where
  quotes : ∀ c, [c] ∈ d.quotes → ¬[c, c, c] <:+: text
  blockComment : ∀ delimiters ∈ d.blockComment, ¬delimiters.1 <:+: text

theorem Dialect.OpensBriefly.tail {d : Dialect} {c : Char} {rest : Text}
    (h : d.OpensBriefly (c :: rest)) : d.OpensBriefly rest where
  quotes x hx hrest := h.quotes x hx (hrest.trans (List.suffix_cons c rest).isInfix)
  blockComment delimiters hmem hrest :=
    h.blockComment delimiters hmem (hrest.trans (List.suffix_cons c rest).isInfix)

namespace Mask

variable {d : Dialect} {c : Char} {rest text quote : Text} {region : Region}

/-- The regions that end with their line, unless the line feed is escaped. -/
def Brief : Region → Prop
  | .code | .lineComment | .literalEnd _ => True
  | .literal quote n => quote.length = 1 ∧ n ≤ 1
  | .blockComment _ | .blockEnd _ => False

theorem openingQuote_brief (h : d.OpensBriefly (c :: rest))
    (hquote : openingQuote d.quotes c rest = some quote) : quote = [c] := by
  unfold openingQuote at hquote
  split at hquote
  next hc =>
    have hsingle : ¬Text.startsWith [c, c] rest = true := by
      intro hstart
      have htriple : [c, c, c] <+: c :: rest :=
        List.cons_prefix_cons.mpr ⟨rfl, List.isPrefixOf_iff_prefix.mp hstart⟩
      exact h.quotes c hc htriple.isInfix
    rw [if_neg hsingle] at hquote
    exact (Option.some.inj hquote).symm
  next => cases hquote

theorem brief_opens (h : d.OpensBriefly (c :: rest)) : Brief (opens d c rest) := by
  have hquote : Brief ((openingQuote d.quotes c rest).elim .code fun quote =>
      .literal quote quote.length) := by
    cases hq : openingQuote d.quotes c rest with
    | none => trivial
    | some quote =>
      rw [openingQuote_brief h hq]
      exact ⟨rfl, Nat.le_refl 1⟩
  unfold opens
  split
  next =>
    split
    next => trivial
    next => trivial
  next =>
    split
    next opening closing hblock =>
      have hnone : ¬Text.startsWith opening (c :: rest) = true := fun hstart =>
        h.blockComment _ hblock (List.isPrefixOf_iff_prefix.mp hstart).isInfix
      rw [if_neg hnone]
      exact hquote
    next => exact hquote

theorem brief_enter (h : d.OpensBriefly (c :: rest)) (brief : Brief region) :
    Brief (enter d region c rest) := by
  have hopens := brief_opens h
  unfold enter
  split
  next => exact hopens
  next =>
    split
    next => exact hopens
    next => trivial
  next => cases brief
  next => cases brief
  next =>
    split
    next => trivial
    next =>
      split
      next => exact hopens
      next => exact brief
  next => exact hopens
  next => exact brief

theorem brief_leave (brief : Brief region) : Brief (leave region c) := by
  unfold leave
  split
  next => cases brief
  next => cases brief
  next =>
    split
    next => exact ⟨brief.1, Nat.le_refl 1⟩
    next => exact brief
  next n => exact ⟨brief.1, by have := brief.2; omega⟩
  next => trivial
  next => exact brief

/-- Only a backslash makes a brief literal pass the next character without a look. -/
theorem eq_backslash_of_leave (brief : Brief region) (h : leave region c = .literal quote 1) :
    c = '\\' := by
  cases region with
  | code => cases h
  | lineComment => cases h
  | blockComment n => cases brief
  | blockEnd n => cases brief
  | literalEnd n => cases n <;> cases h
  | literal quote n =>
    cases n with
    | zero =>
      by_contra hc
      rw [leave, if_neg hc] at h
      cases h
    | succ n =>
      have hn := brief.2
      cases h
      omega

theorem brief_endOf (h : d.OpensBriefly text) (brief : Brief region) :
    Brief (endOf d region text) := by
  induction text generalizing region with
  | nil => exact brief
  | cons c text ih => exact ih h.tail (brief_leave (brief_enter h brief))

/-- A text that does not end in a backslash ends in no escape. -/
theorem endOf_ne_escape (h : d.OpensBriefly text) (brief : Brief region)
    (hlast : text.getLast? ≠ some '\\') (hregion : text = [] → region ≠ .literal quote 1) :
    endOf d region text ≠ .literal quote 1 := by
  -- Where the text ends at once, the state is given; else its last character decides, whatever state
  -- it is read in, as an escape takes in one character only.
  induction text generalizing region with
  | nil => exact hregion rfl
  | cons c text ih =>
    have hentered := brief_enter h brief
    rw [List.getLast?_cons] at hlast
    apply ih h.tail (brief_leave hentered)
    · intro hbackslash
      rw [hbackslash] at hlast
      exact hlast rfl
    · rintro rfl hleave
      rw [eq_backslash_of_leave hentered hleave] at hlast
      exact hlast rfl

/-- Code is read behind the line feed that ends a brief region. -/
theorem passing_newline_of_brief (brief : Brief region)
    (hescape : ∀ quote, region ≠ .literal quote 1) : passing '\n' region = .code := by
  cases region with
  | code => rfl
  | lineComment => rfl
  | blockComment n => cases brief
  | blockEnd n => cases brief
  | literalEnd n => rfl
  | literal quote n =>
    obtain ⟨hlength, hn⟩ := brief
    have hzero : n = 0 := by
      rcases Nat.le_one_iff_eq_zero_or_eq_one.mp hn with hn | rfl
      · exact hn
      · exact absurd rfl (hescape quote)
    exact if_pos ⟨hzero, hlength, Or.inr rfl⟩

/-- Behind a line feed that nothing reaches over, the scanner is where it started. -/
theorem leave_newline (hd : d.Plain '\n') (h : d.OpensBriefly text)
    (hlast : text.getLast? ≠ some '\\') (rest : Text) :
    leave (enter d (endOf d .code text) '\n' rest) '\n' = .code := by
  have hbrief : Brief (endOf d .code text) := brief_endOf h trivial
  have hescape (quote : Text) : endOf d .code text ≠ .literal quote 1 :=
    endOf_ne_escape h trivial hlast fun _ hcode => by cases hcode
  have hheld : Held '\n' (endOf d .code text) ('\n' :: rest) :=
    held_endOf hd.toAlien hd.toAlien trivial trivial
  rw [leave_enter_plain hd (unbothered_of_held hheld) (settled_of_held hheld),
    passing_newline_of_brief hbrief hescape]

/-- The text behind a line feed is masked as if it stood alone. Only a triple quote or a block
comment could reach further, or a backslash before the line feed. -/
theorem mask_line_apart (known : d ∈ Dialect.known) (comments : Bool) {line : Text}
    (quotes : ∀ c, [c] ∈ d.quotes → ¬[c, c, c] <:+: line)
    (blockComment : ∀ delimiters ∈ d.blockComment, ¬delimiters.1 <:+: line)
    (escape : line.getLast? ≠ some '\\') (rest : Text) :
    mask (line ++ '\n' :: rest) d comments =
      mask line d comments ++ '\n' :: mask rest d comments := by
  obtain ⟨-, hd⟩ := Dialect.plain_of_known known
  have hleave := leave_newline hd ⟨quotes, blockComment⟩ escape rest
  have hscan := @scan_append d '\n' hd.toAlien comments .code trivial line rest
  rw [mask, hscan, scan, shown_break _ _ (Or.inr rfl), hleave]
  rfl

/-- The line escapes a quote and a line feed and leaves a literal open that holds the sign of a
comment, and the text behind it starts with a triple quote. -/
theorem mask_line_apart_open :
    let line : Text := "a 'b\\' c\\\n\"d' \"e # f".toList
    let rest : Text := "\"\"\"g\nh\"\"\"i".toList
    Dialect.python ∈ Dialect.known ∧ Dialect.python.OpensBriefly line ∧
      line.getLast? ≠ some '\\' ∧
      mask (line ++ '\n' :: rest) .python = "a        \n          \n    \n    i".toList := by
  intro line rest
  have known : Dialect.python ∈ Dialect.known := by decide
  have brief : Dialect.python.OpensBriefly line := by
    refine ⟨fun c hc => ?_, fun delimiters hmem => by cases hmem⟩
    have hquote : c = '"' ∨ c = '\'' := by simpa [python_quotes] using hc
    rcases hquote with rfl | rfl
    · decide +kernel
    · decide +kernel
  have escape : line.getLast? ≠ some '\\' := by decide
  refine ⟨known, brief, escape, ?_⟩
  rw [mask_line_apart known true brief.quotes brief.blockComment escape]
  decide +kernel

end Mask

end StyleRules
