import StyleRules.Proofs.Masking

namespace StyleRules

/-- A character that stands in no delimiter of the dialect and escapes nothing, where no delimiter
is empty. -/
structure Dialect.Plain (d : Dialect) (x : Char) : Prop extends d.Alien x where
  escapes : x ≠ '\\'
  opensCode : ∀ rest, Mask.opens d x rest = .code
  closes : ∀ delimiters ∈ d.blockComment, delimiters.2 ≠ []

namespace Mask

variable {d : Dialect} {x : Char}

/-- The character does not stand in what is left of a delimiter. -/
def Held (x : Char) : Region → Text → Prop
  | .blockComment n, text | .blockEnd n, text | .literalEnd n, text => x ∉ text.take n
  | .literal quote n, text => x ∉ quote ∧ quote ≠ [] ∧ (n ≤ 1 ∨ x ∉ text.take n)
  | .code, _ | .lineComment, _ => True

theorem not_mem_take_of_startsWith {needle text : Text} (hx : x ∉ needle)
    (h : Text.startsWith needle text = true) : x ∉ text.take needle.length := by
  rw [List.prefix_iff_eq_take.mp (List.isPrefixOf_iff_prefix.mp h)] at hx
  exact hx

theorem startsWith_openingQuote {quotes : List Text} {c : Char} {rest quote : Text}
    (h : openingQuote quotes c rest = some quote) :
    quote ≠ [] ∧ Text.startsWith quote (c :: rest) = true := by
  unfold openingQuote at h
  split at h
  next =>
    cases Option.some.inj h
    split
    next hthree =>
      refine ⟨List.cons_ne_nil _ _, ?_⟩
      simpa [Text.startsWith, List.isPrefixOf] using hthree
    next => exact ⟨List.cons_ne_nil _ _, by simp [Text.startsWith, List.isPrefixOf]⟩
  next => cases h

theorem held_opens (h : d.Alien x) (c : Char) (rest : Text) :
    Held x (opens d c rest) (c :: rest) := by
  have hquote : Held x ((openingQuote d.quotes c rest).elim .code fun quote =>
      .literal quote quote.length) (c :: rest) := by
    cases hq : openingQuote d.quotes c rest with
    | none => trivial
    | some quote =>
      obtain ⟨hc, hall⟩ := openingQuote_spec hq
      obtain ⟨hne, hstart⟩ := startsWith_openingQuote hq
      have hx : x ∉ quote := by
        intro hx
        rw [hall x hx] at h
        exact h.quotes hc
      exact ⟨hx, hne, Or.inr (not_mem_take_of_startsWith hx hstart)⟩
  unfold opens
  split
  next =>
    split
    next => trivial
    next => trivial
  next =>
    split
    next opening closing hblock =>
      obtain ⟨hopening, hclosing⟩ := h.blockComment _ hblock
      split
      next hstart =>
        have hpending := not_mem_take_of_startsWith hopening hstart
        split
        next => exact hpending
        next =>
          split
          next hend => exact not_mem_take_of_startsWith hclosing hend.2
          next => exact hpending
      next => exact hquote
    next => exact hquote

theorem held_enter (h : d.Alien x) {region : Region} {c : Char} {rest : Text}
    (held : Held x region (c :: rest)) : Held x (enter d region c rest) (c :: rest) := by
  have hopens := held_opens h c rest
  unfold enter
  split
  next => exact hopens
  next =>
    split
    next => exact hopens
    next => trivial
  next =>
    split
    next opening closing hblock =>
      split
      next hstart => exact not_mem_take_of_startsWith (h.blockComment _ hblock).2 hstart
      next => exact held
    next => exact held
  next => exact hopens
  next quote =>
    split
    next hstart => exact not_mem_take_of_startsWith held.1 hstart
    next =>
      split
      next => exact hopens
      next => exact held
  next => exact hopens
  next => exact held

theorem held_leave {region : Region} {c : Char} {rest : Text}
    (held : Held x region (c :: rest)) : Held x (leave region c) rest := by
  have hdrop : ∀ n, x ∉ (c :: rest).take (n + 1) → x ∉ rest.take n :=
    fun n hx hmem => hx (List.mem_cons_of_mem c hmem)
  unfold leave
  split
  next n => exact hdrop n held
  next n => exact hdrop n held
  next quote =>
    split
    next => exact ⟨held.1, held.2.1, Or.inl (Nat.le_refl 1)⟩
    next => exact ⟨held.1, held.2.1, Or.inl (Nat.zero_le 1)⟩
  next quote n =>
    refine ⟨held.1, held.2.1, ?_⟩
    rcases held.2.2 with hn | hx
    · exact Or.inl (by omega)
    · exact Or.inr (hdrop n hx)
  next n => exact hdrop n held
  next hcomment hend hliteral hescaped hclosed =>
    cases region with
    | code => trivial
    | lineComment => trivial
    | blockComment n =>
      cases n with
      | zero => exact List.not_mem_nil
      | succ n => exact absurd rfl (hcomment n)
    | blockEnd n =>
      cases n with
      | zero => exact List.not_mem_nil
      | succ n => exact absurd rfl (hend n)
    | literal quote n =>
      cases n with
      | zero => exact absurd rfl (hliteral quote)
      | succ n => exact absurd rfl (hescaped quote n)
    | literalEnd n =>
      cases n with
      | zero => exact List.not_mem_nil
      | succ n => exact absurd rfl (hclosed n)

/-- What is left of a delimiter stays ahead of the scanner. -/
theorem held_step (h : d.Alien x) {region : Region} {c : Char} {rest : Text}
    (held : Held x region (c :: rest)) : Held x (leave (enter d region c rest) c) rest :=
  held_leave (held_enter h held)

/-- A region in which nothing of a delimiter is left. -/
def Settled : Region → Prop
  | .blockComment n | .blockEnd n | .literalEnd n => n = 0
  | .literal quote n => quote ≠ [] ∧ n ≤ 1
  | .code | .lineComment => True

theorem unbothered_of_held {region : Region} {text : Text} (held : Held x region text) :
    Unbothered x region := by
  cases region with
  | literal quote n => exact held.1
  | _ => trivial

/-- Where a character is met that stands in no delimiter, nothing of a delimiter is left. -/
theorem settled_of_held {region : Region} {rest : Text} (held : Held x region (x :: rest)) :
    Settled region := by
  have hzero : ∀ n, x ∉ (x :: rest).take n → n = 0 := by
    intro n hx
    cases n with
    | zero => rfl
    | succ n => exact absurd List.mem_cons_self hx
  cases region with
  | code => trivial
  | lineComment => trivial
  | blockComment n => exact hzero n held
  | blockEnd n => exact hzero n held
  | literalEnd n => exact hzero n held
  | literal quote n =>
    obtain ⟨-, hne, hn | hx⟩ := held
    · exact ⟨hne, hn⟩
    · exact ⟨hne, by rw [hzero n hx]; exact Nat.zero_le 1⟩

/-- The region after a plain character. A literal of a single quote ends at a line break that is
not escaped. -/
def passing (x : Char) : Region → Region
  | .code | .blockEnd _ | .literalEnd _ => .code
  | .lineComment => if x = '\n' then .code else .lineComment
  | .blockComment _ => .blockComment 0
  | .literal quote n =>
    if n = 0 ∧ quote.length = 1 ∧ (x = '\r' ∨ x = '\n') then .code else .literal quote 0

theorem leave_enter_plain (h : d.Plain x) {region : Region} (hr : Unbothered x region)
    (settled : Settled region) (rest : Text) :
    leave (enter d region x rest) x = passing x region := by
  have hstart : ∀ needle : Text, x ∉ needle → needle ≠ [] →
      Text.startsWith needle (x :: rest) = false :=
    fun needle hx hne => Text.startsWith_of_not_mem rest hne hx
  cases region with
  | code => simp only [enter, h.opensCode, leave, passing]
  | lineComment =>
    simp only [enter, h.opensCode, passing]
    split
    next => rfl
    next => rfl
  | blockComment n =>
    cases settled
    simp only [enter, passing]
    split
    next opening closing hblock =>
      rw [hstart closing (h.blockComment _ hblock).2 (h.closes _ hblock)]
      rfl
    next => rfl
  | blockEnd n =>
    cases settled
    simp only [enter, h.opensCode, leave, passing]
  | literalEnd n =>
    cases settled
    simp only [enter, h.opensCode, leave, passing]
  | literal quote n =>
    obtain ⟨hne, hn⟩ := settled
    rcases Nat.le_one_iff_eq_zero_or_eq_one.mp hn with rfl | rfl
    · simp only [enter, hstart quote hr hne, h.opensCode, passing, true_and, Bool.false_eq_true,
        if_false]
      split
      next => rfl
      next => simp only [leave, if_neg h.escapes]
    · rfl

section Python

theorem python_lineComment : Dialect.python.lineComment = ['#'] := by decide

theorem python_quotes : Dialect.python.quotes = [['"'], ['\'']] := by decide

theorem python_plain (hhash : x ≠ '#') (hdouble : x ≠ '"') (hsingle : x ≠ '\'')
    (hescape : x ≠ '\\') : Dialect.python.Plain x where
  lineComment := by simp [python_lineComment, hhash]
  blockComment := by simp [Dialect.python]
  quotes := by simp [python_quotes, hdouble, hsingle]
  escapes := hescape
  opensCode rest := by
    simp [opens, openingQuote, Dialect.python, Text.startsWith, List.isPrefixOf, Ne.symm hhash,
      hdouble, hsingle]
  closes := by simp [Dialect.python]

end Python

theorem swift_plain (hslash : x ≠ '/') (hstar : x ≠ '*') (hquote : x ≠ '"') (hescape : x ≠ '\\') :
    Dialect.swift.Plain x where
  toAlien := swift_alien hslash hstar hquote
  escapes := hescape
  opensCode rest := opens_swift hslash hquote rest
  closes := by simp [swift_blockComment]

end Mask

end StyleRules
