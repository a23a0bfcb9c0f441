import StyleRules.Directive
import StyleRules.Proofs.Delimiters

namespace StyleRules

namespace Text

/-- The text with "\n" for every line break. -/
def unify : Text → Text
  | [] => []
  | '\r' :: '\n' :: rest => '\n' :: unify rest
  | '\r' :: rest => '\n' :: unify rest
  | c :: rest => c :: unify rest

theorem unify_cons {c : Char} (rest : Text) (hc : c ≠ '\r') : unify (c :: rest) = c :: unify rest :=
  unify.eq_4 c rest (fun _ h _ => hc h) hc

/-- A text and its unified copy have the same lines. -/
theorem segments_unify (text : Text) : segments text.unify = segments text := by
  fun_induction unify text with
  | case1 => rfl
  | case2 rest ih => simp only [segments, ih]
  | case3 rest hrest ih => rw [segments.eq_4, segments.eq_3 _ hrest, ih]
  | case4 c rest hpair hreturn ih =>
    by_cases hn : c = '\n'
    · subst hn
      rw [segments.eq_4, segments.eq_4, ih]
    · rw [segments.eq_5 _ _ (fun _ h _ => hreturn h) hreturn hn,
        segments.eq_5 _ _ (fun _ h _ => hreturn h) hreturn hn, ih]

theorem splitLines_unify (text : Text) : splitLines text.unify = splitLines text := by
  simp only [splitLines, segments_unify]

/-- A needle without line breaks is found at the start of a text if it is at the start of the
unified copy. -/
theorem startsWith_unify {needle : Text} (text : Text) (hneedle : ∀ c ∈ needle, c ≠ '\r' ∧ c ≠ '\n') :
    startsWith needle text.unify = startsWith needle text := by
  induction needle generalizing text with
  | nil => cases text <;> rfl
  | cons a needle ih =>
    obtain ⟨hr, hn⟩ := hneedle a List.mem_cons_self
    have hrest := fun text => ih text fun c hc => hneedle c (List.mem_cons_of_mem a hc)
    have hr' : (a == '\r') = false := beq_eq_false_iff_ne.mpr hr
    have hn' : (a == '\n') = false := beq_eq_false_iff_ne.mpr hn
    fun_cases unify text with
    | case1 => rfl
    | case2 rest => simp [startsWith, List.isPrefixOf, hr', hn']
    | case3 rest => simp [startsWith, List.isPrefixOf, hr', hn']
    | case4 c rest hpair hreturn =>
      have := hrest rest
      simp only [startsWith, List.isPrefixOf] at this ⊢
      rw [this]

end Text

namespace Mask

variable {d : Dialect}

/-- Whether a scanner makes no difference between "\r" and the unified line break: no line comment
runs over it, and no escape hides half of it in a literal that may not span lines. -/
def returnAlike (region : Region) (rest : Text) : Bool :=
  match region with
  | .lineComment => rest.head? == some '\n'
  | .literal quote n => n == 0 || quote.length != 1 || rest.head? != some '\n'
  | _ => true

/-- Whether that holds of every "\r" of a text. -/
def breaksAlike (d : Dialect) (region : Region) : Text → Bool
  | [] => true
  | c :: rest =>
    (c != '\r' || returnAlike region rest)
      && breaksAlike d (leave (enter d region c rest) c) rest

theorem openingQuote_unify {quotes : List Text} (hr : [('\r' : Char)] ∉ quotes)
    (hn : [('\n' : Char)] ∉ quotes) (c : Char) (rest : Text) :
    openingQuote quotes c rest.unify = openingQuote quotes c rest := by
  unfold openingQuote
  split
  next hc =>
    have hforeign : ∀ a ∈ [c, c], a ≠ '\r' ∧ a ≠ '\n' := by
      intro a ha
      have hac : a = c := by simpa using ha
      subst hac
      exact ⟨fun h => hr (h ▸ hc), fun h => hn (h ▸ hc)⟩
    rw [Text.startsWith_unify rest hforeign]
  next => rfl

/-- What a scanner does at a character does not depend on the line breaks after it. -/
theorem enter_unify (hr : d.Alien '\r') (hn : d.Alien '\n') {region : Region}
    (ur : Unbothered '\r' region) (un : Unbothered '\n' region) {c : Char} (rest : Text)
    (hc : c ≠ '\r') : enter d region c rest.unify = enter d region c rest := by
  have hstart : ∀ needle : Text, '\r' ∉ needle → '\n' ∉ needle →
      Text.startsWith needle (c :: rest.unify) = Text.startsWith needle (c :: rest) := by
    intro needle hr hn
    rw [← Text.unify_cons rest hc]
    exact Text.startsWith_unify _ fun a ha => ⟨fun h => hr (h ▸ ha), fun h => hn (h ▸ ha)⟩
  have hopens : opens d c rest.unify = opens d c rest := by
    unfold opens
    rw [hstart _ hr.lineComment hn.lineComment, openingQuote_unify hr.quotes hn.quotes]
    cases hb : d.blockComment with
    | none => rfl
    | some delimiters =>
      obtain ⟨hopening, hclosing⟩ := hr.blockComment delimiters hb
      obtain ⟨hopening', hclosing'⟩ := hn.blockComment delimiters hb
      simp only [hstart _ hopening hopening', hstart _ hclosing hclosing']
  unfold enter
  split
  · exact hopens
  · rw [hopens]
  · cases hb : d.blockComment with
    | none => rfl
    | some delimiters =>
      simp only [hstart _ (hr.blockComment delimiters hb).2 (hn.blockComment delimiters hb).2]
  · exact hopens
  · rw [hstart _ ur un, hopens]
  · exact hopens
  · rfl

/-- A line break in a masked text stood in the text. -/
theorem of_scan_eq_newline {comments : Bool} {region : Region} {text more : Text}
    (h : scan d comments region text = '\n' :: more) : ∃ rest, text = '\n' :: rest := by
  cases text with
  | nil => cases h
  | cons c rest =>
    simp only [scan, List.cons.injEq] at h
    rcases shown_eq_or comments (enter d region c rest) c with hc | ⟨hc, -⟩
    · exact ⟨rest, by rw [← hc, h.1]⟩
    · rw [hc] at h
      exact absurd h.1 (by decide)

theorem unbothered_passing {x : Char} (y : Char) {region : Region} (h : Unbothered x region) :
    Unbothered x (passing y region) := by
  cases region with
  | lineComment =>
    simp only [passing]
    split
    next => trivial
    next => trivial
  | literal quote n =>
    simp only [passing]
    split
    next => trivial
    next => exact h
  | _ => trivial

theorem settled_passing (x : Char) {region : Region} (h : Settled region) :
    Settled (passing x region) := by
  cases region with
  | code => trivial
  | lineComment =>
    simp only [passing]
    split
    next => trivial
    next => trivial
  | blockComment n => rfl
  | blockEnd n => trivial
  | literalEnd n => trivial
  | literal quote n =>
    simp only [passing]
    split
    next => trivial
    next => exact ⟨h.1, Nat.zero_le 1⟩

/-- A line break is shown, and the scanner goes on in the region after it. -/
theorem scan_break {x : Char} (h : d.Plain x) (hx : x = '\r' ∨ x = '\n') (comments : Bool)
    {region : Region} (hr : Unbothered x region) (settled : Settled region) (rest : Text) :
    scan d comments region (x :: rest) = x :: scan d comments (passing x region) rest := by
  rw [scan, ← leave_enter_plain h hr settled rest]
  simp only [shown_break comments _ hx]

/-- After a lone "\r" a scanner is where it is after "\n". -/
theorem passing_return {region : Region} {rest : Text} (hrest : rest.head? ≠ some '\n')
    (alike : returnAlike region rest = true) : passing '\r' region = passing '\n' region := by
  cases region with
  | lineComment => exact absurd (by simpa [returnAlike] using alike) hrest
  | literal quote n => simp [passing]
  | _ => rfl

/-- After "\r\n" a scanner is where it is after "\n". -/
theorem passing_newline_passing_return {region : Region} {rest : Text}
    (alike : returnAlike region ('\n' :: rest) = true) :
    passing '\n' (passing '\r' region) = passing '\n' region := by
  cases region with
  | literal quote n =>
    by_cases hone : quote.length = 1
    · have hn : n = 0 := by simpa [returnAlike, hone] using alike
      simp [passing, hone, hn]
    · simp [passing, hone]
  | _ => rfl

/-- The masked text with its line breaks unified is the unified text masked. -/
theorem unify_scan (hr : d.Plain '\r') (hn : d.Plain '\n') (comments : Bool) {region : Region}
    {text : Text} (heldr : Held '\r' region text) (heldn : Held '\n' region text)
    (alike : breaksAlike d region text = true) :
    (scan d comments region text).unify = scan d comments region text.unify := by
  have ur := unbothered_of_held heldr
  have un := unbothered_of_held heldn
  fun_induction Text.unify text generalizing region with
  | case1 => rfl
  | case2 rest ih =>
    -- Both scanners go on after the break in the region that follows "\n".
    have settled := settled_of_held heldr
    have un' := unbothered_passing '\r' un
    have settled' := settled_passing '\r' settled
    have hreturn := leave_enter_plain hr ur settled ('\n' :: rest)
    have hnewline := leave_enter_plain hn un' settled' rest
    simp only [breaksAlike, hreturn, hnewline, Bool.and_eq_true] at alike
    have hafter := @passing_newline_passing_return region rest (by simpa using alike.1)
    have hheld {x : Char} (hx : d.Plain x) (held : Held x region ('\r' :: '\n' :: rest)) :
        Held x (passing '\n' region) rest := by
      have h := held_step hx.toAlien held
      rw [hreturn] at h
      have h := held_step hx.toAlien h
      rwa [hnewline, hafter] at h
    have hnext := ih (hheld hr heldr) (hheld hn heldn) (hafter ▸ alike.2.2)
      (unbothered_passing '\n' ur) (unbothered_passing '\n' un)
    rw [scan_break hr (Or.inl rfl) comments ur settled,
      scan_break hn (Or.inr rfl) comments un' settled',
      scan_break hn (Or.inr rfl) comments un settled, hafter, ← hnext]
    rfl
  | case3 rest hrest ih =>
    have settled := settled_of_held heldr
    have hreturn := leave_enter_plain hr ur settled rest
    simp only [breaksAlike, hreturn, Bool.and_eq_true] at alike
    have hhead : rest.head? ≠ some '\n' := by
      intro h
      obtain ⟨more, hmore⟩ := List.head?_eq_some_iff.mp h
      exact hrest more hmore
    have hafter := passing_return hhead (by simpa using alike.1)
    have hstepr := held_step hr.toAlien heldr
    have hstepn := held_step hn.toAlien heldn
    rw [hreturn, hafter] at hstepr hstepn
    have hnext := ih hstepr hstepn (hafter ▸ alike.2) (unbothered_passing '\n' ur)
      (unbothered_passing '\n' un)
    rw [scan_break hr (Or.inl rfl) comments ur settled,
      scan_break hn (Or.inr rfl) comments un settled, hafter, ← hnext]
    apply Text.unify.eq_3
    intro more hmore
    obtain ⟨more', hmore'⟩ := of_scan_eq_newline hmore
    exact hrest more' hmore'
  | case4 c rest hpair hreturn ih =>
    have hc : c ≠ '\r' := fun h => hreturn h
    simp only [breaksAlike, Bool.and_eq_true] at alike
    have hstepr := held_step hr.toAlien heldr
    have hstepn := held_step hn.toAlien heldn
    have hnext := ih hstepr hstepn alike.2 (unbothered_of_held hstepr) (unbothered_of_held hstepn)
    simp only [scan, enter_unify hr.toAlien hn.toAlien ur un rest hc, ← hnext]
    apply Text.unify_cons
    rcases shown_eq_or comments (enter d region c rest) c with hshown | ⟨hshown, -⟩
    · rwa [hshown]
    · rw [hshown]
      decide

end Mask

/-- Line breaks are plain in every known dialect. -/
theorem Dialect.plain_of_known {d : Dialect} (known : d ∈ Dialect.known) :
    d.Plain '\r' ∧ d.Plain '\n' := by
  have hd : d = .python ∨ d = .swift := by simpa [Dialect.known] using known
  rcases hd with rfl | rfl
  · constructor
    all_goals exact Mask.python_plain (by decide) (by decide) (by decide) (by decide)
  · constructor
    all_goals exact Mask.swift_plain (by decide) (by decide) (by decide) (by decide)

/-- A text and its copy with unified line breaks have the same code and the same directives, where
the scanner makes no difference between the breaks. -/
theorem mask_unify {d : Dialect} (known : d ∈ Dialect.known) {text : Text}
    (alike : Mask.breaksAlike d .code text = true) :
    (∀ comments, (mask text d comments).unify = mask text.unify d comments) ∧
      Directive.ofText text.unify d = Directive.ofText text d := by
  obtain ⟨hreturn, hnewline⟩ := Dialect.plain_of_known known
  have hmask (comments : Bool) : (mask text d comments).unify = mask text.unify d comments :=
    Mask.unify_scan hreturn hnewline comments trivial trivial alike
  refine ⟨hmask, ?_⟩
  simp only [Directive.ofText, ← hmask, Text.splitLines_unify]

theorem mask_unify_windows :
    let text : Text := "# lintcheck:disable all\r\nx = 'a'\ry = '''b\\\r\nc'''\r\n".toList
    Dialect.python ∈ Dialect.known ∧ Mask.breaksAlike .python .code text = true ∧
      (mask text .python).unify = mask text.unify .python ∧
      (Directive.ofText text.unify .python).length = 1 := by
  intro text
  have known : Dialect.python ∈ Dialect.known := by decide
  have alike : Mask.breaksAlike .python .code text = true := by decide +kernel
  obtain ⟨hmask, hdirectives⟩ := mask_unify known alike
  refine ⟨known, alike, hmask true, ?_⟩
  rw [hdirectives]
  decide +kernel

/-- A lone "\r" ends no line comment, and an escaped "\r\n" is not an escaped "\n". -/
theorem mask_unify_fails :
    let commented : Text := "# a\rx = '# lintcheck:disable all'\n".toList
    let escaped : Text := "x = 'a\\\r\n# lintcheck:disable all'\n".toList
    (mask commented .python).unify ≠ mask commented.unify .python ∧
      (mask escaped .python false).unify ≠ mask escaped.unify .python false ∧
      ∀ text ∈ [commented, escaped], (Directive.ofText text .python).length = 1 ∧
        Directive.ofText text.unify .python = [] := by
  decide +kernel

end StyleRules
