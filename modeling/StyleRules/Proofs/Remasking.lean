import StyleRules.Proofs.MaskRounds

namespace StyleRules

/-- A character that a mask may have put there: a space, or a line break that was there before. -/
def Mask.Blanked (x : Char) : Prop := x = ' ' ∨ x = '\r' ∨ x = '\n'

/-- A dialect whose delimiters can be seen in a masked text: none is empty, and none has a space or
a line break in it. -/
structure Dialect.Visible (d : Dialect) : Prop where
  lineComment : d.lineComment ≠ []
  blockComment : ∀ delimiters ∈ d.blockComment, delimiters.1 ≠ [] ∧ delimiters.2 ≠ []
  alien : ∀ x, Mask.Blanked x → d.Alien x

theorem Dialect.Visible.delimited {d : Dialect} (h : d.Visible) : d.Delimited where
  lineComment := by
    refine ⟨h.lineComment, fun hhead => ?_⟩
    exact (h.alien '\n' (Or.inr (Or.inr rfl))).lineComment (List.mem_of_head? hhead)
  blockComment := h.blockComment

namespace Mask

variable {d : Dialect} {c : Char} {rest : Text}

theorem blanked_blank (c : Char) : Blanked (blank c) := by
  unfold blank
  split
  next hc => exact Or.inr hc
  next => exact Or.inl rfl

/-- Code is read where no delimiter starts. -/
theorem opens_eq_code (hline : Text.startsWith d.lineComment (c :: rest) = false)
    (hblock : ∀ delimiters ∈ d.blockComment, Text.startsWith delimiters.1 (c :: rest) = false)
    (hquote : [c] ∉ d.quotes) : opens d c rest = .code := by
  rw [opens_of_neither hline hblock, openingQuote, if_neg hquote]
  rfl

theorem opens_of_blanked (h : d.Visible) (hc : Blanked c) (rest : Text) :
    opens d c rest = .code := by
  have alien := h.alien c hc
  apply opens_eq_code
  · exact Text.startsWith_of_not_mem rest h.lineComment alien.lineComment
  · intro delimiters hmem
    exact Text.startsWith_of_not_mem rest (h.blockComment _ hmem).1 (alien.blockComment _ hmem).1
  · exact alien.quotes

section Echo

variable {comments : Bool} {region : Region} {needle more : Text}

/-- Where a scanner of the masked text is while a scanner of the text is in a region: what is
blanked out is code to it. -/
def echo (comments : Bool) : Region → Region
  | .code | .literal .. | .literalEnd _ => .code
  | region => if comments then .code else region

/-- A delimiter that the masked text starts with stood in the text. -/
theorem startsWith_of_masked (hneedle : ∀ x ∈ needle, ¬Blanked x)
    (hstart : Text.startsWith needle (c :: rest) = false) :
    Text.startsWith needle (c :: scan d comments region rest) = false := by
  cases needle with
  | nil => cases hstart
  | cons a needle =>
    apply Bool.eq_false_iff.mpr
    intro hmasked
    simp only [Text.startsWith, List.isPrefixOf, Bool.and_eq_true, beq_iff_eq] at hmasked
    have hrest : Text.startsWith needle rest = true := by
      apply startsWith_of_scan (fun x hx => ?_) hmasked.2
      have hx := hneedle x (List.mem_cons_of_mem a hx)
      exact ⟨fun hs => hx (Or.inl hs), fun hb => hx (Or.inr hb)⟩
    have hwhole : Text.startsWith (a :: needle) (c :: rest) = true := by
      simp only [Text.startsWith, List.isPrefixOf, Bool.and_eq_true, beq_iff_eq]
      exact ⟨hmasked.1, hrest⟩
    rw [hstart] at hwhole
    cases hwhole

/-- A delimiter stays where what is left of it is passed in a comment that is kept. -/
theorem startsWith_kept {held : Nat → Region}
    (henter : ∀ n c rest, enter d (held (n + 1)) c rest = held (n + 1))
    (hleave : ∀ n c, leave (held (n + 1)) c = held n)
    (hshown : ∀ n c, shown false (held (n + 1)) c = c)
    (hstart : Text.startsWith needle (c :: rest) = true) (hne : needle ≠ []) :
    Text.startsWith needle (c :: scan d false (leave (held needle.length) c) rest) = true := by
  obtain ⟨a, needle, rfl⟩ := List.exists_cons_of_ne_nil hne
  obtain ⟨after, hafter⟩ := Text.exists_of_startsWith hstart
  obtain ⟨rfl, rfl⟩ := List.cons.inj hafter
  have hpending := scan_pending henter hleave (f := id) hshown needle after
  rw [List.length_cons, hleave, List.append_eq, hpending, List.map_id, ← List.cons_append]
  exact Text.startsWith_append _ _

theorem startsWith_lineComment_kept (h : d.Visible)
    (hstart : Text.startsWith d.lineComment (c :: rest) = true) :
    Text.startsWith d.lineComment (c :: scan d false .lineComment rest) = true := by
  have hnewline := (h.alien '\n' (Or.inr (Or.inr rfl))).lineComment
  obtain ⟨a, more, hcomment⟩ := List.exists_cons_of_ne_nil h.lineComment
  rw [hcomment] at hstart hnewline ⊢
  obtain ⟨after, hafter⟩ := Text.exists_of_startsWith hstart
  obtain ⟨rfl, rfl⟩ := List.cons.inj hafter
  have hmore : ∀ x ∈ more, x ≠ '\n' := by
    rintro x hx rfl
    exact hnewline (List.mem_cons_of_mem _ hx)
  have hsame : more.map (shown false .lineComment) = more := List.map_id more
  rw [List.append_eq, scan_lineComment false after hmore, hsame, ← List.cons_append]
  exact Text.startsWith_append _ _

/-- Where a text opens a region, the masked text opens what is left of it. -/
theorem opens_echo (h : d.Visible) :
    opens d (shown comments (opens d c rest) c)
        (scan d comments (leave (opens d c rest) c) rest) = echo comments (opens d c rest) := by
  have hmasked {region : Region} {needle : Text} :=
    @startsWith_of_masked d c rest comments region needle
  have hunblanked {needle : Text} (hneedle : ∀ x, d.Alien x → x ∉ needle) :
      ∀ x ∈ needle, ¬Blanked x := fun x hx hb => hneedle x (h.alien x hb) hx
  cases hline : Text.startsWith d.lineComment (c :: rest) with
  | true =>
    rw [opens_of_lineComment h.delimited hline]
    cases comments with
    | true => exact opens_of_blanked h (blanked_blank c) _
    | false => exact opens_of_lineComment h.delimited (startsWith_lineComment_kept h hline)
  | false =>
    by_cases hblock : ∃ delimiters ∈ d.blockComment,
        Text.startsWith delimiters.1 (c :: rest) = true
    · obtain ⟨⟨opening, closing⟩, hmem, hstart⟩ := hblock
      obtain ⟨hopening, -⟩ : opening ≠ [] ∧ closing ≠ [] := h.blockComment _ hmem
      rw [opens_of_blockComment h.delimited hline hmem hstart]
      cases comments with
      | true => exact opens_of_blanked h (blanked_blank c) _
      | false =>
        have hkept := @startsWith_kept d c rest opening .blockComment (fun _ _ _ => rfl)
          (fun _ _ => rfl) (fun _ _ => rfl) hstart hopening
        have hother := @hmasked (leave (.blockComment opening.length) c) d.lineComment
          (hunblanked fun x hx => hx.lineComment) hline
        exact opens_of_blockComment h.delimited hother hmem hkept
    · have hneither : ∀ delimiters ∈ d.blockComment,
          Text.startsWith delimiters.1 (c :: rest) = false := by
        intro delimiters hmem
        exact Bool.eq_false_iff.mpr fun hstart => hblock ⟨delimiters, hmem, hstart⟩
      have hopens := opens_of_neither hline hneither
      cases hquote : openingQuote d.quotes c rest with
      | some quote =>
        rw [hopens, hquote]
        exact opens_of_blanked h (blanked_blank c) _
      | none =>
        have hnone : [c] ∉ d.quotes := by
          intro hc
          rw [openingQuote, if_pos hc] at hquote
          cases hquote
        rw [hopens, hquote]
        apply opens_eq_code (hmasked (hunblanked fun x hx => hx.lineComment) hline) _ hnone
        intro delimiters hmem
        exact hmasked (hunblanked fun x hx => (hx.blockComment _ hmem).1) (hneither _ hmem)

theorem enter_echo_lineComment (h : d.Visible) :
    enter d (echo comments .lineComment) (shown comments (enter d .lineComment c rest) c)
        (scan d comments (leave (enter d .lineComment c rest) c) rest) =
      echo comments (enter d .lineComment c rest) := by
  by_cases hc : c = '\n'
  · have hbreak (more : Text) : opens d c more = .code :=
      opens_of_blanked h (Or.inr (Or.inr hc)) more
    have hcode (more : Text) : enter d .lineComment c more = .code := by
      rw [enter, if_pos hc, hbreak]
    rw [hcode]
    cases comments with
    | true => exact hbreak _
    | false => exact hcode _
  · have hstays (more : Text) : enter d .lineComment c more = .lineComment := if_neg hc
    rw [hstays]
    cases comments with
    | true => exact opens_of_blanked h (blanked_blank c) _
    | false => exact hstays _

theorem enter_echo_blockComment (h : d.Visible) :
    enter d (echo comments (.blockComment 0)) (shown comments (enter d (.blockComment 0) c rest) c)
        (scan d comments (leave (enter d (.blockComment 0) c rest) c) rest) =
      echo comments (enter d (.blockComment 0) c rest) := by
  have hblanked (more : Text) : enter d .code (blank c) more = .code :=
    opens_of_blanked h (blanked_blank c) more
  cases hblock : d.blockComment with
  | none =>
    have hstays (more : Text) : enter d (.blockComment 0) c more = .blockComment 0 := by
      simp only [enter, hblock]
    rw [hstays]
    cases comments with
    | true => exact hblanked _
    | false => exact hstays _
  | some delimiters =>
    obtain ⟨opening, closing⟩ := delimiters
    obtain ⟨-, hclosing⟩ : opening ≠ [] ∧ closing ≠ [] := h.blockComment _ hblock
    have henter (more : Text) : enter d (.blockComment 0) c more =
        if Text.startsWith closing (c :: more) then .blockEnd closing.length
        else .blockComment 0 := by
      simp only [enter, hblock]
    cases hstart : Text.startsWith closing (c :: rest) with
    | true =>
      rw [henter rest, if_pos hstart]
      cases comments with
      | true => exact hblanked _
      | false =>
        have hkept := @startsWith_kept d c rest closing .blockEnd (fun _ _ _ => rfl)
          (fun _ _ => rfl) (fun _ _ => rfl) hstart hclosing
        exact (henter _).trans (if_pos hkept)
    | false =>
      have hstart' := Bool.eq_false_iff.mp hstart
      rw [henter rest, if_neg hstart']
      cases comments with
      | true => exact hblanked _
      | false =>
        have hother := @startsWith_of_masked d c rest false (.blockComment 0) closing
          (fun x hx hb => ((h.alien x hb).blockComment _ hblock).2 hx) hstart
        exact (henter _).trans (if_neg (Bool.eq_false_iff.mp hother))

theorem enter_echo_literal (h : d.Visible) (quote : Text) :
    enter d (echo comments (.literal quote 0)) (shown comments (enter d (.literal quote 0) c rest) c)
        (scan d comments (leave (enter d (.literal quote 0) c rest) c) rest) =
      echo comments (enter d (.literal quote 0) c rest) := by
  have hblanked (more : Text) : enter d .code (blank c) more = .code :=
    opens_of_blanked h (blanked_blank c) more
  have henter : enter d (.literal quote 0) c rest =
      if Text.startsWith quote (c :: rest) then .literalEnd quote.length
      else if quote.length = 1 ∧ (c = '\r' ∨ c = '\n') then opens d c rest
      else .literal quote 0 := rfl
  by_cases hclosed : Text.startsWith quote (c :: rest) = true
  · rw [henter, if_pos hclosed]
    exact hblanked _
  · by_cases hbreak : quote.length = 1 ∧ (c = '\r' ∨ c = '\n')
    · rw [henter, if_neg hclosed, if_pos hbreak]
      exact opens_echo h
    · rw [henter, if_neg hclosed, if_neg hbreak]
      exact hblanked _

/-- While a scanner of a text goes through a region, one of the masked text goes through what is
left of it. -/
theorem enter_echo (h : d.Visible) :
    enter d (echo comments region) (shown comments (enter d region c rest) c)
        (scan d comments (leave (enter d region c rest) c) rest) =
      echo comments (enter d region c rest) := by
  have hopens := @opens_echo d c rest comments h
  have hblanked (more : Text) : enter d .code (blank c) more = .code :=
    opens_of_blanked h (blanked_blank c) more
  cases region with
  | code => exact hopens
  | lineComment => exact enter_echo_lineComment h
  | blockComment n =>
    cases n with
    | zero => exact enter_echo_blockComment h
    | succ n =>
      cases comments with
      | true => exact hblanked _
      | false => rfl
  | blockEnd n =>
    cases n with
    | zero =>
      cases comments with
      | true => exact hopens
      | false => exact hopens
    | succ n =>
      cases comments with
      | true => exact hblanked _
      | false => rfl
  | literal quote n =>
    cases n with
    | zero => exact enter_echo_literal h quote
    | succ n => exact hblanked _
  | literalEnd n =>
    cases n with
    | zero => exact hopens
    | succ n => exact hblanked _

theorem leave_echo (a b : Char) :
    leave (echo comments region) a = echo comments (leave region b) := by
  cases region with
  | code => rfl
  | literal quote n =>
    cases n with
    | succ n => rfl
    | zero =>
      have hleave : leave (.literal quote 0) b =
          if b = '\\' then .literal quote 1 else .literal quote 0 := rfl
      rw [hleave]
      split
      next => rfl
      next => rfl
  | literalEnd n =>
    cases n with
    | zero => rfl
    | succ n => rfl
  | lineComment =>
    cases comments with
    | true => rfl
    | false => rfl
  | blockComment n =>
    cases comments with
    | true => cases n <;> rfl
    | false => cases n <;> rfl
  | blockEnd n =>
    cases comments with
    | true => cases n <;> rfl
    | false => cases n <;> rfl

theorem shown_echo (again : Bool) :
    shown again (echo comments region) (shown comments region c) =
      shown (comments || again) region c := by
  cases comments with
  | true => cases region <;> rfl
  | false => cases region <;> rfl

/-- Scanning a masked text shows what scanning the text shows that blanks out what either does. -/
theorem scan_echo (h : d.Visible) (again : Bool) (region : Region) (text : Text) :
    scan d again (echo comments region) (scan d comments region text) =
      scan d (comments || again) region text := by
  induction text generalizing region with
  | nil => rfl
  | cons c rest ih =>
    simp only [scan]
    rw [enter_echo h, shown_echo, leave_echo _ c, ih]

end Echo

theorem mask_mask (h : d.Visible) (comments again : Bool) (text : Text) :
    mask (mask text d comments) d again = mask text d (comments || again) :=
  scan_echo h again .code text

theorem visible_of_known (known : d ∈ Dialect.known) : d.Visible := by
  have hd : d = .python ∨ d = .swift := by simpa [Dialect.known] using known
  rcases hd with rfl | rfl
  · refine ⟨by decide, by decide, ?_⟩
    rintro x (rfl | rfl | rfl)
    all_goals exact (python_plain (by decide) (by decide) (by decide) (by decide)).toAlien
  · refine ⟨by decide, by decide, ?_⟩
    rintro x (rfl | rfl | rfl)
    all_goals exact swift_alien (by decide) (by decide) (by decide)

/-- Masking a masked text changes it only where comments were kept and are blanked out now, and then
it gives the text with both blanked out. So the directives of a text are those of its mask. -/
theorem mask_idempotent (h : d.Visible) (text : Text) :
    mask (mask text d false) d false = mask text d false ∧
      mask (mask text d true) d true = mask text d true ∧
      mask (mask text d false) d true = mask text d true ∧
      mask (mask text d true) d false = mask text d true ∧
      Directive.ofText (mask text d false) d = Directive.ofText text d := by
  refine ⟨mask_mask h false false text, mask_mask h true true text, mask_mask h false true text,
    mask_mask h true false text, ?_⟩
  rw [Directive.ofText, Directive.ofText, mask_mask h false false text]
  rfl

/-- A comment opens in a literal and a literal in a comment, and nothing closes the last literal. -/
theorem mask_idempotent_nested :
    let text : Text :=
      "a \"/* b\" /* \"c */ d // lintcheck:disable e \"f\n\"\"\"g // lintcheck:disable all".toList
    Dialect.swift.Visible ∧
      mask (mask text .swift false) .swift =
        "a                 d                          \n                             ".toList ∧
      (Directive.ofText (mask text .swift false) .swift).map (·.rules) = [["e".toList]] := by
  intro text
  have visible : Dialect.swift.Visible := visible_of_known (by decide)
  obtain ⟨-, -, hboth, -, hdirectives⟩ := mask_idempotent visible text
  refine ⟨visible, ?_, ?_⟩
  · rw [hboth]
    decide +kernel
  · rw [hdirectives]
    decide +kernel

end Mask

end StyleRules
