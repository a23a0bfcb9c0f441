import StyleRules.Mask
import StyleRules.Proofs.Lines
import StyleRules.Proofs.Words

namespace StyleRules

/-- A character that stands in no delimiter of the dialect. -/
structure Dialect.Alien (d : Dialect) (x : Char) : Prop where
  lineComment : x ∉ d.lineComment
  blockComment : ∀ delimiters ∈ d.blockComment, x ∉ delimiters.1 ∧ x ∉ delimiters.2
  quotes : [x] ∉ d.quotes

namespace Mask

variable {d : Dialect} {x : Char}

/-- The region that a scanner is in after a text. -/
def endOf (d : Dialect) (region : Region) : Text → Region
  | [] => region
  | c :: rest => endOf d (leave (enter d region c rest) c) rest

/-- A region whose end does not depend on a character. -/
def Unbothered (x : Char) : Region → Prop
  | .literal quote _ => x ∉ quote
  | _ => True

theorem openingQuote_spec {quotes : List Text} {c : Char} {rest quote : Text}
    (h : openingQuote quotes c rest = some quote) : [c] ∈ quotes ∧ ∀ a ∈ quote, a = c := by
  unfold openingQuote at h
  split at h
  next hc =>
    cases Option.some.inj h
    refine ⟨hc, ?_⟩
    intro a ha
    split at ha
    · simpa using ha
    · simpa using ha
  next => cases h

theorem openingQuote_append (quotes : List Text) (c : Char) (text rest : Text) (hx : [x] ∉ quotes) :
    openingQuote quotes c (text ++ x :: rest) = openingQuote quotes c text := by
  unfold openingQuote
  split
  next hc =>
    have hne : x ≠ c := by
      rintro rfl
      exact hx hc
    rw [Text.startsWith_append_of_foreign text (Text.foreign_cons rest (by simp [hne]))]
  next => rfl

theorem opens_append (h : d.Alien x) (c : Char) (text rest : Text) :
    opens d c (text ++ x :: rest) = opens d c text := by
  have hstart : ∀ needle : Text, x ∉ needle →
      Text.startsWith needle (c :: (text ++ x :: rest)) = Text.startsWith needle (c :: text) :=
    fun needle hx => Text.startsWith_append_of_foreign (c :: text) (Text.foreign_cons rest hx)
  unfold opens
  rw [hstart _ h.lineComment, openingQuote_append d.quotes c text rest h.quotes]
  cases hb : d.blockComment with
  | none => rfl
  | some delimiters =>
    obtain ⟨hopening, hclosing⟩ := h.blockComment delimiters hb
    simp only [hstart _ hopening, hstart _ hclosing]

theorem enter_append (h : d.Alien x) {region : Region} (hr : Unbothered x region) (c : Char)
    (text rest : Text) : enter d region c (text ++ x :: rest) = enter d region c text := by
  have hstart : ∀ needle : Text, x ∉ needle →
      Text.startsWith needle (c :: (text ++ x :: rest)) = Text.startsWith needle (c :: text) :=
    fun needle hx => Text.startsWith_append_of_foreign (c :: text) (Text.foreign_cons rest hx)
  have hopens := opens_append h c text rest
  unfold enter
  split
  · exact hopens
  · rw [hopens]
  · cases hb : d.blockComment with
    | none => rfl
    | some delimiters => simp only [hstart _ (h.blockComment delimiters hb).2]
  · exact hopens
  · rw [hstart _ hr, hopens]
  · exact hopens
  · rfl

theorem unbothered_opens (h : d.Alien x) (c : Char) (rest : Text) :
    Unbothered x (opens d c rest) := by
  have hquote : Unbothered x
      ((openingQuote d.quotes c rest).elim .code fun quote => .literal quote quote.length) := by
    cases hq : openingQuote d.quotes c rest with
    | none => trivial
    | some quote =>
      obtain ⟨hc, hall⟩ := openingQuote_spec hq
      intro hx
      rw [hall x hx] at h
      exact h.quotes hc
  unfold opens
  split
  · split
    · trivial
    · trivial
  · split
    · split
      · split
        · trivial
        · split
          · trivial
          · trivial
      · exact hquote
    · exact hquote

theorem unbothered_leave {region : Region} (hr : Unbothered x region) (c : Char) :
    Unbothered x (leave region c) := by
  unfold leave
  split
  · trivial
  · trivial
  · split
    · exact hr
    · exact hr
  · exact hr
  · trivial
  · exact hr

theorem unbothered_enter (h : d.Alien x) {region : Region} (hr : Unbothered x region) (c : Char)
    (rest : Text) : Unbothered x (enter d region c rest) := by
  have hopens := unbothered_opens h c rest
  unfold enter
  split
  · exact hopens
  · split
    · exact hopens
    · trivial
  · split
    · split
      · trivial
      · trivial
    · trivial
  · exact hopens
  · split
    · trivial
    · split
      · exact hopens
      · exact hr
  · exact hopens
  · exact hr

/-- A text may be scanned in two parts if the second starts with an alien character. -/
theorem scan_append (h : d.Alien x) (comments : Bool) {region : Region} (hr : Unbothered x region)
    (text rest : Text) :
    scan d comments region (text ++ x :: rest) =
      scan d comments region text ++ scan d comments (endOf d region text) (x :: rest) := by
  induction text generalizing region with
  | nil => rfl
  | cons c text ih =>
    have hnext := ih (unbothered_leave (unbothered_enter h hr c text) c)
    rw [List.cons_append, scan]
    simp only [enter_append h hr, hnext, scan, endOf, List.cons_append]

/-- A line comment goes on up to a line feed. -/
theorem scan_lineComment {line : Text} (comments : Bool) (rest : Text)
    (h : ∀ c ∈ line, c ≠ '\n') :
    scan d comments .lineComment (line ++ rest) =
      line.map (shown comments .lineComment) ++ scan d comments .lineComment rest := by
  induction line with
  | nil => rfl
  | cons c line ih =>
    have hline := ih fun x hx => h x (List.mem_cons_of_mem c hx)
    simp [scan, enter, leave, h c (by simp), hline]

/-- A line that starts as a comment is one, whatever follows it. -/
theorem scan_comment_line {line : Text} (comments : Bool) (rest : Text) (hne : d.lineComment ≠ [])
    (hstart : d.lineComment <+: line) (h : ∀ c ∈ line, c ≠ '\n') :
    scan d comments .code (line ++ rest) =
      line.map (shown comments .lineComment) ++ scan d comments .lineComment rest := by
  cases line with
  | nil => exact absurd (List.prefix_nil.mp hstart) hne
  | cons c line =>
    have hopens : opens d c (line ++ rest) = .lineComment := by
      have hs : Text.startsWith d.lineComment (c :: (line ++ rest)) = true :=
        List.isPrefixOf_iff_prefix.mpr (hstart.trans (List.prefix_append (c :: line) _))
      simp [opens, hs, h c (by simp)]
    have hline := @scan_lineComment d line comments rest fun x hx => h x (List.mem_cons_of_mem c hx)
    rw [List.cons_append, scan]
    simp only [enter, hopens, leave, hline, List.map_cons, List.cons_append]

theorem length_scan (d : Dialect) (comments : Bool) (region : Region) (text : Text) :
    (scan d comments region text).length = text.length := by
  induction text generalizing region with
  | nil => rfl
  | cons c text ih => simp [scan, ih]

theorem drop_scan (d : Dialect) (comments : Bool) (region : Region) (n : Nat) (text : Text) :
    ∃ after, (scan d comments region text).drop n = scan d comments after (text.drop n) := by
  induction n generalizing region text with
  | zero => exact ⟨region, rfl⟩
  | succ n ih =>
    cases text with
    | nil => exact ⟨region, rfl⟩
    | cons c rest => exact ih _ rest

theorem blank_break {c : Char} (h : c = '\r' ∨ c = '\n') : blank c = c := if_pos h

/-- Line breaks are shown in every region. -/
theorem shown_break (comments : Bool) (region : Region) {c : Char} (h : c = '\r' ∨ c = '\n') :
    shown comments region c = c := by
  unfold shown
  split
  · rfl
  · rw [blank_break h, ite_self]
  · rw [blank_break h, ite_self]
  · rw [blank_break h, ite_self]
  · exact blank_break h
  · exact blank_break h

theorem shown_eq_or (comments : Bool) (region : Region) (c : Char) :
    shown comments region c = c ∨ (shown comments region c = ' ' ∧ ¬(c = '\r' ∨ c = '\n')) := by
  by_cases hc : c = '\r' ∨ c = '\n'
  · exact Or.inl (shown_break comments region hc)
  · have hb : blank c = ' ' := if_neg hc
    unfold shown
    split
    · exact Or.inl rfl
    · split
      · exact Or.inr ⟨hb, hc⟩
      · exact Or.inl rfl
    · split
      · exact Or.inr ⟨hb, hc⟩
      · exact Or.inl rfl
    · split
      · exact Or.inr ⟨hb, hc⟩
      · exact Or.inl rfl
    · exact Or.inr ⟨hb, hc⟩
    · exact Or.inr ⟨hb, hc⟩

/-- Masking makes no line feed. -/
theorem scan_ne_newline {comments : Bool} {region : Region} {text : Text}
    (h : ∀ rest, text ≠ '\n' :: rest) (rest : Text) :
    scan d comments region text ≠ '\n' :: rest := by
  intro hscan
  cases text with
  | nil => cases hscan
  | cons c text =>
    simp only [scan, List.cons.injEq] at hscan
    rcases shown_eq_or comments (enter d region c text) c with hc | ⟨hc, -⟩
    · rw [hc] at hscan
      exact h text (by rw [hscan.1])
    · rw [hc] at hscan
      exact absurd hscan.1 (by decide)

/-- What is no line break becomes none. -/
theorem shown_ne_break (comments : Bool) (region : Region) {c : Char} (hr : c ≠ '\r')
    (hn : c ≠ '\n') : shown comments region c ≠ '\r' ∧ shown comments region c ≠ '\n' := by
  rcases shown_eq_or comments region c with hc | ⟨hc, -⟩
  · rw [hc]
    exact ⟨hr, hn⟩
  · rw [hc]
    decide

/-- Masking keeps every line break in place. -/
theorem breakEnds_scan (comments : Bool) (region : Region) (offset : Nat) (text : Text) :
    (scan d comments region text).breakEnds offset = text.breakEnds offset := by
  fun_induction Text.breakEnds offset text generalizing region with
  | case1 => rfl
  | case2 offset rest ih =>
    simp only [scan, shown_break _ _ (Or.inl rfl), shown_break _ _ (Or.inr rfl), Text.breakEnds, ih]
  | case3 offset rest hrest ih =>
    simp only [scan, shown_break _ _ (Or.inl rfl)]
    rw [Text.breakEnds.eq_3 _ _ (scan_ne_newline hrest), ih]
  | case4 offset rest ih =>
    simp only [scan, shown_break _ _ (Or.inr rfl), Text.breakEnds, ih]
  | case5 offset c rest hpair hreturn hnewline ih =>
    simp only [scan]
    obtain ⟨hr, hn⟩ := shown_ne_break comments (enter d region c rest) hreturn hnewline
    rw [Text.breakEnds.eq_5 _ _ _ (fun _ h _ => hr h) hr hn, ih]

/-- Masking keeps every line as long as it is. -/
theorem length_segments_scan (comments : Bool) (region : Region) (text : Text) :
    (Text.segments (scan d comments region text)).map List.length =
      (Text.segments text).map List.length := by
  fun_induction Text.segments text generalizing region with
  | case1 => rfl
  | case2 rest ih =>
    simp only [scan, shown_break _ _ (Or.inl rfl), shown_break _ _ (Or.inr rfl), Text.segments,
      List.map_cons, ih]
  | case3 rest hrest ih =>
    simp only [scan, shown_break _ _ (Or.inl rfl)]
    rw [Text.segments.eq_3 _ (scan_ne_newline hrest), List.map_cons, List.map_cons, ih]
  | case4 rest ih =>
    simp only [scan, shown_break _ _ (Or.inr rfl), Text.segments, List.map_cons, ih]
  | case5 c rest hpair hreturn hnewline line lines hlines ih =>
    simp only [scan]
    obtain ⟨hr, hn⟩ := shown_ne_break comments (enter d region c rest) hreturn hnewline
    obtain ⟨first, more, hfirst, hcons⟩ :=
      Text.segments_cons (scan d comments (leave (enter d region c rest) c) rest) hr hn
    have hrest := ih (leave (enter d region c rest) c)
    rw [hfirst, hlines, List.map_cons, List.map_cons, List.cons.injEq] at hrest
    rw [hcons, List.map_cons, List.map_cons, List.length_cons, List.length_cons, hrest.1, hrest.2]
  | case6 c rest _ _ _ hnone ih => exact absurd hnone (Text.segments_ne_nil rest)

/-- A character that is no space and no line break shows that it stood there already, and that it
is code where comments are blanked out. -/
theorem of_shown_eq {comments : Bool} {region : Region} {c : Char} (hs : x ≠ ' ')
    (hb : ¬(x = '\r' ∨ x = '\n')) (h : shown comments region c = x) :
    c = x ∧ (comments = true → region = .code) := by
  have hblank : blank c ≠ x := by
    intro hc
    unfold blank at hc
    split at hc
    next hbreak => exact hb (hc ▸ hbreak)
    next => exact hs hc.symm
  unfold shown at h
  split at h
  · exact ⟨h, fun _ => rfl⟩
  · cases comments with
    | false => exact ⟨h, fun hf => absurd hf (by decide)⟩
    | true => exact absurd h hblank
  · cases comments with
    | false => exact ⟨h, fun hf => absurd hf (by decide)⟩
    | true => exact absurd h hblank
  · cases comments with
    | false => exact ⟨h, fun hf => absurd hf (by decide)⟩
    | true => exact absurd h hblank
  · exact absurd h hblank
  · exact absurd h hblank

theorem of_scan_eq_cons {comments : Bool} {region : Region} {text more : Text} (hs : x ≠ ' ')
    (hb : ¬(x = '\r' ∨ x = '\n')) (h : scan d comments region text = x :: more) :
    ∃ rest, text = x :: rest ∧ (comments = true → enter d region x rest = .code) := by
  cases text with
  | nil => cases h
  | cons c rest =>
    simp only [scan, List.cons.injEq] at h
    obtain ⟨rfl, hcode⟩ := of_shown_eq hs hb h.1
    exact ⟨rest, rfl, hcode⟩

theorem startsWith_of_scan {comments : Bool} {region : Region} {needle text : Text}
    (hneedle : ∀ c ∈ needle, c ≠ ' ' ∧ ¬(c = '\r' ∨ c = '\n'))
    (h : Text.startsWith needle (scan d comments region text) = true) :
    Text.startsWith needle text = true := by
  induction needle generalizing region text with
  | nil => cases text <;> rfl
  | cons c needle ih =>
    cases text with
    | nil => exact h
    | cons a rest =>
      simp only [scan, Text.startsWith, List.isPrefixOf, Bool.and_eq_true, beq_iff_eq] at h ⊢
      obtain ⟨hs, hb⟩ := hneedle c (by simp)
      refine ⟨(of_shown_eq hs hb h.1.symm).1.symm, ?_⟩
      exact ih (fun x hx => hneedle x (List.mem_cons_of_mem c hx)) h.2

/-- The regions after which code is read. -/
def Open (region : Region) : Prop :=
  region = .code ∨ region = .blockEnd 0 ∨ region = .literalEnd 0

theorem enter_of_open {region : Region} (h : Open region) (c : Char) (rest : Text) :
    enter d region c rest = opens d c rest := by
  rcases h with rfl | rfl | rfl <;> rfl

theorem scan_of_open {region : Region} (h : Open region) (comments : Bool) (text : Text) :
    scan d comments region text = scan d comments .code text := by
  cases text with
  | nil => rfl
  | cons c rest => simp only [scan, enter_of_open h, enter_of_open (Or.inl rfl)]

theorem open_of_enter_eq_code {region : Region} {c : Char} {rest : Text}
    (hc : ¬(c = '\r' ∨ c = '\n')) (h : enter d region c rest = .code) : Open region := by
  have hn : c ≠ '\n' := fun hn => hc (Or.inr hn)
  unfold enter at h
  split at h
  · exact Or.inl rfl
  · rw [if_neg hn] at h
    cases h
  · split at h
    · split at h
      · cases h
      · cases h
    · cases h
  · exact Or.inr (Or.inl rfl)
  · split at h
    · cases h
    · rw [if_neg fun hq => hc hq.2] at h
      cases h
  · exact Or.inr (Or.inr rfl)
  · exact Or.inl h

section Swift

theorem swift_lineComment : Dialect.swift.lineComment = ['/', '/'] := by decide

theorem swift_blockComment : Dialect.swift.blockComment = some (['/', '*'], ['*', '/']) := by decide

theorem swift_quotes : Dialect.swift.quotes = [['"']] := by decide

theorem swift_alien (hslash : x ≠ '/') (hstar : x ≠ '*') (hquote : x ≠ '"') :
    Dialect.swift.Alien x := by
  refine ⟨?_, ?_, ?_⟩
  · simp [swift_lineComment, hslash]
  · simp [swift_blockComment, hslash, hstar]
  · simp [swift_quotes, hquote]

theorem mask_append (comments : Bool) (text rest : Text) (hslash : x ≠ '/') (hstar : x ≠ '*')
    (hquote : x ≠ '"') : mask (text ++ x :: rest) .swift comments =
      mask text .swift comments ++ scan .swift comments (endOf .swift .code text) (x :: rest) :=
  @scan_append .swift x (swift_alien hslash hstar hquote) comments .code trivial text rest

/-- Only slashes and quotes open anything. -/
theorem opens_swift {c : Char} (hslash : c ≠ '/') (hquote : c ≠ '"') (rest : Text) :
    opens .swift c rest = .code := by
  simp [opens, openingQuote, swift_lineComment, swift_blockComment, swift_quotes, Text.startsWith,
    List.isPrefixOf, Ne.symm hslash, hquote]

theorem scan_swift_plain {plain : Text} (comments : Bool) (rest : Text)
    (h : ∀ c ∈ plain, c ≠ '/' ∧ c ≠ '"') :
    scan .swift comments .code (plain ++ rest) = plain ++ scan .swift comments .code rest := by
  induction plain with
  | nil => rfl
  | cons c plain ih =>
    obtain ⟨hslash, hquote⟩ := h c (by simp)
    have hrest := ih fun a ha => h a (List.mem_cons_of_mem c ha)
    rw [List.cons_append, scan]
    simp only [enter_of_open (Or.inl rfl), opens_swift hslash hquote, leave, shown, hrest,
      List.cons_append]

/-- What is left of a delimiter that closes a block comment is read next. -/
def Closing (region : Region) (text : Text) : Prop :=
  ∀ n, region = .blockEnd n → n ≤ 2 ∧ ['*', '/'].drop (2 - n) <+: text

theorem opens_swift_ne_blockEnd (c : Char) (rest : Text) (n : Nat) :
    opens .swift c rest ≠ .blockEnd n := by
  intro h
  unfold opens at h
  rw [swift_blockComment] at h
  split at h
  · split at h
    · cases h
    · cases h
  · dsimp only at h
    split at h
    · simp at h
    · cases hq : openingQuote Dialect.swift.quotes c rest with
      | none => rw [hq] at h; cases h
      | some quote => rw [hq] at h; cases h

theorem closing_of_ne {region : Region} (text : Text) (h : ∀ n, region ≠ .blockEnd n) :
    Closing region text ∧ region ≠ .blockEnd 0 :=
  ⟨fun n hn => absurd hn (h n), h 0⟩

theorem closing_enter {region : Region} {c : Char} {rest : Text} (h : Closing region (c :: rest)) :
    Closing (enter .swift region c rest) (c :: rest) ∧
      enter .swift region c rest ≠ .blockEnd 0 := by
  have hopens := closing_of_ne (c :: rest) (opens_swift_ne_blockEnd c rest)
  unfold enter
  split
  · exact hopens
  · split
    · exact hopens
    · exact closing_of_ne _ (by simp)
  · rw [swift_blockComment]
    dsimp only
    split
    next hs =>
      refine ⟨?_, by simp⟩
      intro n hn
      cases hn
      exact ⟨Nat.le_refl 2, List.isPrefixOf_iff_prefix.mp hs⟩
    next => exact closing_of_ne _ (by simp)
  · exact hopens
  · split
    · exact closing_of_ne _ (by simp)
    · split
      · exact hopens
      · exact closing_of_ne _ (by simp)
  · exact hopens
  next hend _ _ => exact ⟨h, fun he => hend he⟩

theorem closing_leave {region : Region} {c : Char} {rest : Text} (h : Closing region (c :: rest))
    (hne : region ≠ .blockEnd 0) : Closing (leave region c) rest := by
  unfold leave
  split
  · exact (closing_of_ne _ (by simp)).1
  next n =>
    obtain ⟨hn, hstart⟩ := h (n + 1) rfl
    intro m hm
    cases hm
    obtain ⟨more, hmore⟩ := hstart
    refine ⟨by omega, more, ?_⟩
    have hn' : n = 0 ∨ n = 1 := by omega
    rcases hn' with rfl | rfl
    · exact (List.cons.inj hmore).2
    · exact (List.cons.inj hmore).2
  · split
    · exact (closing_of_ne _ (by simp)).1
    · exact (closing_of_ne _ (by simp)).1
  · exact (closing_of_ne _ (by simp)).1
  · exact (closing_of_ne _ (by simp)).1
  next _ hend _ _ _ =>
    refine (closing_of_ne _ ?_).1
    intro n hn
    cases n with
    | zero => exact hne hn
    | succ n => exact hend n hn

/-- The last character of a text after which code is read is masked alike whether comments are
blanked out or kept, unless it ends a comment. -/
theorem shown_of_open {region : Region} {c : Char} (hclosing : Closing region [c])
    (hne : region ≠ .blockEnd 0) (h : Open (leave region c)) :
    shown false region c = shown true region c ∨ c = '/' := by
  have hlineComment : leave .lineComment c = .lineComment := rfl
  cases region with
  | code => exact Or.inl rfl
  | lineComment => simp [hlineComment, Open] at h
  | blockComment n => cases n <;> simp [leave, Open] at h
  | blockEnd n =>
    cases n with
    | zero => exact absurd rfl hne
    | succ n =>
      have hn : n = 0 := by simpa [leave, Open] using h
      subst hn
      obtain ⟨more, hmore⟩ := (hclosing 1 rfl).2
      exact Or.inr (List.cons.inj hmore).1.symm
  | literal quote n =>
    exact Or.inl rfl
  | literalEnd n => exact Or.inl rfl

theorem atBoundary_scan {region : Region} {text : Text} (hclosing : Closing region text)
    (hopen : Open (endOf .swift region text))
    (h : Text.AtBoundary (scan .swift true region text)) :
    Text.AtBoundary (scan .swift false region text) := by
  induction text generalizing region with
  | nil => exact Text.atBoundary_nil
  | cons c rest ih =>
    obtain ⟨henter, hne⟩ := closing_enter hclosing
    simp only [scan] at h ⊢
    cases rest with
    | nil =>
      intro a ha
      have hshown : a = shown false (enter .swift region c []) c := by
        simpa [scan] using ha.symm
      rcases shown_of_open henter hne hopen with heq | rfl
      · exact h a (by simp [scan, hshown, heq])
      · rcases shown_eq_or false (enter .swift region '/' []) '/' with heq | ⟨heq, -⟩
        · rw [hshown, heq]
          decide
        · rw [hshown, heq]
          decide
    | cons b rest =>
      have hrest := ih (closing_leave henter hne) hopen h.tail
      intro a ha
      rw [List.getLast?_cons_of_ne_nil (by simp [scan])] at ha
      exact hrest a ha

end Swift

end Mask

end StyleRules
