import StyleRules.Proofs.Delimiters
import StyleRules.Proofs.Positions

namespace StyleRules

/-- A dialect whose delimiters can be passed: none is empty, and a line comment does not start with
the line feed that ends it. -/
structure Dialect.Delimited (d : Dialect) : Prop where
  lineComment : d.lineComment ≠ [] ∧ d.lineComment.head? ≠ some '\n'
  blockComment : ∀ delimiters ∈ d.blockComment, delimiters.1 ≠ [] ∧ delimiters.2 ≠ []

namespace Text

/-- Where a needle is found first in a text that starts at an offset. -/
def find? (needle : Text) (offset : Nat) : Text → Option Nat
  | [] => if needle = [] then some offset else none
  | c :: rest =>
    if startsWith needle (c :: rest) then some offset else find? needle (offset + 1) rest

theorem getLast?_eq_nil_iff (lines : List Text) :
    lines.getLast? = some [] ↔ (lines.map List.length).getLast? = some 0 := by
  rw [List.getLast?_map, Option.map_eq_some_iff]
  constructor
  · intro h
    exact ⟨[], h, rfl⟩
  · rintro ⟨line, hline, hzero⟩
    rw [hline, List.length_eq_zero_iff.mp hzero]

theorem length_splitLines_congr {a b : Text}
    (h : (segments a).map List.length = (segments b).map List.length) :
    a.splitLines.map List.length = b.splitLines.map List.length := by
  have hcount : (segments a).length = (segments b).length := by
    simpa using congrArg List.length h
  have hlast : (segments a).getLast? = some [] ↔ (segments b).getLast? = some [] := by
    rw [getLast?_eq_nil_iff, getLast?_eq_nil_iff, h]
  unfold splitLines
  dsimp only
  by_cases hend : 1 < (segments b).length ∧ (segments b).getLast? = some []
  · rw [hcount, if_pos hend, if_pos ⟨hend.1, hlast.mpr hend.2⟩, List.map_dropLast,
      List.map_dropLast, h]
  · rw [hcount, if_neg hend, if_neg fun ha => hend ⟨ha.1, hlast.mp ha.2⟩, h]

theorem exists_of_startsWith {needle text : Text} (h : startsWith needle text = true) :
    ∃ rest, text = needle ++ rest := by
  obtain ⟨rest, hrest⟩ := List.isPrefixOf_iff_prefix.mp h
  exact ⟨rest, hrest.symm⟩

end Text

namespace Mask

/-- How far a walk over a text has come, and the text as masked up to there. -/
structure Progress where
  index : Nat
  masked : Text

/-- Blanks out the characters from one offset up to another, if all of them are there. -/
def blankOut (start stop : Nat) (masked : Text) : Option Text :=
  (List.range' start (stop - start)).foldlM
    (fun masked i => masked[i]?.map fun c => masked.set i (blank c)) masked

/-- Where the search for the end of a literal stops that has come to an offset: at a quote, at the
line break that ends a literal of a single quote, or behind the text. -/
def seekQuote (quote text : Text) (i : Nat) : Option Nat :=
  if i < text.length ∧ Text.startsWith quote (text.drop i) = false then
    match text[i]? with
    | none => none
    | some c =>
      if quote.length = 1 ∧ (c = '\r' ∨ c = '\n') then some i
      else if c = '\\' then seekQuote quote text (i + 2)
      else seekQuote quote text (i + 1)
  else some i
termination_by text.length - i

/-- Passes a comment that ends at an offset. -/
def passComment (comments : Bool) (p : Progress) (stop : Nat) : Option Progress :=
  if comments then (blankOut p.index stop p.masked).map (⟨stop, ·⟩)
  else some { p with index := stop }

/-- Passes the literal that a quote opens. -/
def passLiteral (text quote : Text) (p : Progress) : Option Progress :=
  (seekQuote quote text (p.index + quote.length)).bind fun found =>
    let closed := if Text.startsWith quote (text.drop found) then found + quote.length else found
    let stop := min closed text.length
    (blankOut p.index stop p.masked).map (⟨stop, ·⟩)

/-- One round of the walk over a text; there is no result if it looks outside the text. -/
def round? (d : Dialect) (comments : Bool) (text : Text) (p : Progress) : Option Progress :=
  let ahead := text.drop p.index
  if Text.startsWith d.lineComment ahead then
    passComment comments p ((Text.find? ['\n'] p.index ahead).getD text.length)
  else
    match d.blockComment.filter fun delimiters => Text.startsWith delimiters.1 ahead with
    | some (opening, closing) =>
      let inside := p.index + opening.length
      let found := Text.find? closing inside (text.drop inside)
      passComment comments p ((found.map (· + closing.length)).getD text.length)
    | none =>
      match text[p.index]? with
      | none => none
      | some c =>
        match openingQuote d.quotes c (text.drop (p.index + 1)) with
        | some quote => passLiteral text quote p
        | none => some { p with index := p.index + 1 }

/-- Rounds of the walk as long as it is within the text, but no more than a number of them. -/
def rounds (d : Dialect) (comments : Bool) (text : Text) : Nat → Progress → Option Progress
  | 0, p => some p
  | n + 1, p =>
    if p.index < text.length then (round? d comments text p).bind (rounds d comments text n)
    else some p

/-- What stands for a character of a comment. -/
def shownComment (comments : Bool) (c : Char) : Char := if comments then blank c else c

variable {d : Dialect} {comments : Bool}

theorem blankOut_eq (done part rest : Text) :
    blankOut done.length (done.length + part.length) (done ++ (part ++ rest)) =
      some (done ++ (part.map blank ++ rest)) := by
  unfold blankOut
  rw [Nat.add_sub_cancel_left]
  induction part generalizing done with
  | nil => rfl
  | cons c part ih =>
    have hnext := ih (done ++ [blank c])
    rw [List.length_cons, List.range'_succ, List.foldlM_cons]
    simpa using hnext

section Stretches

variable {quote opening closing : Text}

/-- A line comment reaches up to the next line feed. -/
theorem scan_lineComment_stretch (offset : Nat) (text : Text) :
    ∃ part after, text = part ++ after ∧ (∀ c ∈ after.head?, c = '\n') ∧
      (Text.find? ['\n'] offset text).getD (offset + text.length) = offset + part.length ∧
      scan d comments .lineComment text =
        part.map (shownComment comments) ++ scan d comments .code after := by
  induction text generalizing offset with
  | nil => exact ⟨[], [], rfl, by simp, rfl, rfl⟩
  | cons c rest ih =>
    by_cases hc : c = '\n'
    · subst hc
      exact ⟨[], '\n' :: rest, rfl, by simp, rfl, rfl⟩
    · obtain ⟨part, after, rfl, hafter, hfind, hscan⟩ := ih (offset + 1)
      refine ⟨c :: part, after, rfl, hafter, ?_, ?_⟩
      · have hstart : Text.startsWith ['\n'] (c :: (part ++ after)) = false := by
          simp [Text.startsWith, List.isPrefixOf, Ne.symm hc]
        simp only [Text.find?, hstart, Bool.false_eq_true, if_false, List.length_cons]
        have hlength : offset + ((part ++ after).length + 1) =
            offset + 1 + (part ++ after).length := by omega
        rw [hlength, hfind]
        omega
      · simp only [scan, enter, if_neg hc, leave, hscan, List.map_cons, List.cons_append]
        rfl

/-- What is left of a delimiter is passed without a look. -/
theorem scan_pending {held : Nat → Region} {f : Char → Char}
    (henter : ∀ n c rest, enter d (held (n + 1)) c rest = held (n + 1))
    (hleave : ∀ n c, leave (held (n + 1)) c = held n)
    (hshown : ∀ n c, shown comments (held (n + 1)) c = f c) (part after : Text) :
    scan d comments (held part.length) (part ++ after) =
      part.map f ++ scan d comments (held 0) after := by
  induction part with
  | nil => rfl
  | cons c part ih =>
    simp only [List.length_cons, List.cons_append, scan, henter, hleave, hshown, ih, List.map_cons]

theorem scan_blockEnd (part after : Text) :
    scan d comments (.blockEnd part.length) (part ++ after) =
      part.map (shownComment comments) ++ scan d comments .code after := by
  rw [← scan_of_open (Or.inr (Or.inl rfl))]
  exact scan_pending (fun _ _ _ => rfl) (fun _ _ => rfl) (fun _ _ => rfl) part after

theorem scan_literalEnd (part after : Text) :
    scan d comments (.literalEnd part.length) (part ++ after) =
      part.map blank ++ scan d comments .code after := by
  rw [← scan_of_open (Or.inr (Or.inr rfl))]
  exact scan_pending (fun _ _ _ => rfl) (fun _ _ => rfl) (fun _ _ => rfl) part after

/-- The delimiter that closes a block comment belongs to it. -/
theorem scan_closing (hblock : d.blockComment = some (opening, closing)) (hclosing : closing ≠ [])
    (after : Text) : scan d comments (.blockComment 0) (closing ++ after) =
      closing.map (shownComment comments) ++ scan d comments .code after := by
  have hend := @scan_blockEnd d comments closing after
  have hstart := Text.startsWith_append closing after
  obtain ⟨c, more, rfl⟩ := List.exists_cons_of_ne_nil hclosing
  rw [← hend]
  rw [List.cons_append] at hstart ⊢
  simp only [scan, enter, hblock, hstart, if_true, List.length_cons]

/-- Once it is open, a block comment reaches behind the next closing delimiter. -/
theorem scan_blockComment_stretch (hblock : d.blockComment = some (opening, closing))
    (hclosing : closing ≠ []) (offset : Nat) (text : Text) :
    ∃ part after, text = part ++ after ∧
      ((Text.find? closing offset text).map (· + closing.length)).getD (offset + text.length) =
        offset + part.length ∧
      scan d comments (.blockComment 0) text =
        part.map (shownComment comments) ++ scan d comments .code after := by
  induction text generalizing offset with
  | nil => exact ⟨[], [], rfl, by simp [Text.find?, hclosing], rfl⟩
  | cons c rest ih =>
    cases hstart : Text.startsWith closing (c :: rest) with
    | true =>
      obtain ⟨after, hafter⟩ := Text.exists_of_startsWith hstart
      refine ⟨closing, after, hafter, by simp [Text.find?, hstart], ?_⟩
      rw [hafter]
      exact scan_closing hblock hclosing after
    | false =>
      obtain ⟨part, after, rfl, hfind, hscan⟩ := ih (offset + 1)
      refine ⟨c :: part, after, rfl, ?_, ?_⟩
      · simp only [Text.find?, hstart, Bool.false_eq_true, if_false, List.length_cons]
        have hlength : offset + ((part ++ after).length + 1) =
            offset + 1 + (part ++ after).length := by omega
        rw [hlength, hfind]
        omega
      · simp only [List.cons_append, scan, enter, hblock, hstart, Bool.false_eq_true, if_false,
          leave, hscan, List.map_cons]
        rfl

theorem seekQuote_append (before : Text) (c : Char) (rest : Text) :
    seekQuote quote (before ++ c :: rest) before.length =
      if Text.startsWith quote (c :: rest) then some before.length
      else if quote.length = 1 ∧ (c = '\r' ∨ c = '\n') then some before.length
      else if c = '\\' then seekQuote quote (before ++ c :: rest) (before.length + 2)
      else seekQuote quote (before ++ c :: rest) (before.length + 1) := by
  rw [seekQuote, List.drop_left]
  cases hstart : Text.startsWith quote (c :: rest) with
  | true => simp
  | false => simp

theorem seekQuote_of_length_le {text : Text} {i : Nat} (h : text.length ≤ i) :
    seekQuote quote text i = some i := by
  rw [seekQuote, if_neg fun hi => Nat.not_lt.mpr h hi.1]

/-- The part of a literal behind its opening quote, up to where the search for its end stops. -/
structure LiteralStretch (d : Dialect) (comments : Bool) (quote before part after : Text) :
    Prop where
  sought : ∃ found, seekQuote quote (before ++ (part ++ after)) before.length = some found ∧
    min (if Text.startsWith quote ((before ++ (part ++ after)).drop found) then
        found + quote.length
      else found) (before ++ (part ++ after)).length = before.length + part.length
  scanned : scan d comments (.literal quote 0) (part ++ after) =
    part.map blank ++ scan d comments .code after

theorem literalStretch_end (hquote : quote ≠ []) (before : Text) :
    LiteralStretch d comments quote before [] [] where
  sought := by
    refine ⟨before.length, seekQuote_of_length_le (by simp), ?_⟩
    simp [Text.startsWith_nil hquote]
  scanned := rfl

theorem literalStretch_quote {after : Text} (hquote : quote ≠ [])
    (hstart : Text.startsWith quote (quote ++ after) = true) (before : Text) :
    LiteralStretch d comments quote before quote after := by
  have hend := @scan_literalEnd d comments quote after
  obtain ⟨c, more, rfl⟩ := List.exists_cons_of_ne_nil hquote
  refine ⟨⟨before.length, ?_, ?_⟩, ?_⟩
  · rw [List.cons_append, seekQuote_append, ← List.cons_append, hstart, if_pos rfl]
  · rw [List.drop_left, hstart, if_pos rfl]
    simp only [List.length_append]
    omega
  · rw [← hend]
    rw [List.cons_append] at hstart ⊢
    simp only [scan, enter, hstart, if_true, List.length_cons]

theorem literalStretch_break {c : Char} {rest : Text}
    (hstart : Text.startsWith quote (c :: rest) = false)
    (hbreak : quote.length = 1 ∧ (c = '\r' ∨ c = '\n')) (before : Text) :
    LiteralStretch d comments quote before [] (c :: rest) := by
  refine ⟨⟨before.length, ?_, ?_⟩, ?_⟩
  · rw [List.nil_append, seekQuote_append, hstart, if_neg Bool.false_ne_true, if_pos hbreak]
  · rw [List.nil_append, List.drop_left, hstart, if_neg Bool.false_ne_true]
    simp
  · simp only [List.nil_append, scan, enter, hstart, Bool.false_eq_true, if_false, if_pos hbreak,
      List.map_nil]

section Steps

variable {c : Char} {before part after : Text}

theorem scan_literal_cons {rest : Text} (hstart : Text.startsWith quote (c :: rest) = false)
    (hbreak : ¬(quote.length = 1 ∧ (c = '\r' ∨ c = '\n'))) :
    scan d comments (.literal quote 0) (c :: rest) =
      blank c :: scan d comments (.literal quote (if c = '\\' then 1 else 0)) rest := by
  simp only [scan, enter, hstart, Bool.false_eq_true, if_false, if_neg hbreak, leave]
  split
  next => rfl
  next => rfl

theorem LiteralStretch.cons (h : LiteralStretch d comments quote (before ++ [c]) part after)
    (hstart : Text.startsWith quote (c :: (part ++ after)) = false)
    (hbreak : ¬(quote.length = 1 ∧ (c = '\r' ∨ c = '\n'))) (hescape : c ≠ '\\') :
    LiteralStretch d comments quote before (c :: part) after := by
  obtain ⟨⟨found, hfound, hstop⟩, hscan⟩ := h
  have hwhole : before ++ [c] ++ (part ++ after) = before ++ c :: (part ++ after) := by simp
  have hlength : (before ++ [c]).length = before.length + 1 := by simp
  rw [hwhole, hlength] at hfound hstop
  refine ⟨⟨found, ?_, ?_⟩, ?_⟩
  · rw [List.cons_append, seekQuote_append, hstart, if_neg Bool.false_ne_true, if_neg hbreak,
      if_neg hescape, hfound]
  · rw [List.cons_append, hstop, List.length_cons]
    omega
  · rw [List.cons_append, scan_literal_cons hstart hbreak, if_neg hescape, hscan]
    rfl

/-- The character behind a backslash is passed with it. -/
theorem LiteralStretch.escape {x : Char}
    (h : LiteralStretch d comments quote (before ++ ['\\', x]) part after)
    (hstart : Text.startsWith quote ('\\' :: x :: (part ++ after)) = false) :
    LiteralStretch d comments quote before ('\\' :: x :: part) after := by
  obtain ⟨⟨found, hfound, hstop⟩, hscan⟩ := h
  have hbreak : ¬(quote.length = 1 ∧ ('\\' = '\r' ∨ '\\' = '\n')) := fun h => absurd h.2 (by decide)
  have hwhole : before ++ ['\\', x] ++ (part ++ after) =
      before ++ '\\' :: x :: (part ++ after) := by
    simp
  have hlength : (before ++ ['\\', x]).length = before.length + 2 := by simp
  rw [hwhole, hlength] at hfound hstop
  refine ⟨⟨found, ?_, ?_⟩, ?_⟩
  · rw [List.cons_append, List.cons_append, seekQuote_append, hstart, if_neg Bool.false_ne_true,
      if_neg hbreak, if_pos rfl, hfound]
  · rw [List.cons_append, List.cons_append, hstop, List.length_cons, List.length_cons]
    omega
  · rw [List.cons_append, List.cons_append, scan_literal_cons hstart hbreak, if_pos rfl]
    simp only [scan, enter, leave, hscan, List.map_cons, List.cons_append]
    rfl

/-- No character follows a backslash at the end of the text, and the search stops behind it. -/
theorem literalStretch_backslash (hquote : quote ≠ [])
    (hstart : Text.startsWith quote ['\\'] = false) (before : Text) :
    LiteralStretch d comments quote before ['\\'] [] := by
  have hbreak : ¬(quote.length = 1 ∧ ('\\' = '\r' ∨ '\\' = '\n')) := fun h => absurd h.2 (by decide)
  refine ⟨⟨before.length + 2, ?_, ?_⟩, ?_⟩
  · rw [List.append_nil, seekQuote_append, hstart, if_neg Bool.false_ne_true, if_neg hbreak,
      if_pos rfl, seekQuote_of_length_le (by simp)]
  · simp [Text.startsWith_nil hquote]
  · rw [List.append_nil, scan_literal_cons hstart hbreak, if_pos rfl]
    rfl

end Steps

/-- Once it is open, a literal reaches as far as the search for its end says. -/
theorem scan_literal_stretch (hquote : quote ≠ []) (before ahead : Text) :
    ∃ part after, ahead = part ++ after ∧ LiteralStretch d comments quote before part after := by
  -- On the length of what lies ahead, since a backslash takes the character behind it along.
  induction h : ahead.length using Nat.strongRecOn generalizing before ahead with
  | ind n ih =>
    subst h
    cases ahead with
    | nil => exact ⟨[], [], rfl, literalStretch_end hquote before⟩
    | cons c rest =>
      cases hstart : Text.startsWith quote (c :: rest) with
      | true =>
        obtain ⟨after, hafter⟩ := Text.exists_of_startsWith hstart
        rw [hafter] at hstart
        exact ⟨quote, after, hafter, literalStretch_quote hquote hstart before⟩
      | false =>
        by_cases hbreak : quote.length = 1 ∧ (c = '\r' ∨ c = '\n')
        · exact ⟨[], c :: rest, rfl, literalStretch_break hstart hbreak before⟩
        · by_cases hescape : c = '\\'
          · subst hescape
            cases rest with
            | nil => exact ⟨['\\'], [], rfl, literalStretch_backslash hquote hstart before⟩
            | cons x rest =>
              have hshorter : rest.length < ('\\' :: x :: rest).length := by
                rw [List.length_cons, List.length_cons]
                omega
              obtain ⟨part, after, rfl, hrest⟩ :=
                ih rest.length hshorter (before ++ ['\\', x]) rest rfl
              exact ⟨'\\' :: x :: part, after, rfl, hrest.escape hstart⟩
          · obtain ⟨part, after, rfl, hrest⟩ :=
              ih rest.length (Nat.lt_succ_self _) (before ++ [c]) rest rfl
            exact ⟨c :: part, after, rfl, hrest.cons hstart hbreak hescape⟩

end Stretches

section Openings

variable {c : Char} {rest opening closing quote : Text}

theorem ne_newline_of_lineComment (hd : d.Delimited)
    (h : Text.startsWith d.lineComment (c :: rest) = true) : c ≠ '\n' := by
  obtain ⟨hne, hhead⟩ := hd.lineComment
  obtain ⟨x, more, hx⟩ := List.exists_cons_of_ne_nil hne
  rintro rfl
  rw [hx] at h hhead
  simp only [Text.startsWith, List.isPrefixOf, Bool.and_eq_true, beq_iff_eq] at h
  exact hhead (by rw [h.1]; rfl)

/-- What opens a region belongs to it. -/
theorem scan_of_opens {region : Region} (hopens : opens d c rest = region)
    (hstays : enter d region c rest = region) :
    scan d comments .code (c :: rest) = scan d comments region (c :: rest) := by
  have hcode : enter d .code c rest = region := hopens
  simp only [scan, hcode, hstays]

theorem opens_of_lineComment (hd : d.Delimited)
    (h : Text.startsWith d.lineComment (c :: rest) = true) : opens d c rest = .lineComment := by
  rw [opens, if_pos h, if_neg (ne_newline_of_lineComment hd h)]

theorem opens_of_blockComment (hd : d.Delimited)
    (hline : Text.startsWith d.lineComment (c :: rest) = false)
    (hblock : d.blockComment = some (opening, closing))
    (h : Text.startsWith opening (c :: rest) = true) :
    opens d c rest = .blockComment opening.length := by
  obtain ⟨hopening, hclosing⟩ := hd.blockComment _ hblock
  simp only [opens, hline, Bool.false_eq_true, if_false, hblock, h, if_true, if_neg hclosing,
    hopening, false_and]

/-- The delimiter that opens a block comment belongs to it. -/
theorem scan_opening (hd : d.Delimited) (hblock : d.blockComment = some (opening, closing))
    {after : Text} (hline : Text.startsWith d.lineComment (opening ++ after) = false) :
    scan d comments .code (opening ++ after) =
      opening.map (shownComment comments) ++ scan d comments (.blockComment 0) after := by
  have hstart := Text.startsWith_append opening after
  have hpending := @scan_pending d comments .blockComment (shownComment comments)
    (fun _ _ _ => rfl) (fun _ _ => rfl) (fun _ _ => rfl) opening after
  obtain ⟨hopening, -⟩ : opening ≠ [] ∧ closing ≠ [] := hd.blockComment _ hblock
  obtain ⟨c, more, rfl⟩ := List.exists_cons_of_ne_nil hopening
  rw [← hpending]
  exact scan_of_opens (opens_of_blockComment hd hline hblock hstart) rfl

theorem opens_of_neither (hline : Text.startsWith d.lineComment (c :: rest) = false)
    (hblock : ∀ delimiters ∈ d.blockComment, Text.startsWith delimiters.1 (c :: rest) = false) :
    opens d c rest =
      (openingQuote d.quotes c rest).elim .code fun quote => .literal quote quote.length := by
  simp only [opens, hline, Bool.false_eq_true, if_false]
  cases hb : d.blockComment with
  | none => rfl
  | some delimiters => simp only [hblock delimiters hb, Bool.false_eq_true, if_false]

end Openings

section Walks

variable {text part after : Text} {p : Progress}

/-- A walk has come to a place where code is read: what lies behind it is masked, and what lies
ahead is as it was. -/
structure Reached (d : Dialect) (comments : Bool) (text : Text) (p : Progress) : Prop where
  within : p.index ≤ text.length
  masked : p.masked = (mask text d comments).take p.index ++ text.drop p.index
  ahead : (mask text d comments).drop p.index = scan d comments .code (text.drop p.index)

theorem reached_start (d : Dialect) (comments : Bool) (text : Text) :
    Reached d comments text ⟨0, text⟩ :=
  ⟨Nat.zero_le _, rfl, rfl⟩

theorem Reached.length_take (h : Reached d comments text p) :
    ((mask text d comments).take p.index).length = p.index := by
  have hlength : (mask text d comments).length = text.length := length_scan d comments .code text
  rw [List.length_take, hlength, Nat.min_eq_left h.within]

/-- A walk that passes a part of what lies ahead, each character as it is shown, comes to the next
place. -/
theorem Reached.pass (h : Reached d comments text p) {f : Char → Char}
    (hahead : text.drop p.index = part ++ after)
    (hscan : scan d comments .code (part ++ after) = part.map f ++ scan d comments .code after) :
    Reached d comments text
      ⟨p.index + part.length, (mask text d comments).take p.index ++ (part.map f ++ after)⟩ := by
  have hmask := h.ahead
  rw [hahead, hscan] at hmask
  refine ⟨?_, ?_, ?_⟩
  · have hlength := congrArg List.length hahead
    have := h.within
    simp only [List.length_drop, List.length_append] at hlength
    dsimp only
    omega
  · dsimp only
    rw [List.take_add, hmask, ← List.drop_drop, hahead, List.drop_left, List.append_assoc,
      List.take_left' (List.length_map f)]
  · dsimp only
    rw [← List.drop_drop, hmask, ← List.drop_drop, hahead, List.drop_left,
      List.drop_left' (List.length_map f)]

theorem Reached.blankOut (h : Reached d comments text p)
    (hahead : text.drop p.index = part ++ after) :
    Mask.blankOut p.index (p.index + part.length) p.masked =
      some ((mask text d comments).take p.index ++ (part.map blank ++ after)) := by
  have hblank := blankOut_eq ((mask text d comments).take p.index) part after
  rwa [h.length_take, ← hahead, ← h.masked] at hblank

theorem Reached.passComment (h : Reached d comments text p)
    (hahead : text.drop p.index = part ++ after)
    (hscan : scan d comments .code (part ++ after) =
      part.map (shownComment comments) ++ scan d comments .code after) :
    ∃ q, Mask.passComment comments p (p.index + part.length) = some q ∧
      q.index = p.index + part.length ∧ Reached d comments text q := by
  have hpass := h.pass hahead hscan
  refine ⟨_, ?_, rfl, hpass⟩
  cases comments with
  | true =>
    simp only [Mask.passComment, if_true, h.blankOut hahead, Option.map_some]
    rfl
  | false =>
    have hsame : part.map (shownComment false) = part := List.map_id part
    simp only [Mask.passComment, Bool.false_eq_true, if_false, hsame, ← hahead, ← h.masked]

section Rounds

variable {c : Char} {rest quote : Text} {delimiters : Text × Text}

theorem Reached.length_ahead (h : Reached d comments text p) (hahead : text.drop p.index = part) :
    p.index + part.length = text.length := by
  have hlength := congrArg List.length hahead
  have := h.within
  rw [List.length_drop] at hlength
  omega

theorem round?_of_lineComment (hd : d.Delimited) (h : Reached d comments text p)
    (hahead : text.drop p.index = c :: rest)
    (hline : Text.startsWith d.lineComment (c :: rest) = true) :
    ∃ q, round? d comments text p = some q ∧ p.index < q.index ∧ Reached d comments text q := by
  have hne := ne_newline_of_lineComment hd hline
  obtain ⟨part, after, hsplit, hafter, hstop, hscan⟩ :=
    @scan_lineComment_stretch d comments p.index (c :: rest)
  have hopens := @scan_of_opens d comments c rest .lineComment (opens_of_lineComment hd hline)
    (if_neg hne)
  rw [h.length_ahead hahead] at hstop
  rw [hsplit] at hopens hscan
  obtain ⟨q, hq, hindex, hreached⟩ := h.passComment (hahead.trans hsplit) (hopens.trans hscan)
  refine ⟨q, ?_, ?_, hreached⟩
  · simp only [round?, hahead, hline, if_true, hstop, hq]
  · cases part with
    | nil => exact absurd (hafter c (by rw [← List.nil_append after, ← hsplit]; rfl)) hne
    | cons x part =>
      rw [hindex, List.length_cons]
      omega

theorem round?_of_blockComment (hd : d.Delimited) (h : Reached d comments text p)
    (hahead : text.drop p.index = c :: rest)
    (hline : Text.startsWith d.lineComment (c :: rest) = false)
    (hblock : d.blockComment = some delimiters)
    (hstart : Text.startsWith delimiters.1 (c :: rest) = true) :
    ∃ q, round? d comments text p = some q ∧ p.index < q.index ∧ Reached d comments text q := by
  obtain ⟨opening, closing⟩ := delimiters
  dsimp only at hstart
  obtain ⟨hopening, hclosing⟩ : opening ≠ [] ∧ closing ≠ [] := hd.blockComment _ hblock
  have hpos : 0 < opening.length := List.length_pos_iff.mpr hopening
  have hwhole := h.length_ahead hahead
  obtain ⟨inner, hinner⟩ := Text.exists_of_startsWith hstart
  obtain ⟨part, after, rfl, hstop, hscan⟩ := @scan_blockComment_stretch d comments opening closing
    hblock hclosing (p.index + opening.length) inner
  have hdrop : text.drop (p.index + opening.length) = part ++ after := by
    rw [← List.drop_drop, hahead, hinner, List.drop_left]
  rw [hinner, List.length_append, ← Nat.add_assoc] at hwhole
  rw [hwhole] at hstop
  have hpending := @scan_opening d comments opening closing hd hblock (part ++ after)
    (by rw [← hinner]; exact hline)
  rw [hscan, ← List.append_assoc, ← List.append_assoc, ← List.map_append] at hpending
  have hsplit : c :: rest = (opening ++ part) ++ after := by rw [hinner, List.append_assoc]
  obtain ⟨q, hq, hindex, hreached⟩ := h.passComment (hahead.trans hsplit) hpending
  rw [List.length_append, ← Nat.add_assoc] at hq hindex
  refine ⟨q, ?_, by omega, hreached⟩
  have hfilter : d.blockComment.filter (fun delimiters =>
      Text.startsWith delimiters.1 (c :: rest)) = some (opening, closing) := by
    rw [hblock, Option.filter_some, if_pos hstart]
  simp only [round?, hahead, hline, Bool.false_eq_true, if_false, hfilter, hdrop, hstop, hq]

/-- A round that meets no comment looks for a quote. -/
theorem round?_of_neither (hahead : text.drop p.index = c :: rest)
    (hline : Text.startsWith d.lineComment (c :: rest) = false)
    (hblock : ∀ delimiters ∈ d.blockComment, Text.startsWith delimiters.1 (c :: rest) = false) :
    round? d comments text p =
      match openingQuote d.quotes c rest with
      | some quote => passLiteral text quote p
      | none => some { p with index := p.index + 1 } := by
  have hfilter : d.blockComment.filter (fun delimiters =>
      Text.startsWith delimiters.1 (c :: rest)) = none := by
    rw [Option.filter_eq_none_iff]
    intro delimiters hmem
    simp [hblock delimiters hmem]
  have hc : text[p.index]? = some c := by
    rw [← List.head?_drop, hahead]
    rfl
  have hrest : text.drop (p.index + 1) = rest := by
    rw [← List.drop_drop, hahead]
    rfl
  simp only [round?, hahead, hline, Bool.false_eq_true, if_false, hfilter, hc, hrest]

/-- A round that meets a quote passes the literal that it opens. -/
theorem passLiteral_of_opens (h : Reached d comments text p)
    (hahead : text.drop p.index = c :: rest)
    (hquote : openingQuote d.quotes c rest = some quote)
    (hopens : opens d c rest = .literal quote quote.length) :
    ∃ q, passLiteral text quote p = some q ∧ p.index < q.index ∧ Reached d comments text q := by
  obtain ⟨hne, hstart⟩ := startsWith_openingQuote hquote
  have hpos : 0 < quote.length := List.length_pos_iff.mpr hne
  have hliteral := @scan_of_opens d comments c rest _ hopens
    (by rw [← Nat.sub_add_cancel hpos]; rfl)
  obtain ⟨inner, hinner⟩ := Text.exists_of_startsWith hstart
  have hbefore : (text.take p.index ++ quote).length = p.index + quote.length := by
    rw [List.length_append, List.length_take, Nat.min_eq_left h.within]
  have htext : text.take p.index ++ quote ++ inner = text := by
    rw [List.append_assoc, ← hinner, ← hahead, List.take_append_drop]
  obtain ⟨part, after, rfl, ⟨found, hfound, hstop⟩, hscan⟩ :=
    @scan_literal_stretch d comments quote hne (text.take p.index ++ quote) inner
  rw [htext, hbefore] at hfound hstop
  have hpending := @scan_pending d comments (.literal quote) blank
    (fun _ _ _ => rfl) (fun _ _ => rfl) (fun _ _ => rfl) quote (part ++ after)
  rw [← hinner, ← hliteral, hscan, ← List.append_assoc, ← List.map_append] at hpending
  have hsplit : c :: rest = (quote ++ part) ++ after := by rw [hinner, List.append_assoc]
  rw [hsplit] at hpending
  have hblank := h.blankOut (hahead.trans hsplit)
  have hpass := h.pass (hahead.trans hsplit) hpending
  rw [List.length_append, ← Nat.add_assoc] at hblank hpass
  refine ⟨_, ?_, ?_, hpass⟩
  · simp only [passLiteral, hfound, Option.bind_some, hstop, hblank, Option.map_some]
  · dsimp only
    omega

/-- A round within the text finds all that it looks at, gets further and comes to a place where
code is read. -/
theorem round?_of_reached (hd : d.Delimited) (h : Reached d comments text p)
    (hlt : p.index < text.length) :
    ∃ q, round? d comments text p = some q ∧ p.index < q.index ∧ Reached d comments text q := by
  obtain ⟨c, rest, hahead⟩ : ∃ c rest, text.drop p.index = c :: rest :=
    ⟨_, _, List.drop_eq_getElem_cons hlt⟩
  cases hline : Text.startsWith d.lineComment (c :: rest) with
  | true => exact round?_of_lineComment hd h hahead hline
  | false =>
    by_cases hblock : ∃ delimiters ∈ d.blockComment,
        Text.startsWith delimiters.1 (c :: rest) = true
    · obtain ⟨delimiters, hmem, hstart⟩ := hblock
      exact round?_of_blockComment hd h hahead hline hmem hstart
    · have hneither : ∀ delimiters ∈ d.blockComment,
          Text.startsWith delimiters.1 (c :: rest) = false := by
        intro delimiters hmem
        exact Bool.eq_false_iff.mpr fun hstart => hblock ⟨delimiters, hmem, hstart⟩
      have hopens := opens_of_neither hline hneither
      rw [round?_of_neither hahead hline hneither]
      cases hquote : openingQuote d.quotes c rest with
      | some quote =>
        rw [hquote] at hopens
        exact passLiteral_of_opens h hahead hquote hopens
      | none =>
        rw [hquote] at hopens
        have henter : enter d .code c rest = .code := hopens
        have hscan : scan d comments .code ([c] ++ rest) =
            [c].map id ++ scan d comments .code rest := by
          simp only [List.singleton_append, scan, henter, leave, shown, List.map_singleton, id_eq]
        have hsame : [c].map id ++ rest = text.drop p.index := hahead.symm
        have hpass := h.pass hahead hscan
        rw [hsame, ← h.masked] at hpass
        exact ⟨_, rfl, Nat.lt_succ_self _, hpass⟩

theorem Reached.eq_of_length_le (h : Reached d comments text p) (hle : text.length ≤ p.index) :
    p = ⟨text.length, mask text d comments⟩ := by
  have hlength : (mask text d comments).length = text.length := length_scan d comments .code text
  have hindex : p.index = text.length := Nat.le_antisymm h.within hle
  have hmasked := h.masked
  rw [hindex, List.drop_length, List.append_nil, ← hlength, List.take_length] at hmasked
  rw [← hindex, ← hmasked]

/-- As many rounds as there are characters bring a walk to the end of the text. -/
theorem rounds_of_reached (hd : d.Delimited) {n : Nat} (h : Reached d comments text p)
    (hn : text.length ≤ p.index + n) :
    rounds d comments text n p = some ⟨text.length, mask text d comments⟩ := by
  induction n generalizing p with
  | zero => rw [rounds, h.eq_of_length_le hn]
  | succ n ih =>
    rw [rounds]
    split
    next hlt =>
      obtain ⟨q, hq, hfurther, hreached⟩ := round?_of_reached hd h hlt
      rw [hq, Option.bind_some]
      exact ih hreached (by omega)
    next hle => rw [h.eq_of_length_le (Nat.not_lt.mp hle)]

end Rounds

end Walks

/-- Every character is shown as some region shows it. -/
theorem getElem?_scan (d : Dialect) (comments : Bool) (region : Region) (text : Text) (i : Nat) :
    ∃ here, (scan d comments region text)[i]? = text[i]?.map (shown comments here) := by
  induction text generalizing region i with
  | nil => exact ⟨region, rfl⟩
  | cons c rest ih =>
    cases i with
    | zero => exact ⟨enter d region c rest, rfl⟩
    | succ i => exact ih (leave (enter d region c rest) c) i

theorem getElem?_mask_eq_or (d : Dialect) (comments : Bool) {text : Text} {i : Nat} {c : Char}
    (hc : text[i]? = some c) :
    (mask text d comments)[i]? = some c ∨ (mask text d comments)[i]? = some ' ' := by
  obtain ⟨here, hi⟩ := getElem?_scan d comments .code text i
  rw [hc, Option.map_some] at hi
  rcases shown_eq_or comments here c with h | ⟨h, -⟩
  · exact Or.inl (hi.trans (congrArg some h))
  · exact Or.inr (hi.trans (congrArg some h))

theorem getElem?_mask_break (d : Dialect) (comments : Bool) (text : Text) (i : Nat) {x : Char}
    (hx : x = '\r' ∨ x = '\n') : (mask text d comments)[i]? = some x ↔ text[i]? = some x := by
  obtain ⟨here, hi⟩ := getElem?_scan d comments .code text i
  have hmask : (mask text d comments)[i]? = text[i]?.map (shown comments here) := hi
  rw [hmask, Option.map_eq_some_iff]
  constructor
  · rintro ⟨c, hc, hshown⟩
    rcases shown_eq_or comments here c with h | ⟨h, -⟩
    · rw [hc, ← hshown, h]
    · rw [hshown] at h
      rw [h] at hx
      exact absurd hx (by decide)
  · intro h
    exact ⟨x, h, shown_break comments here hx⟩

/-- The lines of a text are places of its mask too. -/
theorem position?_mask (d : Dialect) (comments : Bool) (text : Text) (offset : Int) :
    (LineIndex.ofText (mask text d comments)).position? offset =
      (LineIndex.ofText text).position? offset := by
  have hsize : (LineIndex.ofText (mask text d comments)).size = (LineIndex.ofText text).size :=
    length_scan d comments .code text
  have hstarts : (LineIndex.ofText (mask text d comments)).starts = (LineIndex.ofText text).starts :=
    congrArg (0 :: ·) (breakEnds_scan comments .code 0 text)
  rw [LineIndex.position?, LineIndex.position?, hsize, hstarts]

theorem length_splitLines_mask (d : Dialect) (comments : Bool) (text : Text) :
    (mask text d comments).splitLines.map List.length = text.splitLines.map List.length :=
  Text.length_splitLines_congr (length_segments_scan comments .code text)

theorem delimited_of_known (h : d ∈ Dialect.known) : d.Delimited := by
  simp only [Dialect.known, List.mem_cons, List.not_mem_nil, or_false] at h
  rcases h with rfl | rfl
  · exact ⟨by decide, by decide⟩
  · exact ⟨by decide, by decide⟩

/-- Masking comes to the end of every text without a look outside it, and moves nothing: each
character stays or becomes a space, and line breaks, positions and lines are where they were. -/
theorem mask_in_place (hd : d.Delimited) (comments : Bool) (text : Text) :
    (∀ n, text.length ≤ n →
      rounds d comments text n ⟨0, text⟩ = some ⟨text.length, mask text d comments⟩) ∧
    (mask text d comments).length = text.length ∧
    (∀ (i : Nat) (c : Char), text[i]? = some c →
      (mask text d comments)[i]? = some c ∨ (mask text d comments)[i]? = some ' ') ∧
    (∀ (i : Nat) (x : Char), x = '\r' ∨ x = '\n' →
      ((mask text d comments)[i]? = some x ↔ text[i]? = some x)) ∧
    (∀ offset : Int, (LineIndex.ofText (mask text d comments)).position? offset =
      (LineIndex.ofText text).position? offset) ∧
    (mask text d comments).splitLines.map List.length = text.splitLines.map List.length := by
  refine ⟨?_, length_scan d comments .code text, ?_, ?_, position?_mask d comments text,
    length_splitLines_mask d comments text⟩
  · intro n hn
    exact rounds_of_reached hd (reached_start d comments text) (by dsimp only; omega)
  · intro i c hc
    exact getElem?_mask_eq_or d comments hc
  · intro i x hx
    exact getElem?_mask_break d comments text i hx

/-- The text ends behind a backslash in a literal that nothing closes. -/
theorem mask_in_place_backslash :
    Dialect.swift.Delimited ∧
      mask "a // b\r\n\"c\\".toList .swift = "a     \r\n   ".toList ∧
      rounds .swift true "a // b\r\n\"c\\".toList 11 ⟨0, "a // b\r\n\"c\\".toList⟩ =
        some ⟨11, "a     \r\n   ".toList⟩ := by
  have delimited : Dialect.swift.Delimited := delimited_of_known (by decide)
  exact ⟨delimited, by decide,
    (mask_in_place delimited true "a // b\r\n\"c\\".toList).1 11 (by decide)⟩

end Mask

end StyleRules
