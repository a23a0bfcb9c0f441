import StyleRules.Text.Lines

namespace StyleRules

namespace Text

theorem breakEnds_bounds {offset b : Nat} {text : Text} (h : b ∈ text.breakEnds offset) :
    offset < b ∧ b ≤ offset + text.length := by
  fun_induction breakEnds offset text with
  | case1 => simp at h
  | case2 offset rest ih =>
    rcases List.mem_cons.mp h with rfl | h
    · simp
    · have := ih h
      simp only [List.length_cons]
      omega
  | case3 offset rest _ ih =>
    rcases List.mem_cons.mp h with rfl | h
    · simp
    · have := ih h
      simp only [List.length_cons]
      omega
  | case4 offset rest ih =>
    rcases List.mem_cons.mp h with rfl | h
    · simp
    · have := ih h
      simp only [List.length_cons]
      omega
  | case5 offset c rest _ _ _ ih =>
    have := ih h
    simp only [List.length_cons]
    omega

theorem breakEnds_ascending (offset : Nat) (text : Text) :
    (text.breakEnds offset).Pairwise (· < ·) := by
  fun_induction breakEnds offset text with
  | case1 => exact List.Pairwise.nil
  | case2 offset rest ih =>
    exact List.pairwise_cons.mpr ⟨fun _ h => (breakEnds_bounds h).1, ih⟩
  | case3 offset rest _ ih =>
    exact List.pairwise_cons.mpr ⟨fun _ h => (breakEnds_bounds h).1, ih⟩
  | case4 offset rest ih =>
    exact List.pairwise_cons.mpr ⟨fun _ h => (breakEnds_bounds h).1, ih⟩
  | case5 offset c rest _ _ _ ih => exact ih

/-- Two texts meet outside a line break. -/
def Meet (a b : Text) : Prop := a.getLast? = some '\r' → b.head? ≠ some '\n'

theorem Meet.of_head {a b : Text} (hb : ∀ c ∈ b.head?, c ≠ '\n') : Meet a b :=
  fun _ hn => hb '\n' hn rfl

theorem meet_nil (b : Text) : Meet [] b := by
  intro h
  cases h

theorem Meet.cons {a b : Text} {c : Char} (h : Meet a b)
    (hc : a = [] → c = '\r' → b.head? ≠ some '\n') : Meet (c :: a) b := by
  intro hr
  cases a with
  | nil => exact hc rfl (by simpa using hr)
  | cons x a =>
    apply h
    rw [List.getLast?_cons_cons] at hr
    exact hr

theorem Meet.tail {a b : Text} {c : Char} (h : Meet (c :: a) b) : Meet a b := by
  intro ha
  cases a with
  | nil => cases ha
  | cons x a =>
    apply h
    rw [List.getLast?_cons_cons]
    exact ha

/-- A carriage return before the rest of a text does not become part of a pair where the rest
meets another text. -/
theorem Meet.lone {rest b : Text} (h : Meet ('\r' :: rest) b) (hrest : ∀ more, rest ≠ '\n' :: more)
    (more : Text) : rest ++ b ≠ '\n' :: more := by
  intro hmore
  cases rest with
  | nil =>
    rw [List.nil_append] at hmore
    exact h rfl (by rw [hmore]; rfl)
  | cons c rest => exact hrest rest (by rw [(List.cons.inj hmore).1])

theorem breakEnds_append {a b : Text} (offset : Nat) (meet : Meet a b) :
    (a ++ b).breakEnds offset = a.breakEnds offset ++ b.breakEnds (offset + a.length) := by
  fun_induction breakEnds offset a with
  | case1 => rfl
  | case2 offset rest ih =>
    simp only [List.cons_append, breakEnds, ih meet.tail.tail, List.length_cons]
    rw [show offset + 2 + rest.length = offset + (rest.length + 1 + 1) by omega]
  | case3 offset rest hrest ih =>
    rw [List.cons_append, breakEnds.eq_3 _ _ (meet.lone hrest), ih meet.tail, List.cons_append,
      List.length_cons, show offset + 1 + rest.length = offset + (rest.length + 1) by omega]
  | case4 offset rest ih =>
    simp only [List.cons_append, breakEnds, ih meet.tail, List.length_cons]
    rw [show offset + 1 + rest.length = offset + (rest.length + 1) by omega]
  | case5 offset c rest hpair hreturn hnewline ih =>
    rw [List.cons_append, breakEnds.eq_5 _ _ _ (fun _ h _ => hreturn h) hreturn hnewline,
      ih meet.tail, List.length_cons,
      show offset + 1 + rest.length = offset + (rest.length + 1) by omega]

theorem breakEnds_add (offset n : Nat) (text : Text) :
    text.breakEnds (offset + n) = (text.breakEnds offset).map (· + n) := by
  fun_induction breakEnds offset text with
  | case1 => rfl
  | case2 offset rest ih => simp only [breakEnds, List.map_cons, ← ih, Nat.add_right_comm]
  | case3 offset rest hrest ih =>
    rw [breakEnds.eq_3 _ _ hrest, List.map_cons, ← ih, Nat.add_right_comm]
  | case4 offset rest ih => simp only [breakEnds, List.map_cons, ← ih, Nat.add_right_comm]
  | case5 offset c rest hpair hreturn hnewline ih =>
    rw [breakEnds.eq_5 _ _ _ (fun _ h _ => hreturn h) hreturn hnewline, ← ih, Nat.add_right_comm]

theorem segments_ne_nil (text : Text) : segments text ≠ [] := by
  fun_induction segments text with
  | case6 c rest _ _ _ h ih => exact absurd h ih
  | _ => simp

theorem eq_nil_of_append_singleton {α : Type} {x last : α} {early : List α}
    (h : [x] = early ++ [last]) : early = [] ∧ x = last := by
  obtain ⟨hnil, hlast⟩ := List.append_inj' (show [] ++ [x] = early ++ [last] from h) rfl
  exact ⟨hnil.symm, (List.cons.inj hlast).1⟩

theorem eq_cons_of_append_singleton {α : Type} {x last : α} {xs early : List α} (hne : xs ≠ [])
    (h : x :: xs = early ++ [last]) : ∃ more, early = x :: more ∧ xs = more ++ [last] := by
  cases early with
  | nil => exact absurd (List.cons.inj h).2 hne
  | cons y more =>
    obtain ⟨rfl, hxs⟩ := List.cons.inj h
    exact ⟨more, rfl, hxs⟩

/-- Where two texts meet, the last line of the first and the first line of the second become
one. -/
theorem segments_append {a b last first : Text} {early late : List Text}
    (ha : segments a = early ++ [last]) (hb : segments b = first :: late) (meet : Meet a b) :
    segments (a ++ b) = early ++ (last ++ first) :: late := by
  fun_induction segments a generalizing early last with
  | case1 =>
    obtain ⟨rfl, rfl⟩ := eq_nil_of_append_singleton ha
    exact hb
  | case2 rest ih =>
    obtain ⟨more, rfl, hrest⟩ := eq_cons_of_append_singleton (segments_ne_nil rest) ha
    simp only [List.cons_append, segments, ih hrest meet.tail.tail]
  | case3 rest hpair ih =>
    obtain ⟨more, rfl, hrest⟩ := eq_cons_of_append_singleton (segments_ne_nil rest) ha
    rw [List.cons_append, segments.eq_3 _ (meet.lone hpair), ih hrest meet.tail]
    rfl
  | case4 rest ih =>
    obtain ⟨more, rfl, hrest⟩ := eq_cons_of_append_singleton (segments_ne_nil rest) ha
    simp only [List.cons_append, segments, ih hrest meet.tail]
  | case5 c rest hpair hreturn hnewline line lines hlines ih =>
    rw [List.cons_append, segments.eq_5 _ _ (fun _ h _ => hreturn h) hreturn hnewline]
    by_cases hnil : lines = []
    · subst hnil
      obtain ⟨rfl, rfl⟩ := eq_nil_of_append_singleton ha
      rw [@ih line [] hlines meet.tail]
      rfl
    · obtain ⟨more, rfl, hrest⟩ := eq_cons_of_append_singleton hnil ha
      rw [@ih last (line :: more) (by rw [hlines, hrest]; rfl) meet.tail]
      rfl
  | case6 c rest hpair hreturn hnewline hnone ih => exact absurd hnone (segments_ne_nil rest)

/-- A text starts with its first line. -/
theorem first_segment_prefix {text line : Text} {lines : List Text}
    (h : segments text = line :: lines) : line <+: text := by
  fun_induction segments text generalizing line lines with
  | case1 =>
    obtain ⟨rfl, -⟩ := List.cons.inj h
    exact List.nil_prefix
  | case2 rest ih =>
    obtain ⟨rfl, -⟩ := List.cons.inj h
    exact List.nil_prefix
  | case3 rest hpair ih =>
    obtain ⟨rfl, -⟩ := List.cons.inj h
    exact List.nil_prefix
  | case4 rest ih =>
    obtain ⟨rfl, -⟩ := List.cons.inj h
    exact List.nil_prefix
  | case5 c rest hpair hreturn hnewline first more hlines ih =>
    obtain ⟨rfl, -⟩ := List.cons.inj h
    exact List.cons_prefix_cons.mpr ⟨rfl, ih hlines⟩
  | case6 c rest hpair hreturn hnewline hnone ih => exact absurd hnone (segments_ne_nil rest)

/-- A place in a line cuts the text: before it stand the lines before, and what of its line is
before it. -/
theorem exists_of_segments {text a b : Text} {early late : List Text}
    (h : segments text = early ++ (a ++ b) :: late) :
    ∃ before after, text = before ++ (b ++ after) ∧ segments before = early ++ [a] ∧
      Meet before (b ++ after) := by
  have hstart (text : Text) {a : Text} (hempty : [] = a ++ b) :
      ∃ before after, text = before ++ (b ++ after) ∧ segments before = [] ++ [a] ∧
        Meet before (b ++ after) := by
    obtain ⟨rfl, rfl⟩ := List.append_eq_nil_iff.mp hempty.symm
    exact ⟨[], text, rfl, rfl, meet_nil _⟩
  fun_induction segments text generalizing early a with
  | case1 =>
    cases early with
    | nil => exact hstart _ (List.cons.inj h).1
    | cons line early => simp at h
  | case2 rest ih =>
    cases early with
    | nil => exact hstart _ (List.cons.inj h).1
    | cons line early =>
      obtain ⟨rfl, hrest⟩ := List.cons.inj h
      obtain ⟨before, after, rfl, hbefore, meet⟩ := ih hrest
      refine ⟨'\r' :: '\n' :: before, after, rfl, ?_, ?_⟩
      · simp only [segments, hbefore, List.cons_append]
      · exact (meet.cons fun _ hr => absurd hr (by decide)).cons fun hnil => by cases hnil
  | case3 rest hpair ih =>
    cases early with
    | nil => exact hstart _ (List.cons.inj h).1
    | cons line early =>
      obtain ⟨rfl, hrest⟩ := List.cons.inj h
      obtain ⟨before, after, rfl, hbefore, meet⟩ := ih hrest
      refine ⟨'\r' :: before, after, rfl, ?_, ?_⟩
      · have hlone : ∀ more, before ≠ '\n' :: more := by
          rintro more rfl
          exact hpair _ rfl
        rw [segments.eq_3 _ hlone, hbefore, List.cons_append]
      · refine meet.cons fun hnil _ hhead => ?_
        subst hnil
        obtain ⟨more, hmore⟩ := List.head?_eq_some_iff.mp hhead
        exact hpair more hmore
  | case4 rest ih =>
    cases early with
    | nil => exact hstart _ (List.cons.inj h).1
    | cons line early =>
      obtain ⟨rfl, hrest⟩ := List.cons.inj h
      obtain ⟨before, after, rfl, hbefore, meet⟩ := ih hrest
      refine ⟨'\n' :: before, after, rfl, ?_, ?_⟩
      · simp only [segments, hbefore, List.cons_append]
      · exact meet.cons fun _ hr => absurd hr (by decide)
  | case5 c rest hpair hreturn hnewline first more hlines ih =>
    have hcons {before : Text} {line : Text} {lines : List Text}
        (hbefore : segments before = line :: lines) :
        segments (c :: before) = (c :: line) :: lines := by
      rw [segments.eq_5 _ _ (fun _ h _ => hreturn h) hreturn hnewline, hbefore]
    cases early with
    | nil =>
      obtain ⟨hline, rfl⟩ := List.cons.inj h
      cases a with
      | nil =>
        obtain ⟨after, hafter⟩ := first_segment_prefix hlines
        refine ⟨[], after, ?_, rfl, meet_nil _⟩
        rw [List.nil_append, ← hafter, ← List.nil_append b, ← hline, List.cons_append]
      | cons x a =>
        obtain ⟨rfl, rfl⟩ := List.cons.inj hline
        obtain ⟨before, after, rfl, hbefore, meet⟩ := @ih a [] hlines
        exact ⟨c :: before, after, rfl, hcons hbefore, meet.cons fun _ hr => absurd hr hreturn⟩
    | cons line early =>
      obtain ⟨rfl, rfl⟩ := List.cons.inj h
      obtain ⟨before, after, rfl, hbefore, meet⟩ := @ih a (first :: early) hlines
      exact ⟨c :: before, after, rfl, hcons hbefore, meet.cons fun _ hr => absurd hr hreturn⟩
  | case6 c rest hpair hreturn hnewline hnone ih => exact absurd hnone (segments_ne_nil rest)

theorem segments_cons {c : Char} (text : Text) (hr : c ≠ '\r') (hn : c ≠ '\n') :
    ∃ line lines, segments text = line :: lines ∧ segments (c :: text) = (c :: line) :: lines := by
  obtain ⟨line, lines, hlines⟩ := List.exists_cons_of_ne_nil (segments_ne_nil text)
  refine ⟨line, lines, hlines, ?_⟩
  rw [segments.eq_5 _ _ (fun _ h _ => hr h) hr hn, hlines]

/-- What has no line breaks stands on one line with what follows it. -/
theorem segments_prepend {part text line : Text} {lines : List Text}
    (h : ∀ c ∈ part, ¬(c = '\r' ∨ c = '\n')) (htext : segments text = line :: lines) :
    segments (part ++ text) = (part ++ line) :: lines := by
  induction part with
  | nil => exact htext
  | cons c part ih =>
    obtain ⟨hc, hpart⟩ := List.forall_mem_cons.mp h
    obtain ⟨hr, hn⟩ := not_or.mp hc
    obtain ⟨line', lines', hlines, hcons⟩ := segments_cons (part ++ text) hr hn
    rw [ih hpart] at hlines
    cases hlines
    exact hcons

/-- A text without line breaks is a line as soon as a break follows it. -/
theorem splitLines_append_break {line : Text} {x : Char} (rest : Text)
    (h : ∀ c ∈ line, ¬(c = '\r' ∨ c = '\n')) (hx : x = '\r' ∨ x = '\n') :
    ∃ more, splitLines (line ++ x :: rest) = line :: more := by
  obtain ⟨more, hne, hmore⟩ : ∃ more, more ≠ [] ∧ segments (x :: rest) = [] :: more := by
    rcases hx with rfl | rfl
    · by_cases hpair : ∃ late, rest = '\n' :: late
      · obtain ⟨late, rfl⟩ := hpair
        exact ⟨segments late, segments_ne_nil late, rfl⟩
      · exact ⟨segments rest, segments_ne_nil rest,
          segments.eq_3 rest fun late hlate => hpair ⟨late, hlate⟩⟩
    · exact ⟨segments rest, segments_ne_nil rest, rfl⟩
  have hline := segments_prepend h hmore
  rw [List.append_nil] at hline
  rw [splitLines, hline]
  split
  · exact ⟨more.dropLast, List.dropLast_cons_of_ne_nil hne⟩
  · exact ⟨more, rfl⟩

/-- The last line is the end of the text, and the whole text if there is no line before it. -/
theorem last_segment_suffix {text last : Text} {early : List Text}
    (h : segments text = early ++ [last]) : last <:+ text ∧ (early = [] → last = text) := by
  fun_induction segments text generalizing early last with
  | case1 =>
    obtain ⟨-, rfl⟩ := eq_nil_of_append_singleton h
    exact ⟨List.suffix_refl [], fun _ => rfl⟩
  | case2 rest ih =>
    obtain ⟨more, rfl, hrest⟩ := eq_cons_of_append_singleton (segments_ne_nil rest) h
    exact ⟨(ih hrest).1.trans ((List.suffix_cons '\n' rest).trans (List.suffix_cons '\r' _)),
      fun he => absurd he (List.cons_ne_nil _ _)⟩
  | case3 rest hpair ih =>
    obtain ⟨more, rfl, hrest⟩ := eq_cons_of_append_singleton (segments_ne_nil rest) h
    exact ⟨(ih hrest).1.trans (List.suffix_cons '\r' rest),
      fun he => absurd he (List.cons_ne_nil _ _)⟩
  | case4 rest ih =>
    obtain ⟨more, rfl, hrest⟩ := eq_cons_of_append_singleton (segments_ne_nil rest) h
    exact ⟨(ih hrest).1.trans (List.suffix_cons '\n' rest),
      fun he => absurd he (List.cons_ne_nil _ _)⟩
  | case5 c rest hpair hreturn hnewline line lines hlines ih =>
    by_cases hnil : lines = []
    · subst hnil
      obtain ⟨rfl, rfl⟩ := eq_nil_of_append_singleton h
      have hline := (ih (show segments rest = [] ++ [line] from hlines)).2 rfl
      rw [hline]
      exact ⟨List.suffix_refl _, fun _ => rfl⟩
    · obtain ⟨more, rfl, hrest⟩ := eq_cons_of_append_singleton hnil h
      have hs := (ih (show segments rest = (line :: more) ++ [last] by rw [hlines, hrest]; rfl)).1
      exact ⟨hs.trans (List.suffix_cons c rest), fun he => absurd he (List.cons_ne_nil _ _)⟩
  | case6 c rest hpair hreturn hnewline hnone ih => exact absurd hnone (segments_ne_nil rest)

theorem length_segments (offset : Nat) (text : Text) :
    (segments text).length = (text.breakEnds offset).length + 1 := by
  fun_induction breakEnds offset text with
  | case1 => rfl
  | case2 offset rest ih => simp only [segments, List.length_cons, ih]
  | case3 offset rest hrest ih => rw [segments.eq_3 _ hrest, List.length_cons, List.length_cons, ih]
  | case4 offset rest ih => simp only [segments, List.length_cons, ih]
  | case5 offset c rest hpair hreturn hnewline ih =>
    rw [segments.eq_5 _ _ (fun _ h _ => hreturn h) hreturn hnewline, ← ih]
    split
    next line lines hlines => rw [hlines]; rfl
    next hnone => exact absurd hnone (segments_ne_nil rest)

/-- The last line starts after the last break. -/
theorem length_last_segment {text last : Text} {early : List Text} (offset : Nat)
    (h : segments text = early ++ [last]) :
    (text.breakEnds offset).getLastD offset + last.length = offset + text.length := by
  fun_induction breakEnds offset text generalizing early last with
  | case1 =>
    obtain ⟨-, rfl⟩ := eq_nil_of_append_singleton h
    rfl
  | case2 offset rest ih =>
    obtain ⟨more, -, hrest⟩ := eq_cons_of_append_singleton (segments_ne_nil rest) h
    have := ih hrest
    rw [List.getLastD_cons]
    simp only [List.length_cons]
    omega
  | case3 offset rest hpair ih =>
    rw [segments.eq_3 _ hpair] at h
    obtain ⟨more, -, hrest⟩ := eq_cons_of_append_singleton (segments_ne_nil rest) h
    have := ih hrest
    rw [List.getLastD_cons]
    simp only [List.length_cons]
    omega
  | case4 offset rest ih =>
    obtain ⟨more, -, hrest⟩ := eq_cons_of_append_singleton (segments_ne_nil rest) h
    have := ih hrest
    rw [List.getLastD_cons]
    simp only [List.length_cons]
    omega
  | case5 offset c rest hpair hreturn hnewline ih =>
    obtain ⟨line, lines, hlines⟩ := List.exists_cons_of_ne_nil (segments_ne_nil rest)
    have hcount := length_segments (offset + 1) rest
    rw [segments.eq_5 _ _ (fun _ h _ => hreturn h) hreturn hnewline, hlines] at h
    rw [hlines] at hcount
    by_cases hnil : lines = []
    · subst hnil
      obtain ⟨-, rfl⟩ := eq_nil_of_append_singleton h
      have hnone : breakEnds (offset + 1) rest = [] := by simpa using hcount
      have := ih (show segments rest = [] ++ [line] from hlines)
      rw [hnone, List.getLastD_nil] at this
      rw [hnone, List.getLastD_nil, List.length_cons, List.length_cons]
      omega
    · obtain ⟨more, -, hrest⟩ := eq_cons_of_append_singleton hnil h
      have := ih (show segments rest = (line :: more) ++ [last] by rw [hlines, hrest]; rfl)
      cases hends : breakEnds (offset + 1) rest with
      | nil =>
        rw [hends] at hcount
        exact absurd (List.length_eq_zero_iff.mp (by simpa using hcount)) hnil
      | cons b ends =>
        rw [hends] at this
        rw [List.getLastD_cons] at this ⊢
        simp only [List.length_cons]
        omega

theorem splitLines_prefix (text : Text) : splitLines text <+: segments text := by
  unfold splitLines
  dsimp only
  split
  next => exact List.dropLast_prefix _
  next => exact List.prefix_refl _

/-- The lines of a text in which two texts meet, if they do not meet in an empty line at its end. -/
theorem splitLines_append {a b last first : Text} {early late : List Text}
    (ha : segments a = early ++ [last]) (hb : segments b = first :: late) (meet : Meet a b)
    (hline : late ≠ [] ∨ last ++ first ≠ [] ∨ early = []) :
    splitLines (a ++ b) = early ++ (last ++ first) ::
      (if late.getLast? = some [] then late.dropLast else late) := by
  rw [splitLines, segments_append ha hb meet]
  cases late with
  | nil =>
    rw [if_neg]
    · simp
    · rintro ⟨hcount, hempty⟩
      rcases hline with hlate | hmeet | hearly
      · exact hlate rfl
      · rw [List.getLast?_concat] at hempty
        exact hmeet (Option.some.inj hempty)
      · rw [hearly] at hcount
        exact absurd hcount (by simp)
  | cons line late =>
    have hlast : (early ++ (last ++ first) :: line :: late).getLast? = (line :: late).getLast? := by
      rw [List.getLast?_append, List.getLast?_cons_cons, List.getLast?_cons]
      rfl
    rw [hlast]
    by_cases hempty : (line :: late).getLast? = some []
    · rw [if_pos ⟨by simp only [List.length_append, List.length_cons]; omega, hempty⟩,
        if_pos hempty, List.dropLast_append_of_ne_nil (by simp)]
      simp [List.dropLast_cons_of_ne_nil]
    · rw [if_neg (fun h => hempty h.2), if_neg hempty]

end Text

end StyleRules
