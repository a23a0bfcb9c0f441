import StyleRules.Proofs.Coverage
import StyleRules.Proofs.LineEndings
import StyleRules.Proofs.Rereading

namespace StyleRules

namespace Mask

variable {d : Dialect} {x y : Char}

/-- What is left of a delimiter at the end of a text stays ahead of the scanner. -/
theorem held_endOf (hx : d.Alien x) (hy : d.Alien y) {region : Region} {text rest : Text}
    (unbothered : Unbothered y region) (held : Held x region (text ++ y :: rest)) :
    Held x (endOf d region text) (y :: rest) := by
  induction text generalizing region with
  | nil => exact held
  | cons c text ih =>
    have hstep := held_step hx held
    rw [List.append_eq, enter_append hy unbothered] at hstep
    exact ih (unbothered_leave (unbothered_enter hy unbothered c text) c) hstep

/-- A character that leaves a scanner in the region it is in. -/
structure Rests (x : Char) (region : Region) : Prop where
  settled : Settled region
  unbothered : Unbothered x region
  passing : passing x region = region

theorem shown_enter (h : d.Plain x) {region : Region} (rests : Rests x region) (comments : Bool)
    (rest : Text) : shown comments (enter d region x rest) x = shown comments region x := by
  have hpassing := rests.passing
  have hstart : ∀ needle : Text, x ∉ needle → needle ≠ [] →
      Text.startsWith needle (x :: rest) = false :=
    fun needle hx hne => Text.startsWith_of_not_mem rest hne hx
  cases region with
  | code => rw [enter, h.opensCode]
  | lineComment =>
    have hx : x ≠ '\n' := by
      rintro rfl
      cases hpassing
    rw [enter, if_neg hx]
  | blockComment n =>
    cases rests.settled
    simp only [enter]
    split
    next =>
      split
      next => rfl
      next => rfl
    next => rfl
  | blockEnd n => cases hpassing
  | literalEnd n => cases hpassing
  | literal quote n =>
    have hclosed := hstart quote rests.unbothered rests.settled.1
    have hopen : ¬(n = 0 ∧ quote.length = 1 ∧ (x = '\r' ∨ x = '\n')) := by
      intro hbreak
      rw [Mask.passing, if_pos hbreak] at hpassing
      cases hpassing
    rw [Mask.passing, if_neg hopen] at hpassing
    cases hpassing
    have hbreak : ¬(quote.length = 1 ∧ (x = '\r' ∨ x = '\n')) := fun hb => hopen ⟨rfl, hb⟩
    rw [enter, hclosed, if_neg Bool.false_ne_true, if_neg hbreak]

/-- Characters that leave a scanner in its region are shown as they are shown in that region. -/
theorem scan_rests {region : Region} {part : Text} (h : ∀ c ∈ part, d.Plain c ∧ Rests c region)
    (comments : Bool) (rest : Text) :
    scan d comments region (part ++ rest) =
      part.map (shown comments region) ++ scan d comments region rest := by
  induction part with
  | nil => rfl
  | cons c part ih =>
    obtain ⟨⟨plain, rests⟩, hpart⟩ := List.forall_mem_cons.mp h
    have hleave := leave_enter_plain plain rests.unbothered rests.settled (part ++ rest)
    rw [rests.passing] at hleave
    rw [List.cons_append, scan]
    simp only [hleave, shown_enter plain rests, ih hpart, List.map_cons, List.cons_append]

/-- A character that means nothing to a scanner of Python text. -/
def Quiet (c : Char) : Prop := c ∉ ['#', '"', '\'', '\\', '\r', '\n']

instance (c : Char) : Decidable (Quiet c) := inferInstanceAs (Decidable (c ∉ _))

/-- Whether characters are quiet can be computed for one after the other. -/
theorem quiet_of_all {text : Text} (h : text.all (fun c => decide (Quiet c)) = true) :
    ∀ c ∈ text, Quiet c :=
  fun c hc => of_decide_eq_true (List.all_eq_true.mp h c hc)

theorem Quiet.plain (h : Quiet x) : Dialect.python.Plain x := by
  simp only [Quiet, List.mem_cons, List.not_mem_nil, or_false, not_or] at h
  exact python_plain h.1 h.2.1 h.2.2.1 h.2.2.2.1

theorem Quiet.not_break (h : Quiet x) : ¬(x = '\r' ∨ x = '\n') := by
  simp only [Quiet, List.mem_cons, List.not_mem_nil, or_false, not_or] at h
  exact not_or.mpr ⟨h.2.2.2.2.1, h.2.2.2.2.2⟩

theorem passing_passing (hx : Quiet x) (hy : Quiet y) (region : Region) :
    passing y (passing x region) = passing x region := by
  have hnewline (x : Char) (hx : Quiet x) : x ≠ '\n' := fun h => hx.not_break (Or.inr h)
  cases region with
  | lineComment => simp [passing, hnewline x hx, hnewline y hy]
  | literal quote n => simp [passing, hx.not_break, hy.not_break]
  | _ => rfl

/-- What stands between two spaces of a Python text is shown as it is, or blanked out. -/
theorem mask_between (u r : Text) : ∃ (f : Char → Char) (behind : Text),
    ((∀ c, Quiet c → f c = c) ∨ ∀ c, Quiet c → f c = ' ') ∧
      ∀ part : Text, (∀ c ∈ part, Quiet c) →
        mask (u ++ ' ' :: (part ++ ' ' :: r)) .python false =
          mask u .python false ++ ' ' :: (part.map f ++ ' ' :: behind) := by
  have hspace : Quiet ' ' := by unfold Quiet; decide
  obtain ⟨region, hregion⟩ : ∃ region, endOf .python .code u = region := ⟨_, rfl⟩
  have hheld {x : Char} (hx : Quiet x) : Held x region (' ' :: r) :=
    hregion ▸ held_endOf hx.plain.toAlien hspace.plain.toAlien trivial trivial
  have hsettled := settled_of_held (hheld hspace)
  have hrests {x : Char} (hx : Quiet x) : Rests x (passing ' ' region) :=
    ⟨settled_passing ' ' hsettled, unbothered_passing ' ' (unbothered_of_held (hheld hx)),
      passing_passing hspace hx region⟩
  have hleave (rest : Text) := leave_enter_plain hspace.plain (unbothered_of_held (hheld hspace))
    hsettled rest
  have hshown (region : Region) : shown false region ' ' = ' ' := by
    rcases shown_eq_or false region ' ' with h | ⟨h, -⟩
    · exact h
    · exact h
  refine ⟨shown false (passing ' ' region), scan .python false (passing ' ' region) r, ?_, ?_⟩
  · have hblank : ∀ c, Quiet c → blank c = ' ' := fun c hc => if_neg hc.not_break
    cases region with
    | literal quote n =>
      right
      intro c hc
      rw [passing, if_neg fun h => hspace.not_break h.2.2]
      exact hblank c hc
    | lineComment => exact Or.inl fun _ _ => rfl
    | _ => exact Or.inl fun _ _ => rfl
  · intro part hpart
    have happend := @scan_append .python ' ' hspace.plain.toAlien false .code trivial u
      (part ++ ' ' :: r)
    have hpart' : ∀ c ∈ part, Dialect.python.Plain c ∧ Rests c (passing ' ' region) :=
      fun c hc => ⟨(hpart c hc).plain, hrests (hpart c hc)⟩
    have hlast := scan_rests (List.forall_mem_singleton.mpr ⟨hspace.plain, hrests hspace⟩) false r
    rw [List.singleton_append, List.map_singleton, hshown] at hlast
    unfold mask
    rw [happend, hregion, scan]
    simp only [hleave, hshown]
    rw [scan_rests hpart', hlast]
    rfl

end Mask

open WeakDelegate (lastLineNumber lastLineLength Longer)

section Between

open Mask (Quiet)

theorem breakEnds_quiet {part : Text} (h : ∀ c ∈ part, Quiet c) (offset : Nat) :
    part.breakEnds offset = [] := by
  induction part generalizing offset with
  | nil => rfl
  | cons c part ih =>
    obtain ⟨hc, hpart⟩ := List.forall_mem_cons.mp h
    obtain ⟨hr, hn⟩ := not_or.mp hc.not_break
    rw [Text.breakEnds.eq_5 _ _ _ (by simp [hr]) (by simp [hr]) (by simp [hn])]
    exact ih hpart _

/-- The lines of a masked Python text with a part between two spaces: only one depends on it. -/
theorem splitLines_between (u r : Text) : ∃ (f : Char → Char) (early : List Text) (s first : Text)
      (late : List Text),
    ((∀ c, Quiet c → f c = c) ∨ ∀ c, Quiet c → f c = ' ') ∧
      1 + early.length = lastLineNumber u ∧ s.length = lastLineLength u ∧
      ∀ part : Text, (∀ c ∈ part, Quiet c) →
        (mask (u ++ ' ' :: (part ++ ' ' :: r)) .python false).splitLines =
          early ++ (s ++ ' ' :: (part.map f ++ ' ' :: first)) :: late := by
  obtain ⟨f, behind, hf, hmask⟩ := Mask.mask_between u r
  have hends : (mask u .python false).breakEnds 0 = u.breakEnds 0 :=
    Mask.breakEnds_scan false .code 0 u
  have hlength : (mask u .python false).length = u.length := Mask.length_scan _ _ _ _
  obtain ⟨early, s, hearly⟩ : ∃ early s, (mask u .python false).segments = early ++ [s] :=
    ⟨_, _, (List.dropLast_concat_getLast (Text.segments_ne_nil _)).symm⟩
  obtain ⟨first, late, -, hbehind⟩ :=
    Text.segments_cons behind (show ' ' ≠ '\r' by decide) (by decide)
  have hcount := Text.length_segments 0 (mask u .python false)
  have hlast := Text.length_last_segment 0 hearly
  rw [hends] at hcount hlast
  rw [hearly, List.length_append, List.length_singleton] at hcount
  refine ⟨f, early, s, first, if late.getLast? = some [] then late.dropLast else late, hf, ?_, ?_,
    fun part hpart => ?_⟩
  · unfold lastLineNumber
    omega
  · unfold lastLineLength
    omega
  · have hbreak : ∀ c ∈ ' ' :: part.map f, ¬(c = '\r' ∨ c = '\n') := by
      refine List.forall_mem_cons.mpr ⟨by decide, List.forall_mem_map.mpr fun c hc => ?_⟩
      rcases hf with hf | hf
      · rw [hf c (hpart c hc)]
        exact (hpart c hc).not_break
      · rw [hf c (hpart c hc)]
        decide
    have hline := Text.segments_prepend hbreak hbehind
    rw [hmask part hpart]
    exact Text.splitLines_append hearly hline (.of_head (by simp)) (by simp)

variable {u r a b : Text} {growth : Nat}

/-- What a part between two spaces is replaced by. -/
structure Replaces (growth : Nat) (a b : Text) : Prop where
  quiet : ∀ c ∈ a, Quiet c
  quiet' : ∀ c ∈ b, Quiet c
  sign : ∃ c rest, a = c :: rest ∧ (c = '=' ∨ c = '!')
  length : b.length = a.length + growth

theorem Replaces.longer (h : Replaces growth a b) : Longer growth a b where
  breaks := breakEnds_quiet h.quiet
  breaks' := breakEnds_quiet h.quiet'
  head c hc heq := (h.quiet c (List.mem_of_mem_head? hc)).not_break (Or.inr heq)
  head' c hc heq := (h.quiet' c (List.mem_of_mem_head? hc)).not_break (Or.inr heq)
  length := h.length

theorem Replaces.yields (h : Replaces growth a b) {f : Char → Char}
    (hf : (∀ c, Quiet c → f c = c) ∨ ∀ c, Quiet c → f c = ' ') (rest : Text) :
    Directive.Yields (a.map f ++ rest) (b.map f ++ rest) := by
  rcases hf with hf | hf
  · obtain ⟨c, more, rfl, hc⟩ := h.sign
    rw [List.map_cons, hf c (h.quiet c List.mem_cons_self)]
    exact Or.inr ⟨c, _, rfl, hc⟩
  · have hspaces {part : Text} (hpart : ∀ c ∈ part, Quiet c) (p : Char → Bool) (hp : p ' ' = true) :
        (part.map f ++ rest).dropWhile p = rest.dropWhile p := by
      apply List.dropWhile_append_of_pos
      refine List.forall_mem_map.mpr fun c hc => ?_
      rw [hf c (hpart c hc)]
      exact hp
    exact Or.inl fun p hp => (hspaces h.quiet p hp).trans (hspaces h.quiet' p hp).symm

/-- Every directive of a Python text is read again once a part between two spaces is replaced, with
at least the identifiers that it had. -/
theorem ofText_between (h : Replaces growth a b) {d : Directive}
    (hd : d ∈ Directive.ofText (u ++ ' ' :: (a ++ ' ' :: r)) .python) :
    (d.line ≠ lastLineNumber u ∧
      d ∈ Directive.ofText (u ++ ' ' :: (b ++ ' ' :: r)) .python) ∨
    (d.line = lastLineNumber u ∧
      ∃ d' ∈ Directive.ofText (u ++ ' ' :: (b ++ ' ' :: r)) .python,
        Directive.Stays (lastLineLength u + 1) growth d d') := by
  obtain ⟨f, early, s, first, late, hf, hnumber, hlength, hlines⟩ := splitLines_between u r
  rw [Directive.ofText, hlines a h.quiet, Directive.ofLines_append, Directive.ofLines,
    hnumber] at hd
  rw [Directive.ofText, hlines b h.quiet', Directive.ofLines_append, Directive.ofLines, hnumber]
  rcases List.mem_append.mp hd with hd | hd
  · have hline := Directive.mem_ofLines hd
    exact Or.inl ⟨by omega, List.mem_append_left _ hd⟩
  · rcases List.mem_append.mp hd with hd | hd
    · have hsign : '#' ∉ a.map f := by
        intro hmem
        obtain ⟨c, hc, hfc⟩ := List.mem_map.mp hmem
        have hquiet := h.quiet c hc
        rcases hf with hf | hf
        · rw [hf c hquiet] at hfc
          exact hquiet (by simp [hfc])
        · rw [hf c hquiet] at hfc
          exact absurd hfc (by decide)
      have hne : a.map f ≠ [] := by
        obtain ⟨c, rest, rfl, -⟩ := h.sign
        exact List.cons_ne_nil _ _
      obtain ⟨d', hd', hstays⟩ := Directive.ofLineFrom_space (h.yields hf _) hsign hne
        (by rw [List.length_map, List.length_map, h.length]) hd
      rw [hlength] at hstays
      refine Or.inr ⟨(Directive.mem_ofLineFrom hd).1, d', ?_, hstays⟩
      exact List.mem_append_right _ (List.mem_append_left _ hd')
    · have hline := Directive.mem_ofLines hd
      exact Or.inl ⟨by omega, List.mem_append_right _ (List.mem_append_right _ hd)⟩

/-- Where an offset is once a part behind a cut is replaced by a longer one. -/
def movedBehind (cut growth offset : Nat) : Nat :=
  if offset ≤ cut then offset else offset + growth

theorem lastLine_space (u : Text) :
    lastLineNumber (u ++ [' ']) = lastLineNumber u ∧
      lastLineLength (u ++ [' ']) = lastLineLength u + 1 := by
  have hends : (u ++ [' ']).breakEnds 0 = u.breakEnds 0 := by
    rw [Text.breakEnds_append 0 (.of_head (by simp))]
    exact List.append_nil _
  have hbound : (u.breakEnds 0).getLastD 0 ≤ u.length := by
    rw [List.getLastD_eq_getLast?]
    cases hlast : (u.breakEnds 0).getLast? with
    | none => exact Nat.zero_le _
    | some b =>
      have := (Text.breakEnds_bounds (List.mem_of_getLast? hlast)).2
      simpa using this
  unfold lastLineNumber lastLineLength
  rw [hends, List.length_append, List.length_singleton]
  exact ⟨rfl, by omega⟩

/-- Where a rule is enabled once a part between two spaces is replaced, it was enabled before. -/
theorem isEnabled_of_replaced {f : SourceFile} {rule : Text} {offset : Nat}
    (h : Replaces growth a b) (hpython : f.dialect = .python)
    (hcontents : f.contents = u ++ ' ' :: (a ++ ' ' :: r)) (hoffset : offset ≤ f.contents.length)
    (henabled : SourceFile.isEnabled { f with contents := u ++ ' ' :: (b ++ ' ' :: r) } rule
      (SourceFile.locate { f with contents := u ++ ' ' :: (b ++ ' ' :: r) }
        (movedBehind (u.length + 1) growth offset)) = true) :
    f.isEnabled rule (f.locate offset) = true := by
  have hsplit (part : Text) :
      u ++ ' ' :: (part ++ ' ' :: r) = (u ++ [' ']) ++ (part ++ ' ' :: r) := by simp
  have hcut : (u ++ [' ']).length = u.length + 1 := List.length_append
  obtain ⟨hnumber, hlength⟩ := lastLine_space u
  have hbreak : ∀ c ∈ (' ' :: r).head?, c ≠ '\n' := by simp
  -- The place stays where it is, or moves along the line of the part.
  obtain ⟨line, character, character', hold, hnew, hmoved⟩ : ∃ line character character',
      (LineIndex.ofText f.contents).position? offset = some (line, character) ∧
      (LineIndex.ofText (u ++ ' ' :: (b ++ ' ' :: r))).position?
        (movedBehind (u.length + 1) growth offset : Nat) = some (line, character') ∧
      (character ≤ character' ∧ (line = lastLineNumber u → lastLineLength u + 2 < character →
        character' = character + growth)) := by
    rw [hcontents] at hoffset ⊢
    rw [hsplit, hsplit]
    rw [hsplit] at hoffset
    by_cases hle : offset ≤ u.length + 1
    · obtain ⟨line, character, hold, hnew, hline⟩ :=
        WeakDelegate.position?_before h.longer hbreak (hcut ▸ hle)
      rw [movedBehind, if_pos hle]
      refine ⟨line, character, character, hold, hnew, Nat.le_refl _, fun heq hlt => ?_⟩
      have := hline (heq.trans hnumber.symm)
      omega
    · obtain ⟨n, rfl⟩ := Nat.exists_eq_add_of_lt (Nat.not_le.mp hle)
      rw [List.length_append, hcut] at hoffset
      obtain ⟨line, character, character', hold, hnew, hmoved⟩ :=
        @WeakDelegate.position?_behind growth (n + 1) (u ++ [' ']) a b (' ' :: r) h.longer hbreak
          (by omega)
      rw [movedBehind, if_neg hle]
      rw [hcut] at hold hnew
      refine ⟨line, character, character', hold, hnew, ?_⟩
      rcases hmoved with ⟨rfl, hline⟩ | ⟨rfl, -⟩
      · exact ⟨Nat.le_refl _, fun heq => absurd (heq.trans hnumber.symm) hline⟩
      · exact ⟨Nat.le_add_right _ _, fun _ _ => rfl⟩
  rw [SourceFile.locate_eq hold]
  rw [SourceFile.locate_eq (f := { f with contents := u ++ ' ' :: (b ++ ' ' :: r) }) hnew]
    at henabled
  simp only [SourceFile.isEnabled, SourceFile.directives, Directive.leaveEnabled, hpython,
    Bool.not_eq_true', List.any_eq_false, Bool.and_eq_true, not_and] at henabled ⊢
  intro d hd happlies hcovers
  rw [hcontents] at hd
  rcases ofText_between h hd with ⟨hother, hsame⟩ | ⟨hline, d', hd', hstays⟩
  · refine henabled d hsame happlies
      (WeakDelegate.covers_of_line_eq _ _ _ rfl rfl (fun _ hle => ?_) hcovers)
    exact Nat.le_trans hle hmoved.1
  · refine henabled d' hd' (hstays.rules rule happlies)
      (WeakDelegate.covers_of_line_eq _ _ _ hstays.line hstays.modifier (fun heq hle => ?_) hcovers)
    rcases hstays.character with ⟨-, hd⟩ | ⟨hbehind, hd⟩
    · rw [hd]
      exact Nat.le_trans hle hmoved.1
    · rw [hd, hmoved.2 (heq ▸ hline) (by omega)]
      omega

end Between

end StyleRules
