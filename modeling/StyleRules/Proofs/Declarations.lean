import StyleRules.Proofs.Masking
import StyleRules.Rule.WeakDelegate
import Mathlib.Data.List.TakeWhile

namespace StyleRules

namespace WeakDelegate

/-- The text starts as "var" or "weak" does. -/
def StartsWord (text : Text) : Prop := ∃ x rest, text = x :: rest ∧ (x = 'v' ∨ x = 'w')

theorem StartsWord.head {text : Text} {p : Char → Bool} {b : Bool} (h : StartsWord text)
    (hv : p 'v' = b) (hw : p 'w' = b) : ∀ c ∈ text.head?, p c = b := by
  obtain ⟨x, rest, rfl, hx⟩ := h
  intro c hc
  cases Option.mem_some.mp hc
  rcases hx with rfl | rfl
  · exact hv
  · exact hw

theorem StartsWord.ne_comma {text : Text} (h : StartsWord text) : ∀ c ∈ text.head?, c ≠ ',' := by
  obtain ⟨x, rest, rfl, hx⟩ := h
  intro c hc
  cases Option.mem_some.mp hc
  rcases hx with rfl | rfl
  · decide
  · decide

theorem StartsWord.takeWhile_ne_nil {text : Text} (h : StartsWord text) :
    text.takeWhile Text.isWordChar ≠ [] := by
  have hword : ∀ c ∈ text.head?, Text.isWordChar c = true := h.head (by decide) (by decide)
  obtain ⟨x, rest, rfl, -⟩ := h
  rw [List.takeWhile_cons_of_pos (hword x rfl)]
  exact List.cons_ne_nil _ _

theorem StartsWord.foreign {text needle : Text} (h : StartsWord text) (hv : 'v' ∉ needle)
    (hw : 'w' ∉ needle) : Text.Foreign needle text := by
  obtain ⟨x, rest, rfl, hx⟩ := h
  apply Text.foreign_cons
  rcases hx with rfl | rfl
  · exact hv
  · exact hw

theorem declared?_eq_some {text name : Text} {length : Nat}
    (h : declared? text = some (name, length)) : Text.startsWith ['v', 'a', 'r'] text = true ∧
      name ≠ [] ∧ 3 < length := by
  unfold declared? at h
  split at h
  next hs =>
    dsimp only at h
    split at h
    next => cases h
    next hne =>
      simp only [not_or] at hne
      cases Option.some.inj h
      have hgap := List.length_pos_iff.mpr hne.1
      exact ⟨hs, hne.2, by omega⟩
  next => cases h

/-- A declaration that a text starts does not depend on what follows, unless the text ends before
the name. -/
theorem declared?_append {c : Char} {text after : Text} (ha : StartsWord after)
    (hb : Text.AtBoundary (c :: text))
    (hname : ∀ gap, c :: text = ['v', 'a', 'r'] ++ gap → gap ≠ [] → ¬gap.all Text.isBlank) :
    declared? (c :: (text ++ after)) = declared? (c :: text) := by
  have hhead : ∀ a ∈ after.head?, Text.isBlank a = false := ha.head (by decide) (by decide)
  have hstart : Text.startsWith "var".toList (c :: (text ++ after)) =
      Text.startsWith "var".toList (c :: text) := by
    have hrest := Text.startsWith_append_of_foreign text
      (ha.foreign (show 'v' ∉ ['a', 'r'] by decide) (by decide))
    show Text.startsWith ['v', 'a', 'r'] _ = Text.startsWith ['v', 'a', 'r'] _
    simp only [Text.startsWith] at hrest
    simp [Text.startsWith, List.isPrefixOf, hrest]
  unfold declared?
  rw [hstart]
  split
  next hs =>
    obtain ⟨gap, hgap⟩ := List.isPrefixOf_iff_prefix.mp hs
    have hgap' : c :: text = ['v', 'a', 'r'] ++ gap := hgap.symm
    have hdrop : (c :: (text ++ after)).drop 3 = gap ++ after := by
      rw [← List.cons_append, hgap']
      rfl
    have hdrop' : (c :: text).drop 3 = gap := by rw [hgap']; rfl
    rw [hdrop, hdrop']
    dsimp only
    rw [Text.takeWhile_append_of_head gap hhead, Text.dropWhile_append_of_head gap hhead]
    by_cases hnil : gap = []
    · simp [hnil]
    · have hne : gap.dropWhile Text.isBlank ≠ [] := by
        intro hall
        apply hname gap hgap' hnil
        exact List.all_eq_true.mpr (List.dropWhile_eq_nil_iff.mp hall)
      have hend : Text.AtBoundary (gap.dropWhile Text.isBlank) :=
        (hgap' ▸ hb).of_suffix ((List.dropWhile_suffix _).trans (List.suffix_append _ gap))
      obtain ⟨htake, -⟩ := Text.takeWhile_append_of_exists after (hend.exists_not_word hne)
      rw [htake]
  next => rfl

/-- A declaration whose name the text does not reach reaches beyond the text. -/
theorem declared?_append_gap {gap after : Text} (ha : StartsWord after) (hne : gap ≠ [])
    (hblank : gap.all Text.isBlank) : ∃ name length,
      declared? (['v', 'a', 'r'] ++ gap ++ after) = some (name, length) ∧
        3 + gap.length < length := by
  have hhead : ∀ a ∈ after.head?, Text.isBlank a = false := ha.head (by decide) (by decide)
  have hword : ∀ a ∈ after.head?, Text.isWordChar a = true := ha.head (by decide) (by decide)
  have htake : gap.takeWhile Text.isBlank = gap :=
    List.takeWhile_eq_self_iff.mpr (List.all_eq_true.mp hblank)
  have hdrop : gap.dropWhile Text.isBlank = [] :=
    List.dropWhile_eq_nil_iff.mpr (List.all_eq_true.mp hblank)
  have hstart : Text.startsWith "var".toList (['v', 'a', 'r'] ++ gap ++ after) = true := by
    rw [List.append_assoc]
    exact Text.startsWith_append ['v', 'a', 'r'] _
  have hthree : (['v', 'a', 'r'] ++ gap ++ after).drop 3 = gap ++ after := rfl
  unfold declared?
  rw [if_pos hstart, hthree]
  dsimp only
  rw [Text.takeWhile_append_of_head gap hhead, Text.dropWhile_append_of_head gap hhead, htake,
    hdrop, List.nil_append]
  obtain ⟨x, rest, rfl, -⟩ := ha
  rw [List.takeWhile_cons_of_pos (hword x rfl), if_neg (by simp [hne])]
  exact ⟨_, _, rfl, by simp⟩

theorem declarationsFrom_offset_le {afterWord : Bool} {pending offset : Nat} {text : Text}
    {d : Nat × Text} (h : d ∈ declarationsFrom afterWord pending offset text) :
    offset + pending ≤ d.1 := by
  fun_induction declarationsFrom afterWord pending offset text with
  | case1 => simp at h
  | case2 _ offset c rest k ih =>
    have := ih h
    omega
  | case3 _ offset c rest name length hd ih =>
    rcases List.mem_cons.mp h with rfl | h
    · exact Nat.le_refl _
    · have := ih h
      omega
  | case4 _ offset c rest hd ih =>
    have := ih h
    omega

/-- Moving code moves what it declares. -/
theorem declarationsFrom_add (afterWord : Bool) (pending offset n : Nat) (text : Text) :
    declarationsFrom afterWord pending (offset + n) text =
      (declarationsFrom afterWord pending offset text).map fun d => (d.1 + n, d.2) := by
  fun_induction declarationsFrom afterWord pending offset text with
  | case1 => rfl
  | case2 _ offset c rest k ih =>
    rw [declarationsFrom, ← ih, Nat.add_right_comm]
  | case3 _ offset c rest name length hd ih =>
    rw [declarationsFrom, hd, List.map_cons, ← ih, Nat.add_right_comm]
  | case4 _ offset c rest hd ih =>
    rw [declarationsFrom, hd, ← ih, Nat.add_right_comm]

/-- Code before what an offset after a first character belongs to, with that character. -/
theorem atBoundary_cons {c : Char} {before : Text} (hb : Text.AtBoundary before)
    (hc : before = [] → Text.isWordChar c = false) : Text.AtBoundary (c :: before) := by
  intro a ha
  cases before with
  | nil =>
    cases Option.mem_some.mp ha
    exact hc rfl
  | cons b before =>
    rw [List.getLast?_cons_cons] at ha
    exact hb a ha

/-- Where a variable is declared, the code before does not end within a word. -/
theorem mem_declarationsFrom {afterWord : Bool} {pending offset : Nat} {text : Text}
    {d : Nat × Text} (h : d ∈ declarationsFrom afterWord pending offset text) :
    ∃ before after length, text = before ++ after ∧ d.1 = offset + before.length ∧
      declared? after = some (d.2, length) ∧ Text.AtBoundary before ∧
      (before = [] → afterWord = false) := by
  fun_induction declarationsFrom afterWord pending offset text with
  | case1 => simp at h
  | case2 _ offset c rest k ih =>
    obtain ⟨before, after, length, rfl, ho, hd, hb, hc⟩ := ih h
    exact ⟨c :: before, after, length, rfl, by simp only [List.length_cons]; omega, hd,
      atBoundary_cons hb hc, fun he => absurd he (List.cons_ne_nil _ _)⟩
  | case3 afterWord offset c rest name length hd ih =>
    rcases List.mem_cons.mp h with rfl | h
    · split at hd
      next => cases hd
      next hw =>
        exact ⟨[], c :: rest, length, rfl, rfl, hd, Text.atBoundary_nil,
          fun _ => by simpa using hw⟩
    · obtain ⟨before, after, length, rfl, ho, hd, hb, hc⟩ := ih h
      exact ⟨c :: before, after, length, rfl, by simp only [List.length_cons]; omega, hd,
        atBoundary_cons hb hc, fun he => absurd he (List.cons_ne_nil _ _)⟩
  | case4 _ offset c rest hd ih =>
    obtain ⟨before, after, length, rfl, ho, hd, hb, hc⟩ := ih h
    exact ⟨c :: before, after, length, rfl, by simp only [List.length_cons]; omega, hd,
      atBoundary_cons hb hc, fun he => absurd he (List.cons_ne_nil _ _)⟩

/-- Within a declaration nothing else is declared. -/
theorem le_of_mem_declarationsFrom {offset length : Nat} {text name : Text}
    (hd : declared? text = some (name, length)) {d : Nat × Text}
    (h : d ∈ declarationsFrom false 0 offset text) : d.1 = offset ∨ offset + length ≤ d.1 := by
  cases text with
  | nil => simp [declarationsFrom] at h
  | cons c rest =>
    simp only [declarationsFrom, Bool.false_eq_true, if_false, hd] at h
    rcases List.mem_cons.mp h with rfl | h
    · exact Or.inl rfl
    · have := declarationsFrom_offset_le h
      right
      omega

/-- What stands behind "var" and blanks is the name declared there. -/
theorem not_declared_behind_gap {offset : Nat} {gap after name : Text} (ha : StartsWord after)
    (hne : gap ≠ []) (hblank : gap.all Text.isBlank) :
    (offset + (['v', 'a', 'r'] ++ gap).length, name) ∉
      declarationsFrom false 0 offset (['v', 'a', 'r'] ++ gap ++ after) := by
  intro h
  obtain ⟨found, length, hd, hlong⟩ := declared?_append_gap ha hne hblank
  have hlength : (['v', 'a', 'r'] ++ gap).length = 3 + gap.length := by
    rw [List.length_append]
    rfl
  have hwithin := le_of_mem_declarationsFrom hd h
  rw [hlength] at hwithin
  dsimp only at hwithin
  omega

/-- Code before a declaration is read alike whether or not the declaration is moved behind another
word. -/
theorem declarationsFrom_append {afterWord : Bool} {pending offset : Nat}
    {before after moved name : Text} (ha : StartsWord after) (hm : StartsWord moved)
    (hb : Text.AtBoundary before)
    (h : (offset + before.length, name) ∈
      declarationsFrom afterWord pending offset (before ++ after)) :
    ∃ early, (∀ d ∈ early, d.1 < offset + before.length) ∧
      declarationsFrom afterWord pending offset (before ++ after) =
        early ++ declarationsFrom false 0 (offset + before.length) after ∧
      declarationsFrom afterWord pending offset (before ++ moved) =
        early ++ declarationsFrom false 0 (offset + before.length) moved := by
  induction before generalizing afterWord pending offset with
  | nil =>
    simp only [List.nil_append, List.length_nil, Nat.add_zero] at h ⊢
    have hpending := declarationsFrom_offset_le h
    have hp : pending = 0 := by dsimp only at hpending; omega
    subst hp
    have hafter : afterWord = false := by
      obtain ⟨x, rest, rfl, -⟩ := ha
      cases afterWord with
      | false => rfl
      | true =>
        simp only [declarationsFrom, if_true] at h
        have := declarationsFrom_offset_le h
        dsimp only at this
        omega
    subst hafter
    exact ⟨[], by simp, rfl, rfl⟩
  | cons c before ih =>
    have hdeclared := h
    have hlen : offset + (c :: before).length = offset + 1 + before.length := by
      simp only [List.length_cons]; omega
    rw [hlen] at h ⊢
    simp only [List.cons_append, declarationsFrom] at h ⊢
    cases pending with
    | succ k => exact ih hb.tail h
    | zero =>
      dsimp only at h ⊢
      -- A declaration read here ends within the code, unless its name would be the declaration.
      by_cases hname : ∀ gap, c :: before = ['v', 'a', 'r'] ++ gap → gap ≠ [] →
          ¬gap.all Text.isBlank
      · rw [declared?_append ha hb hname] at h ⊢
        rw [declared?_append hm hb hname]
        cases hd : (if afterWord = true then none else declared? (c :: before)) with
        | none =>
          rw [hd] at h
          exact ih hb.tail h
        | some found =>
          obtain ⟨found, length⟩ := found
          rw [hd] at h
          rcases List.mem_cons.mp h with he | h
          · have := congrArg Prod.fst he
            dsimp only at this
            omega
          · obtain ⟨early, hlt, hfirst, hsecond⟩ := ih hb.tail h
            refine ⟨(offset, found) :: early, ?_, by simp [hfirst], by simp [hsecond]⟩
            intro d hd
            rcases List.mem_cons.mp hd with rfl | hd
            · dsimp only; omega
            · exact hlt d hd
      · simp only [not_forall, Decidable.not_not] at hname
        obtain ⟨gap, hgap, hne, hblank⟩ := hname
        cases afterWord with
        | true => exact ih hb.tail h
        | false =>
          rw [hgap] at hdeclared
          exact absurd hdeclared (not_declared_behind_gap ha hne hblank)

theorem declared?_of_ne {c : Char} (hc : c ≠ 'v') (rest : Text) : declared? (c :: rest) = none := by
  have hs : Text.startsWith "var".toList (c :: rest) = false := by
    show Text.startsWith ['v', 'a', 'r'] _ = false
    simp [Text.startsWith, List.isPrefixOf, Ne.symm hc]
  rw [declared?, hs]
  rfl

/-- A declaration put behind "weak" is the next one there. -/
theorem declarationsFrom_weak (offset : Nat) (text : Text) :
    declarationsFrom false 0 offset ("weak ".toList ++ text) =
      declarationsFrom false 0 (offset + 5) text := by
  show declarationsFrom false 0 offset ('w' :: 'e' :: 'a' :: 'k' :: ' ' :: text) = _
  have hw : Text.isWordChar 'w' = true := by decide
  have he : Text.isWordChar 'e' = true := by decide
  have ha : Text.isWordChar 'a' = true := by decide
  have hk : Text.isWordChar 'k' = true := by decide
  have hs : Text.isWordChar ' ' = false := by decide
  simp [declarationsFrom, declared?_of_ne, hw, he, ha, hk, hs]

/-- What is declared once a declaration is made weak: the same, except that everything from that
declaration on has moved. -/
theorem declarations_weakened {before after name : Text} (ha : StartsWord after)
    (h : (before.length, name) ∈ declarations (before ++ after))
    (hb : Text.AtBoundary before) :
    ∃ early late, declarations (before ++ after) = early ++ late ∧
      declarations (before ++ ("weak ".toList ++ after)) =
        early ++ late.map (fun d => (d.1 + 5, d.2)) ∧
      (∀ d ∈ early, d.1 < before.length) ∧ ∀ d ∈ late, before.length ≤ d.1 := by
  have hm : StartsWord ("weak ".toList ++ after) := ⟨'w', _, rfl, Or.inr rfl⟩
  have h' : (0 + before.length, name) ∈ declarationsFrom false 0 0 (before ++ after) := by
    rwa [Nat.zero_add]
  obtain ⟨early, hlt, hfirst, hsecond⟩ := declarationsFrom_append ha hm hb h'
  rw [Nat.zero_add] at hlt hfirst hsecond
  rw [declarationsFrom_weak, declarationsFrom_add] at hsecond
  exact ⟨early, _, hfirst, hsecond, hlt, fun d hd => declarationsFrom_offset_le hd⟩

/-- A text may be cut into two where its code declares a variable. -/
structure Cut (before after : Text) : Prop where
  starts : ∃ rest, after = 'v' :: 'a' :: rest
  opened : Mask.Open (Mask.endOf .swift .code before)
  boundary : Text.AtBoundary (mask before .swift)

theorem cut_of_declared {text name : Text} {offset : Nat}
    (h : (offset, name) ∈ declarations (mask text .swift)) :
    Cut (text.take offset) (text.drop offset) ∧ (text.take offset).length = offset := by
  obtain ⟨before, after, length, hcode, ho, hd, hb, -⟩ := mem_declarationsFrom h
  have ho' : offset = before.length := by simpa using ho
  have hlen : (text.take offset).length = offset := by
    apply List.length_take_of_le
    have := congrArg List.length hcode
    rw [mask, Mask.length_scan, List.length_append] at this
    omega
  obtain ⟨more, hmore⟩ := List.isPrefixOf_iff_prefix.mp (declared?_eq_some hd).1
  obtain ⟨region, hregion⟩ := Mask.drop_scan .swift true .code offset text
  have hdrop : Mask.scan .swift true region (text.drop offset) = 'v' :: 'a' :: 'r' :: more := by
    rw [← hregion, ← mask, hcode, ho', List.drop_left, ← hmore]
    rfl
  have hstart : Text.startsWith ['v', 'a'] (text.drop offset) = true := by
    apply Mask.startsWith_of_scan (d := .swift) (by simp)
    rw [hdrop]
    rfl
  obtain ⟨rest, hrest⟩ := List.isPrefixOf_iff_prefix.mp hstart
  have hsplit : mask text .swift = mask (text.take offset) .swift ++
      Mask.scan .swift true (Mask.endOf .swift .code (text.take offset)) ('v' :: 'a' :: rest) := by
    conv => lhs; rw [← List.take_append_drop offset text, ← hrest]
    exact Mask.mask_append true _ ('a' :: rest) (by decide) (by decide) (by decide)
  have hmask : (mask (text.take offset) .swift).length = before.length := by
    rw [mask, Mask.length_scan, hlen, ho']
  obtain ⟨hbefore, hafter⟩ := List.append_inj (hcode.symm.trans hsplit) hmask.symm
  obtain ⟨rest', hrest', hcode'⟩ :=
    Mask.of_scan_eq_cons (x := 'v') (by decide) (by decide) (hafter.symm.trans hmore.symm)
  refine ⟨⟨⟨rest, hrest.symm⟩, Mask.open_of_enter_eq_code (by decide) (hcode' rfl), ?_⟩, hlen⟩
  rw [← hbefore]
  exact hb

section Cut

variable {before after : Text}

theorem Cut.boundary_kept (h : Cut before after) :
    Text.AtBoundary (mask before .swift false) :=
  Mask.atBoundary_scan (Mask.closing_of_ne _ (by simp)).1 h.opened h.boundary

theorem Cut.mask_after (h : Cut before after) (comments : Bool) :
    ∃ rest, mask after .swift comments = 'v' :: 'a' :: rest := by
  obtain ⟨rest, rfl⟩ := h.starts
  exact ⟨_, @Mask.scan_swift_plain ['v', 'a'] comments rest (by simp)⟩

theorem Cut.startsWord (h : Cut before after) (comments : Bool) :
    StartsWord (mask after .swift comments) := by
  obtain ⟨rest, hrest⟩ := h.mask_after comments
  exact ⟨'v', 'a' :: rest, hrest, Or.inl rfl⟩

theorem Cut.mask_append (h : Cut before after) (comments : Bool) :
    mask (before ++ after) .swift comments =
      mask before .swift comments ++ mask after .swift comments := by
  obtain ⟨rest, rfl⟩ := h.starts
  rw [Mask.mask_append comments before ('a' :: rest) (by decide) (by decide) (by decide),
    Mask.scan_of_open h.opened]
  rfl

theorem Cut.mask_weak (h : Cut before after) (comments : Bool) :
    mask (before ++ ("weak ".toList ++ after)) .swift comments =
      mask before .swift comments ++ ("weak ".toList ++ mask after .swift comments) := by
  have hplain : ∀ c ∈ "weak ".toList, c ≠ '/' ∧ c ≠ '"' := by
    show ∀ c ∈ ['w', 'e', 'a', 'k', ' '], c ≠ '/' ∧ c ≠ '"'
    simp
  have happend : mask (before ++ ("weak ".toList ++ after)) .swift comments =
      mask before .swift comments ++ Mask.scan .swift comments (Mask.endOf .swift .code before)
        ("weak ".toList ++ after) :=
    Mask.mask_append comments before (['e', 'a', 'k', ' '] ++ after) (by decide) (by decide)
      (by decide)
  rw [happend, Mask.scan_of_open h.opened, Mask.scan_swift_plain comments after hplain]
  rfl

end Cut

/-- Where a variable is declared, the mask of the text is that of what comes before and that of
what starts there. -/
theorem mask_of_declared {text name : Text} {offset : Nat}
    (h : (offset, name) ∈ declarations (mask text .swift)) :
    mask text .swift = mask (text.take offset) .swift ++ mask (text.drop offset) .swift ∧
      (mask (text.take offset) .swift).length = offset := by
  obtain ⟨hcut, hlen⟩ := cut_of_declared h
  have hmask := hcut.mask_append true
  rw [List.take_append_drop] at hmask
  exact ⟨hmask, by rw [mask, Mask.length_scan, hlen]⟩

end WeakDelegate

end StyleRules
