import StyleRules.Proofs.EnclosingBraces
import StyleRules.Proofs.Violations

namespace StyleRules

namespace Text

theorem isWordChar_of_isBlank {c : Char} (h : isBlank c = true) : isWordChar c = false := by
  have hranges : ∀ range ∈ blankRanges, ∀ n ∈ List.range' range.1 (range.2 + 1 - range.1),
      isWordChar (Char.ofNat n) = false := by decide +kernel
  obtain ⟨range, hrange, hin⟩ := List.any_eq_true.mp h
  simp only [Bool.and_eq_true, decide_eq_true_eq] at hin
  have hc := hranges range hrange c.toNat (List.mem_range'_1.mpr (by omega))
  rwa [Char.ofNat_toNat] at hc

theorem takeWhile_append_of_all {p : Char → Bool} {stretch after : Text}
    (hall : ∀ c ∈ stretch, p c = true) (hafter : ∀ c ∈ after.head?, p c = false) :
    (stretch ++ after).takeWhile p = stretch ∧ (stretch ++ after).dropWhile p = after := by
  rw [takeWhile_append_of_head stretch hafter, dropWhile_append_of_head stretch hafter,
    List.takeWhile_eq_self_iff.mpr hall, List.dropWhile_eq_nil_iff.mpr hall]
  exact ⟨rfl, rfl⟩

/-- A text that is cut outside of words has no word character before the cut. -/
theorem AtBoundary.exists_before {text : Text} {n : Nat} (h : AtBoundary (text.take (n + 1)))
    (hlt : n < text.length) : ∃ c, text[n]? = some c ∧ isWordChar c = false := by
  refine ⟨text[n], List.getElem?_eq_getElem hlt, h _ ?_⟩
  rw [Option.mem_def, List.getLast?_take, if_neg (Nat.succ_ne_zero n), Nat.add_sub_cancel,
    List.getElem?_eq_getElem hlt]
  rfl

/-- What comes before the end of a text ends with a character that stops it. -/
theorem exists_behindLast (stops : Char → Bool) (text : Text) :
    ∃ before, text = before ++ behindLast stops text ∧
      ∀ c ∈ before.getLast?, stops c = true := by
  induction text using List.reverseRecOn with
  | nil => exact ⟨[], rfl, by simp⟩
  | append_singleton text c ih =>
    rw [behindLast_concat]
    cases hc : stops c with
    | true => exact ⟨text ++ [c], by simp, by simpa using hc⟩
    | false =>
      obtain ⟨before, htext, hlast⟩ := ih
      refine ⟨before, ?_, hlast⟩
      rw [if_neg (by simp), ← List.append_assoc, ← htext]

end Text

namespace WeakDelegate

/-- A variable is declared at an offset of code: the word "var", blanks and the whole of a name. -/
def VariableAt (code : Text) (offset : Nat) (name : Text) : Prop :=
  Text.AtBoundary (code.take offset) ∧ ∃ gap after,
    code.drop offset = "var".toList ++ gap ++ name ++ after ∧
      gap ≠ [] ∧ (∀ c ∈ gap, Text.isBlank c = true) ∧
      name ≠ [] ∧ (∀ c ∈ name, Text.isWordChar c = true) ∧
      ∀ c ∈ after.head?, Text.isWordChar c = false

/-- An offset is where the name of a variable stands that is declared under the name "var". -/
def NamesVariable (code : Text) (offset : Nat) : Prop :=
  ∃ before gap, code.take offset = before ++ ("var".toList ++ gap) ∧
    (∀ c ∈ gap, Text.isBlank c = true) ∧ (before.length, "var".toList) ∈ declarations code

/-- Whether a text has a word that keeps a declaration from owning what it refers to. -/
def saysUnowned (text : Text) : Bool := (Text.words text).any (· ∈ ownershipKeywords)

/-- The code of a statement that comes before an offset, as far as it stands on the same line. -/
def statementBefore (code : Text) (offset : Nat) : Text :=
  Text.behindLast (fun c => endsStatement c || c == '\n') (code.take offset)

section Declarations

variable {code name : Text} {offset : Nat}

theorem declared?_variable {gap after : Text} (hgap : gap ≠ [])
    (hblank : ∀ c ∈ gap, Text.isBlank c = true) (hname : name ≠ [])
    (hword : ∀ c ∈ name, Text.isWordChar c = true)
    (hafter : ∀ c ∈ after.head?, Text.isWordChar c = false) :
    declared? ("var".toList ++ gap ++ name ++ after) =
      some (name, 3 + gap.length + name.length) := by
  have hhead : ∀ c ∈ (name ++ after).head?, Text.isBlank c = false := by
    intro c hc
    apply Bool.eq_false_iff.mpr
    intro hb
    have hin : c ∈ name := by
      obtain ⟨first, rest, rfl⟩ := List.exists_cons_of_ne_nil hname
      cases Option.mem_some.mp hc
      exact List.mem_cons_self
    have := hword c hin
    rw [Text.isWordChar_of_isBlank hb] at this
    cases this
  obtain ⟨htake, hdrop⟩ := Text.takeWhile_append_of_all hblank hhead
  have hstart : Text.startsWith "var".toList ("var".toList ++ gap ++ name ++ after) = true := by
    rw [List.append_assoc, List.append_assoc]
    exact Text.startsWith_append _ _
  have hthree : ("var".toList ++ gap ++ name ++ after).drop 3 = gap ++ (name ++ after) := by
    rw [List.append_assoc, List.append_assoc]
    rfl
  unfold declared?
  rw [if_pos hstart, hthree]
  dsimp only
  rw [htake, hdrop, (Text.takeWhile_append_of_all hword hafter).1, if_neg (by simp [hgap, hname])]

/-- What the declaration at the start of a text consists of. -/
theorem exists_of_declared? {text : Text} {length : Nat}
    (h : declared? text = some (name, length)) :
    ∃ gap after, text = "var".toList ++ gap ++ name ++ after ∧
      length = 3 + gap.length + name.length ∧ gap ≠ [] ∧
      (∀ c ∈ gap, Text.isBlank c = true) ∧ name ≠ [] ∧
      (∀ c ∈ name, Text.isWordChar c = true) ∧
      ∀ c ∈ after.head?, Text.isWordChar c = false := by
  unfold declared? at h
  split at h
  next hstart =>
    obtain ⟨rest, rfl⟩ := List.isPrefixOf_iff_prefix.mp hstart
    have hthree : ("var".toList ++ rest).drop 3 = rest := rfl
    rw [hthree] at h
    dsimp only at h
    split at h
    next => cases h
    next hne =>
      rw [not_or] at hne
      cases Option.some.inj h
      refine ⟨rest.takeWhile Text.isBlank,
        (rest.dropWhile Text.isBlank).dropWhile Text.isWordChar, ?_, rfl, hne.1, ?_, hne.2, ?_, ?_⟩
      · simp
      · exact fun c hc => (List.mem_takeWhile_imp hc)
      · exact fun c hc => (List.mem_takeWhile_imp hc)
      · intro c hc
        have hhead := List.head?_dropWhile_not Text.isWordChar (rest.dropWhile Text.isBlank)
        rw [Option.mem_def.mp hc] at hhead
        exact hhead
  next => cases h

theorem variableAt_iff : VariableAt code offset name ↔ Text.AtBoundary (code.take offset) ∧
    ∃ length, declared? (code.drop offset) = some (name, length) := by
  constructor
  · rintro ⟨hboundary, gap, after, hdrop, hgap, hblank, hname, hword, hafter⟩
    rw [hdrop]
    exact ⟨hboundary, _, declared?_variable hgap hblank hname hword hafter⟩
  · rintro ⟨hboundary, length, hd⟩
    obtain ⟨gap, after, hdrop, -, hgap, hblank, hname, hword, hafter⟩ := exists_of_declared? hd
    exact ⟨hboundary, gap, after, hdrop, hgap, hblank, hname, hword, hafter⟩

/-- Whether a text ends within a word, or an empty one follows a word character. -/
def endsInWord (afterWord : Bool) (text : Text) : Bool :=
  (text.getLast?.map Text.isWordChar).getD afterWord

theorem endsInWord_cons (afterWord : Bool) (c : Char) (text : Text) :
    endsInWord (Text.isWordChar c) text = endsInWord afterWord (c :: text) := by
  cases text with
  | nil => rfl
  | cons x text => rw [endsInWord, endsInWord, List.getLast?_cons_cons]; rfl

theorem endsInWord_of_atBoundary {text : Text} (h : Text.AtBoundary text) :
    endsInWord false text = false := by
  unfold endsInWord
  cases hlast : text.getLast? with
  | none => rfl
  | some c => exact h c hlast

/-- The declaration that is found at an offset ends at another one. -/
def EndsAt (code : Text) (d : Nat × Text) (stop : Nat) : Prop :=
  ∃ length, declared? (code.drop d.1) = some (d.2, length) ∧ d.1 + length = stop

/-- Code that is read up to a cut: the declarations found before it end no later than the characters
pending there, and where some are pending, one of the declarations ends with them. -/
theorem declarationsFrom_reach {afterWord : Bool} {pending : Nat} {before after : Text}
    (h : code.drop offset = before ++ after) :
    ∃ early pending', declarationsFrom afterWord pending offset (before ++ after) =
        early ++ declarationsFrom (endsInWord afterWord before) pending' (offset + before.length)
          after ∧
      pending ≤ before.length + pending' ∧
      (∀ d ∈ early, d.1 < offset + before.length ∧
        ∃ stop ≤ offset + before.length + pending', EndsAt code d stop) ∧
      (0 < pending' → pending = before.length + pending' ∨
        ∃ d ∈ early, EndsAt code d (offset + before.length + pending')) := by
  induction before generalizing afterWord pending offset with
  | nil =>
    exact ⟨[], pending, rfl, Nat.le_add_left _ _, List.forall_mem_nil _,
      fun _ => Or.inl (Nat.zero_add _).symm⟩
  | cons c before ih =>
    have hnext : code.drop (offset + 1) = before ++ after := by
      rw [← List.drop_drop, h]
      rfl
    have hlength : offset + (c :: before).length = offset + 1 + before.length := by
      simp only [List.length_cons]; omega
    have hcount : (c :: before).length = before.length + 1 := rfl
    rw [← endsInWord_cons, hlength, List.cons_append]
    cases pending with
    | succ k =>
      obtain ⟨early, pending', heq, hle, hearly, hover⟩ :=
        @ih (offset + 1) (Text.isWordChar c) k hnext
      refine ⟨early, pending', by rw [declarationsFrom, heq], by omega, hearly, fun hpos => ?_⟩
      exact (hover hpos).imp_left fun hk => by omega
    | zero =>
      rw [declarationsFrom]
      cases hfound : if afterWord = true then none
          else declared? (c :: (before ++ after)) with
      | none =>
        obtain ⟨early, pending', heq, -, hearly, hover⟩ :=
          @ih (offset + 1) (Text.isWordChar c) 0 hnext
        refine ⟨early, pending', heq, Nat.zero_le _, hearly, fun hpos => ?_⟩
        exact (hover hpos).imp_left fun hk => by omega
      | some found =>
        obtain ⟨found, length⟩ := found
        have hdeclared : declared? (code.drop offset) = some (found, length) := by
          split at hfound
          · cases hfound
          · rw [h]
            exact hfound
        have hlong := (declared?_eq_some hdeclared).2.2
        have hends : EndsAt code (offset, found) (offset + length) := ⟨length, hdeclared, rfl⟩
        obtain ⟨early, pending', heq, hle, hearly, hover⟩ :=
          @ih (offset + 1) (Text.isWordChar c) (length - 1) hnext
        refine ⟨(offset, found) :: early, pending', by dsimp only; rw [heq]; rfl,
          Nat.zero_le _, ?_, fun hpos => Or.inr ?_⟩
        · intro d hd
          rcases List.mem_cons.mp hd with rfl | hd
          · exact ⟨by dsimp only; omega, offset + length, by omega, hends⟩
          · exact hearly d hd
        · rcases hover hpos with hk | ⟨d, hd, hreach⟩
          · refine ⟨(offset, found), List.mem_cons_self, ?_⟩
            rwa [show offset + 1 + before.length + pending' = offset + length by omega]
          · exact ⟨d, List.mem_cons_of_mem _ hd, hreach⟩

/-- The characters of a declaration: those of "var", blanks and those of the name. -/
theorem char_of_declaration {gap after : Text} (hblank : ∀ c ∈ gap, Text.isBlank c = true)
    (hword : ∀ c ∈ name, Text.isWordChar c = true) {i : Nat} {c : Char}
    (h : ("var".toList ++ gap ++ name ++ after)[i]? = some c)
    (hi : i < 3 + gap.length + name.length) :
    Text.isBlank c = true ∧ 3 ≤ i ∧ i < 3 + gap.length ∨
      Text.isWordChar c = true ∧ (i < 3 ∨ 3 + gap.length ≤ i) := by
  have hvar : "var".toList.length = 3 := by decide
  have hkeyword : "var".toList.all Text.isWordChar = true := by decide
  rw [List.getElem?_append_left (by simp only [List.length_append, hvar]; omega)] at h
  rcases Nat.lt_or_ge i (3 + gap.length) with hlt | hge
  · rw [List.getElem?_append_left (by simp only [List.length_append, hvar]; omega)] at h
    rcases Nat.lt_or_ge i 3 with hlt' | hge'
    · rw [List.getElem?_append_left (by omega)] at h
      exact Or.inr ⟨List.all_eq_true.mp hkeyword c (List.mem_of_getElem? h), Or.inl hlt'⟩
    · rw [List.getElem?_append_right (by omega)] at h
      exact Or.inl ⟨hblank c (List.mem_of_getElem? h), hge', hlt⟩
  · rw [List.getElem?_append_right (by simp only [List.length_append, hvar]; omega)] at h
    exact Or.inr ⟨hword c (List.mem_of_getElem? h), Or.inr hge⟩

/-- Within a declaration, only the name stands behind a character that is not part of a word. -/
theorem start_of_name {gap after : Text} (hblank : ∀ c ∈ gap, Text.isBlank c = true)
    (hword : ∀ c ∈ name, Text.isWordChar c = true) {i : Nat} {c first : Char}
    (hc : ("var".toList ++ gap ++ name ++ after)[i]? = some c)
    (hfirst : ("var".toList ++ gap ++ name ++ after)[i + 1]? = some first)
    (hnone : Text.isWordChar c = false) (hsolid : Text.isBlank first = false)
    (hi : i + 1 < 3 + gap.length + name.length) : i + 1 = 3 + gap.length := by
  have hbefore := char_of_declaration hblank hword hc (by omega)
  have hbehind := char_of_declaration hblank hword hfirst hi
  rw [hnone] at hbefore
  rw [hsolid] at hbehind
  simp only [Bool.false_eq_true, false_and, or_false, false_or] at hbefore hbehind
  omega

theorem VariableAt.lt_length (h : VariableAt code offset name) : offset < code.length := by
  obtain ⟨-, gap, after, hdrop, hgap, -⟩ := h
  have hlength := congrArg List.length hdrop
  have := List.length_pos_iff.mpr hgap
  simp only [List.length_drop, List.length_append] at hlength
  omega

/-- A variable declared within another declaration is what that one takes for a name. -/
theorem VariableAt.within (h : VariableAt code offset name) {d : Nat × Text} {stop : Nat}
    (hd : EndsAt code d stop) (hlt : d.1 < offset) (hover : offset < stop) :
    d.2 = "var".toList ∧ ∃ gap, code.take offset = code.take d.1 ++ ("var".toList ++ gap) ∧
      ∀ c ∈ gap, Text.isBlank c = true := by
  have hoffset := h.lt_length
  obtain ⟨hboundary, ownGap, ownAfter, hown, hne, hownBlank, -⟩ := h
  obtain ⟨length, hd, rfl⟩ := hd
  obtain ⟨gap, after, htext, rfl, -, hblank, -, hword, hafter⟩ := exists_of_declared? hd
  obtain ⟨k, rfl⟩ := Nat.exists_eq_add_of_lt hlt
  obtain ⟨c, hc, hnone⟩ := hboundary.exists_before (by omega)
  have hfirst : code[d.1 + (k + 1)]? = some 'v' := by
    rw [← List.head?_drop, ← Nat.add_assoc, hown]
    rfl
  rw [← List.getElem?_drop, htext] at hc hfirst
  have hplace := start_of_name hblank hword hc hfirst hnone (by decide) (by omega)
  have hstart : ("var".toList ++ gap).length = k + 1 := by
    rw [List.length_append, hplace]
    rfl
  have hrest : d.2 ++ after = "var".toList ++ (ownGap ++ name ++ ownAfter) := by
    have hdrop : (code.drop d.1).drop (k + 1) = code.drop (d.1 + k + 1) := List.drop_drop
    rw [htext, List.append_assoc, ← hstart, List.drop_left, hown] at hdrop
    rw [hdrop]
    simp only [List.append_assoc]
  have hgapHead : ∀ c ∈ (ownGap ++ name ++ ownAfter).head?, Text.isWordChar c = false := by
    obtain ⟨first, rest, rfl⟩ := List.exists_cons_of_ne_nil hne
    intro c hc
    cases Option.mem_some.mp hc
    exact Text.isWordChar_of_isBlank (hownBlank first List.mem_cons_self)
  have hkeyword : ∀ c ∈ "var".toList, Text.isWordChar c = true :=
    List.all_eq_true.mp (by decide)
  refine ⟨?_, gap, ?_, hblank⟩
  · rw [← (Text.takeWhile_append_of_all hword hafter).1, hrest,
      (Text.takeWhile_append_of_all hkeyword hgapHead).1]
  · rw [Nat.add_assoc, List.take_add, htext, List.append_assoc, ← hstart, List.take_left]

/-- Blanks that stand behind the word "var" stand before the name of the variable. -/
theorem length_gap_le {gap own after rest : Text} (hblank : ∀ c ∈ gap, Text.isBlank c = true)
    (hne : name ≠ []) (hword : ∀ c ∈ name, Text.isWordChar c = true)
    (h : own ++ (name ++ after) = gap ++ rest) : gap.length ≤ own.length := by
  rcases List.append_eq_append_iff.mp h with ⟨more, rfl, hmore⟩ | ⟨more, rfl, -⟩
  · cases more with
    | nil => simp
    | cons c more =>
      obtain ⟨first, name, rfl⟩ := List.exists_cons_of_ne_nil hne
      obtain ⟨rfl, -⟩ := List.cons.inj hmore
      have hnone := Text.isWordChar_of_isBlank (hblank first (by simp))
      rw [hword first List.mem_cons_self] at hnone
      cases hnone
  · simp

/-- A declaration goes on behind the word "var" and the blanks after it. -/
theorem EndsAt.passes {before gap : Text} {stop : Nat}
    (h : EndsAt code (before.length, name) stop) (hle : offset ≤ code.length)
    (htake : code.take offset = before ++ ("var".toList ++ gap))
    (hblank : ∀ c ∈ gap, Text.isBlank c = true) : offset < stop := by
  obtain ⟨length, hd, rfl⟩ := h
  obtain ⟨own, after, htext, rfl, -, -, hne, hword, -⟩ := exists_of_declared? hd
  have hcode : code = before ++ ("var".toList ++ (gap ++ code.drop offset)) := by
    conv => lhs; rw [← List.take_append_drop offset code, htake]
    simp only [List.append_assoc]
  have hrest : own ++ (name ++ after) = gap ++ code.drop offset := by
    have hdrop := congrArg (List.drop before.length) hcode
    rw [List.drop_left, htext] at hdrop
    simpa only [List.append_assoc, List.append_cancel_left_eq] using hdrop
  have hlonger := length_gap_le hblank hne hword hrest
  have hlength := congrArg List.length htake
  have hvar : "var".toList.length = 3 := by decide
  rw [List.length_take_of_le hle, List.length_append, List.length_append, hvar] at hlength
  have hpos : 0 < name.length := List.length_pos_iff.mpr hne
  dsimp only
  omega

/-- The declarations of code with a cut: those that are found before it, and those found behind it
once the characters pending there are passed, with which one of the others ends. -/
theorem declarations_reach (hle : offset ≤ code.length) :
    ∃ early pending, declarations code = early ++
        declarationsFrom (endsInWord false (code.take offset)) pending offset (code.drop offset) ∧
      (∀ d ∈ early, d.1 < offset ∧ ∃ stop ≤ offset + pending, EndsAt code d stop) ∧
      (0 < pending → ∃ d ∈ early, EndsAt code d (offset + pending)) := by
  obtain ⟨early, pending, heq, -, hearly, hover⟩ := @declarationsFrom_reach code 0 false 0
    (code.take offset) (code.drop offset) (List.take_append_drop offset code).symm
  rw [List.length_take_of_le hle, Nat.zero_add] at heq hearly hover
  rw [List.take_append_drop] at heq
  exact ⟨early, pending, heq, hearly, fun hpos => (hover hpos).resolve_left (by omega)⟩

/-- A variable is declared in code unless it is taken for the name of another one. -/
theorem VariableAt.declared_or_names (h : VariableAt code offset name) :
    (offset, name) ∈ declarations code ∨ NamesVariable code offset := by
  have hlt := h.lt_length
  obtain ⟨hboundary, length, hd⟩ := variableAt_iff.mp h
  obtain ⟨early, pending, heq, hearly, hover⟩ := declarations_reach (Nat.le_of_lt hlt)
  cases pending with
  | zero =>
    left
    rw [heq, endsInWord_of_atBoundary hboundary]
    cases hcode : code.drop offset with
    | nil => rw [hcode] at hd; cases hd
    | cons c rest =>
      rw [hcode] at hd
      simp [declarationsFrom, hd]
  | succ k =>
    right
    obtain ⟨d, hmem, hends⟩ := hover (Nat.succ_pos k)
    have hbefore := (hearly d hmem).1
    obtain ⟨hname, gap, htake, hblank⟩ := h.within hends hbefore (by omega)
    refine ⟨code.take d.1, gap, htake, hblank, ?_⟩
    rw [List.length_take_of_le (by omega), ← hname, heq]
    exact List.mem_append_left _ hmem

theorem variableAt_of_mem (h : (offset, name) ∈ declarations code) :
    VariableAt code offset name := by
  obtain ⟨before, after, length, rfl, ho, hd, hboundary, -⟩ := mem_declarationsFrom h
  dsimp only at ho hd
  rw [Nat.zero_add] at ho
  rw [variableAt_iff, ho, List.take_left, List.drop_left]
  exact ⟨hboundary, length, hd⟩

/-- What is taken for the name of a variable is not declared itself. -/
theorem NamesVariable.not_declared (h : NamesVariable code offset) :
    (offset, name) ∉ declarations code := by
  intro hdeclared
  have hle := Nat.le_of_lt (variableAt_of_mem hdeclared).lt_length
  obtain ⟨before, gap, htake, hblank, hmem⟩ := h
  obtain ⟨early, pending, heq, hearly, -⟩ := declarations_reach hle
  rw [heq] at hmem hdeclared
  -- The earlier declaration ends behind the offset, so characters are pending there.
  have hpending : 0 < pending := by
    rcases List.mem_append.mp hmem with hm | hm
    · obtain ⟨-, stop, hstop, hends⟩ := hearly _ hm
      have := hends.passes hle htake hblank
      omega
    · have hlength := congrArg List.length htake
      have hvar : "var".toList.length = 3 := by decide
      have := declarationsFrom_offset_le hm
      rw [List.length_take_of_le hle, List.length_append, List.length_append, hvar] at hlength
      dsimp only at this
      omega
  rcases List.mem_append.mp hdeclared with hm | hm
  · exact absurd (hearly _ hm).1 (Nat.lt_irrefl _)
  · have := declarationsFrom_offset_le hm
    dsimp only at this
    omega

/-- The declarations of code are the variables in it, less those taken for names. -/
theorem mem_declarations_iff : (offset, name) ∈ declarations code ↔
    VariableAt code offset name ∧ ¬NamesVariable code offset :=
  ⟨fun h => ⟨variableAt_of_mem h, fun hnames => hnames.not_declared h⟩,
    fun h => h.1.declared_or_names.resolve_right h.2⟩

end Declarations

section Statements

variable {code : Text} {offset : Nat}

theorem lineBefore_eq_behindLast (code : Text) (offset : Nat) :
    lineBefore code offset = Text.behindLast (· == '\n') (code.take offset) := by
  have hstops : (fun c : Char => decide (c ≠ '\n')) = fun c => !(c == '\n') := by
    funext c
    rw [Bool.eq_iff_iff]
    simp
  rw [lineBefore, hstops]
  rfl

theorem statementBefore_eq (code : Text) (offset : Nat) :
    statementBefore code offset = Text.behindLast endsStatement (lineBefore code offset) := by
  rw [lineBefore_eq_behindLast, statementBefore]
  unfold Text.behindLast
  rw [List.reverse_reverse, List.takeWhile_takeWhile]
  congr 3
  funext c
  rw [Bool.eq_iff_iff]
  simp

/-- The line before an offset is what stands in earlier statements and what stands in its own. -/
theorem saysUnowned_lineBefore (code : Text) (offset : Nat) :
    ∃ earlier, lineBefore code offset = earlier ++ statementBefore code offset ∧
      saysUnowned (lineBefore code offset) =
        (saysUnowned earlier || saysUnowned (statementBefore code offset)) := by
  obtain ⟨earlier, hline, hlast⟩ := Text.exists_behindLast endsStatement (lineBefore code offset)
  rw [← statementBefore_eq] at hline
  have hboundary : Text.AtBoundary earlier := by
    intro c hc
    have hends := hlast c hc
    simp only [endsStatement, Bool.or_eq_true, beq_iff_eq] at hends
    rcases hends with (rfl | rfl) | rfl <;> decide
  refine ⟨earlier, hline, ?_⟩
  rw [hline, saysUnowned, Text.words_append _ hboundary, List.any_append]
  rfl

/-- Where no statement ends on the line, it holds nothing but the statement. -/
theorem statementBefore_of_alone
    (alone : ∀ c ∈ lineBefore code offset, endsStatement c = false) :
    statementBefore code offset = lineBefore code offset := by
  rw [statementBefore_eq, Text.behindLast, List.takeWhile_eq_self_iff.mpr, List.reverse_reverse]
  intro c hc
  rw [alone c (List.mem_reverse.mp hc)]
  rfl

end Statements

/-- A delegate directly in a type goes unreported exactly if a word that keeps it from owning stands
before it on its line, or if it is taken for the name of a variable "var". -/
theorem unreported_iff_line_unowned {text name : Text} {offset : Nat}
    (declared : VariableAt (mask text .swift) offset name) (delegate : isDelegate name = true)
    (member : DirectlyInType (mask text .swift) offset) :
    (offset ∉ violations text ↔ saysUnowned (lineBefore (mask text .swift) offset) = true ∨
        NamesVariable (mask text .swift) offset) ∧
      (saysUnowned (statementBefore (mask text .swift) offset) = true →
        offset ∉ violations text) ∧
      ((∀ c ∈ lineBefore (mask text .swift) offset, endsStatement c = false) →
        ¬NamesVariable (mask text .swift) offset →
        (offset ∉ violations text ↔
          saysUnowned (statementBefore (mask text .swift) offset) = true)) := by
  have hunreported : offset ∉ violations text ↔
      saysUnowned (lineBefore (mask text .swift) offset) = true ∨
        NamesVariable (mask text .swift) offset := by
    constructor
    · intro hnot
      by_contra hnone
      obtain ⟨howned, hnames⟩ := not_or.mp hnone
      exact hnot (mem_violationsIn.mpr ⟨name, mem_declarations_iff.mpr ⟨declared, hnames⟩, delegate,
        inTypeBody_iff.mpr member, Bool.eq_false_iff.mpr howned⟩)
    · intro h hreported
      obtain ⟨found, hd, -, -, howned⟩ := mem_violationsIn.mp hreported
      rcases h with hline | hnames
      · exact Bool.eq_false_iff.mp howned hline
      · exact hnames.not_declared hd
  obtain ⟨earlier, -, hline⟩ := saysUnowned_lineBefore (mask text .swift) offset
  refine ⟨hunreported, ?_, ?_⟩
  · intro hown
    rw [hunreported, hline, hown, Bool.or_true]
    exact Or.inl rfl
  · intro alone hnames
    rw [hunreported, statementBefore_of_alone alone, or_iff_left hnames]

/-- A delegate that shares its line with an unowned one goes unreported, the one below does not. -/
theorem unreported_iff_line_unowned_shared :
    let text := "class A \x7b\n  unowned var delegate: D?; var oldDelegate: D?\n".toList
      ++ "  var newDelegate: D? \x7d\n".toList
    let code := mask text .swift
    (VariableAt code 38 "oldDelegate".toList ∧ DirectlyInType code 38 ∧ 38 ∉ violations text) ∧
      VariableAt code 60 "newDelegate".toList ∧ DirectlyInType code 60 ∧ 60 ∈ violations text := by
  intro text code
  have hold : (38, "oldDelegate".toList) ∈ declarations code := by decide +kernel
  have hnew : (60, "newDelegate".toList) ∈ declarations code := by decide +kernel
  have hcloses : Closes code 8 80 := ⟨by decide +kernel, by decide +kernel⟩
  have htype : declaresType (headerAt code 8) = true := by decide +kernel
  have hdirect : DirectlyInType code 38 := ⟨8, 80, by decide +kernel, hcloses, by decide, htype⟩
  have hdirect' : DirectlyInType code 60 := ⟨8, 80, by decide +kernel, hcloses, by decide, htype⟩
  obtain ⟨hdeclared, -⟩ := mem_declarations_iff.mp hold
  obtain ⟨hdeclared', hnames⟩ := mem_declarations_iff.mp hnew
  have hunreported := (unreported_iff_line_unowned hdeclared (by decide +kernel) hdirect).1
  have hreported := (unreported_iff_line_unowned hdeclared' (by decide +kernel) hdirect').1
  refine ⟨⟨hdeclared, hdirect, hunreported.mpr (Or.inl (by decide +kernel))⟩, hdeclared', hdirect',
    ?_⟩
  by_contra hnot
  rcases hreported.mp hnot with hline | hnamed
  · exact absurd hline (by decide +kernel)
  · exact hnames hnamed

/-- A declaration that is weak exempts a later one on its line, which has no such word in its own
statement; and a value named "var" at the end of a line hides the declaration below it. -/
theorem earlier_statement_exempts :
    let text := "class A \x7b weak var a: A?; var delegate: D? \x7d\n".toList
    let code := mask text .swift
    let named := "class A \x7b let k = K.var\n  var delegate: D? \x7d\n".toList
    let code' := mask named .swift
    (VariableAt code 26 "delegate".toList ∧ DirectlyInType code 26 ∧
        saysUnowned (statementBefore code 26) = false ∧ 26 ∉ violations text) ∧
      VariableAt code' 26 "delegate".toList ∧ DirectlyInType code' 26 ∧
        saysUnowned (statementBefore code' 26) = false ∧ 26 ∉ violations named ∧
      isDelegate "delegate".toList = true := by
  intro text code named code'
  have hd : (26, "delegate".toList) ∈ declarations code := by decide +kernel
  have hboundary : code'.take 26 = code'.take 25 ++ [' '] := by decide +kernel
  have hdeclared : declared? (code'.drop 26) = some ("delegate".toList, 12) := by decide +kernel
  have hdirect : DirectlyInType code 26 :=
    ⟨8, 43, by decide +kernel, ⟨by decide +kernel, by decide +kernel⟩, by decide,
      by decide +kernel⟩
  have hdirect' : DirectlyInType code' 26 :=
    ⟨8, 43, by decide +kernel, ⟨by decide +kernel, by decide +kernel⟩, by decide,
      by decide +kernel⟩
  have hvariable : VariableAt code' 26 "delegate".toList := by
    rw [variableAt_iff, hboundary]
    exact ⟨Text.atBoundary_concat _ (by decide), 12, hdeclared⟩
  exact ⟨⟨variableAt_of_mem hd, hdirect, by decide +kernel, by decide +kernel⟩, hvariable, hdirect',
    by decide +kernel, by decide +kernel, by decide +kernel⟩

end WeakDelegate

end StyleRules
