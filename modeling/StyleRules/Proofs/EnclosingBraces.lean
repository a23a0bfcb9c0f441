import StyleRules.Proofs.TypeBodies
import Mathlib.Data.List.Induction

namespace StyleRules

/-- The end of a text behind the last of the characters that stop it. -/
def Text.behindLast (stops : Char → Bool) (text : Text) : Text :=
  (text.reverse.takeWhile (!stops ·)).reverse

theorem Text.behindLast_concat (stops : Char → Bool) (text : Text) (c : Char) :
    Text.behindLast stops (text ++ [c]) =
      if stops c then [] else Text.behindLast stops text ++ [c] := by
  unfold Text.behindLast
  rw [List.reverse_append, List.reverse_singleton, List.singleton_append, List.takeWhile_cons]
  cases stops c <;> simp

namespace WeakDelegate

/-- Whether a character ends a statement. -/
def endsStatement (c : Char) : Bool := c == '{' || c == '}' || c == ';'

/-- The braces left open once the character at an offset is read, innermost first. A closing brace
that finds none open is passed over. -/
def matchBrace (braces : List Nat) (offset : Nat) (c : Char) : List Nat :=
  if c = '{' then offset :: braces else if c = '}' then braces.tail else braces

/-- The offsets of the braces that code leaves open, innermost first. -/
def openBraces (code : Text) : List Nat :=
  code.zipIdx.foldl (fun braces read => matchBrace braces read.2 read.1) []

/-- The brace at an offset is closed by the one at another. -/
def Closes (code : Text) (brace stop : Nat) : Prop :=
  code[stop]? = some '}' ∧ (openBraces (code.take stop)).head? = some brace

/-- The code between the end of a statement and the brace after it. -/
def headerAt (code : Text) (brace : Nat) : Text :=
  Text.behindLast endsStatement (code.take brace)

/-- The innermost brace that is open before an offset is closed behind it, and its header declares
a type. -/
def DirectlyInType (code : Text) (offset : Nat) : Prop :=
  ∃ brace stop, (openBraces (code.take offset)).head? = some brace ∧ Closes code brace stop ∧
    offset < stop ∧ declaresType (headerAt code brace) = true

section Open

variable {code : Text} {brace stop offset : Nat}

theorem openBraces_concat (code : Text) (c : Char) :
    openBraces (code ++ [c]) = matchBrace (openBraces code) code.length c := by
  simp [openBraces, List.zipIdx_append]

theorem mem_matchBrace {braces : List Nat} {c : Char} (h : brace ∈ matchBrace braces offset c) :
    brace ∈ braces ∨ brace = offset := by
  unfold matchBrace at h
  split at h
  · exact (List.mem_cons.mp h).symm
  · split at h
    · exact Or.inl (List.mem_of_mem_tail h)
    · exact Or.inl h

theorem lt_length_of_open (h : brace ∈ openBraces code) : brace < code.length := by
  induction code using List.reverseRecOn with
  | nil => simp [openBraces] at h
  | append_singleton code c ih =>
    rw [openBraces_concat] at h
    rw [List.length_append, List.length_singleton]
    rcases mem_matchBrace h with h | rfl
    · exact Nat.lt_succ_of_lt (ih h)
    · exact Nat.lt_succ_self _

theorem openBraces_descending (code : Text) : (openBraces code).Pairwise (· > ·) := by
  induction code using List.reverseRecOn with
  | nil => exact List.Pairwise.nil
  | append_singleton code c ih =>
    rw [openBraces_concat, matchBrace]
    split
    · exact List.pairwise_cons.mpr ⟨fun brace h => lt_length_of_open h, ih⟩
    · split
      · exact ih.sublist (List.tail_sublist _)
      · exact ih

theorem le_head_of_open {head : Nat} (hhead : (openBraces code).head? = some head)
    (h : brace ∈ openBraces code) : brace ≤ head := by
  have hdescending := openBraces_descending code
  cases hb : openBraces code with
  | nil => rw [hb] at h; cases h
  | cons first rest =>
    rw [hb] at hhead h hdescending
    cases Option.some.inj hhead
    rcases List.mem_cons.mp h with rfl | h
    · exact Nat.le_refl _
    · exact Nat.le_of_lt ((List.pairwise_cons.mp hdescending).1 brace h)

/-- A brace that is open was open as soon as it was read. -/
theorem open_of_append {more : Text} (h : brace ∈ openBraces (code ++ more))
    (hlt : brace < code.length) : brace ∈ openBraces code := by
  induction more using List.reverseRecOn with
  | nil => rwa [List.append_nil] at h
  | append_singleton more c ih =>
    rw [← List.append_assoc, openBraces_concat] at h
    rcases mem_matchBrace h with h | rfl
    · exact ih h
    · rw [List.length_append] at hlt
      omega

/-- The code read since a brace was opened is as deep as there are braces open within it. -/
theorem depth_since_open (h : brace ∈ openBraces code) :
    ∃ inner outer, openBraces code = inner ++ brace :: outer ∧
      depth (code.drop (brace + 1)) = inner.length := by
  induction code using List.reverseRecOn with
  | nil => simp [openBraces] at h
  | append_singleton code c ih =>
    have hdescending := openBraces_descending code
    rw [openBraces_concat] at h ⊢
    unfold matchBrace at h ⊢
    -- The brace is the one just read, or it was open before and a character is read behind it.
    by_cases hnew : brace = code.length
    · subst hnew
      split at h
      next hc =>
        refine ⟨[], openBraces code, by rw [if_pos hc]; rfl, ?_⟩
        rw [List.drop_eq_nil_of_le (by simp)]
        rfl
      next =>
        have hold : code.length ∈ openBraces code := by
          split at h
          · exact List.mem_of_mem_tail h
          · exact h
        exact absurd (lt_length_of_open hold) (Nat.lt_irrefl _)
    · have hold : brace ∈ openBraces code := by
        rcases mem_matchBrace h with h | h
        · exact h
        · exact absurd h hnew
      have hlt := lt_length_of_open hold
      obtain ⟨inner, outer, hbraces, hdepth⟩ := ih hold
      rw [List.drop_append_of_le_length (Nat.succ_le_of_lt hlt), depth_append, hdepth, hbraces]
      rw [hbraces] at h hdescending
      split
      next hc =>
        subst hc
        have hone : depth ['{'] = 1 := by decide
        exact ⟨code.length :: inner, outer, rfl, by rw [hone]; rfl⟩
      next hopen =>
        rw [if_neg hopen] at h
        split
        next hc =>
          subst hc
          rw [if_pos rfl] at h
          cases inner with
          | nil =>
            have hbelow := (List.pairwise_cons.mp hdescending).1 brace h
            exact absurd hbelow (Nat.lt_irrefl _)
          | cons first inner =>
            have hone : depth ['}'] = -1 := by decide
            refine ⟨inner, outer, rfl, ?_⟩
            rw [hone, List.length_cons]
            omega
        next hclose =>
          exact ⟨inner, outer, rfl, by simp [depth, hopen, hclose]⟩

theorem lt_of_closes (h : Closes code brace stop) : brace < stop ∧ stop < code.length := by
  have hlt := lt_length_of_open (List.mem_of_mem_head? h.2)
  rw [List.length_take] at hlt
  exact ⟨by omega, (List.getElem?_eq_some_iff.mp h.1).1⟩

/-- A brace is open from where it stands to where it is closed. -/
theorem open_of_closes (h : Closes code brace stop) (hlt : brace < offset) (hle : offset ≤ stop) :
    brace ∈ openBraces (code.take offset) := by
  have hstop := lt_of_closes h
  have hsplit : code.take stop = code.take offset ++ (code.drop offset).take (stop - offset) := by
    rw [← List.take_add, Nat.add_sub_cancel' hle]
  have hopen := List.mem_of_mem_head? h.2
  rw [hsplit] at hopen
  apply open_of_append hopen
  rw [List.length_take]
  omega

/-- Between two braces and what closes them there is either nothing in common, or the one that is
closed first lies within the other. -/
theorem Closes.nested_or_apart {brace' stop' : Nat} (h : Closes code brace stop)
    (h' : Closes code brace' stop') (hlt : stop < stop') : brace' ≤ brace ∨ stop ≤ brace' := by
  by_cases hle : brace' < stop
  · exact Or.inl (le_head_of_open h.2 (open_of_closes h' hle (Nat.le_of_lt hlt)))
  · exact Or.inr (Nat.le_of_not_lt hle)

end Open

namespace Blocks

/-- The blocks of code that is read from its start. -/
def ofCode (code : Text) : Blocks := readFrom { header := [], stack := [], scopes := [] } 0 code

theorem ofCode_concat (code : Text) (c : Char) :
    ofCode (code ++ [c]) = (ofCode code).read code.length c := by
  rw [ofCode, readFrom_append, Nat.zero_add]
  rfl

end Blocks

section Scopes

variable {code : Text} {brace start stop offset : Nat}

theorem scopes_eq (code : Text) : scopes code = (Blocks.ofCode code).scopes.reverse := rfl

theorem headerAt_append (h : brace ≤ code.length) (more : Text) :
    headerAt (code ++ more) brace = headerAt code brace := by
  rw [headerAt, List.take_append_of_le_length h, headerAt]

theorem header_ofCode (code : Text) :
    (Blocks.ofCode code).header.reverse = Text.behindLast endsStatement code := by
  induction code using List.reverseRecOn with
  | nil => rfl
  | append_singleton code c ih =>
    rw [Blocks.ofCode_concat, Text.behindLast_concat, ← ih]
    unfold Blocks.read endsStatement
    split
    next hc => simp [hc]
    next hopen =>
      split
      next hc => split <;> simp [hc]
      next hclose =>
        split
        next hc => simp [hc]
        next hend => simp [hopen, hclose, hend]

/-- The stack of open blocks is that of the open braces, with what their headers declare. -/
theorem stack_ofCode (code : Text) :
    (Blocks.ofCode code).stack =
      (openBraces code).map fun brace => (brace + 1, declaresType (headerAt code brace)) := by
  induction code using List.reverseRecOn with
  | nil => rfl
  | append_singleton code c ih =>
    have hkept : (openBraces code).map
          (fun brace => (brace + 1, declaresType (headerAt (code ++ [c]) brace))) =
        (Blocks.ofCode code).stack := by
      rw [ih]
      apply List.map_congr_left
      intro brace h
      rw [headerAt_append (Nat.le_of_lt (lt_length_of_open h))]
    rw [Blocks.ofCode_concat, openBraces_concat]
    unfold Blocks.read matchBrace
    split
    next =>
      have hheader : headerAt (code ++ [c]) code.length = (Blocks.ofCode code).header.reverse := by
        rw [header_ofCode, headerAt_append (Nat.le_refl _), headerAt, List.take_length]
      rw [List.map_cons, hkept, hheader]
    next =>
      split
      next =>
        rw [List.map_tail, hkept]
        split
        next hstack => rw [hstack]; rfl
        next hstack => rw [hstack]; rfl
      next =>
        rw [hkept]
        split <;> rfl

theorem closes_concat (code : Text) (c : Char) (brace stop : Nat) :
    Closes (code ++ [c]) brace stop ↔ Closes code brace stop ∨
      stop = code.length ∧ c = '}' ∧ (openBraces code).head? = some brace := by
  unfold Closes
  rcases Nat.lt_trichotomy stop code.length with hlt | rfl | hgt
  · rw [List.getElem?_append_left hlt, List.take_append_of_le_length (Nat.le_of_lt hlt)]
    simp [Nat.ne_of_lt hlt]
  · simp
  · rw [List.getElem?_eq_none (by simp; omega), List.getElem?_eq_none (by omega)]
    simp [Nat.ne_of_gt hgt]

/-- The scopes are the braces that are closed and whose headers declare types. -/
theorem mem_scopes : (start, stop) ∈ scopes code ↔
    ∃ brace, start = brace + 1 ∧ Closes code brace stop ∧
      declaresType (headerAt code brace) = true := by
  rw [scopes_eq, List.mem_reverse]
  induction code using List.reverseRecOn with
  | nil => simp [Blocks.ofCode, Blocks.readFrom, Closes]
  | append_singleton code c ih =>
    have hkept : (∃ brace, start = brace + 1 ∧ Closes code brace stop ∧
          declaresType (headerAt (code ++ [c]) brace) = true) ↔
        (start, stop) ∈ (Blocks.ofCode code).scopes := by
      rw [ih]
      refine exists_congr fun brace => and_congr_right fun _ => and_congr_right fun h => ?_
      have hstop := lt_of_closes h
      rw [headerAt_append (by omega)]
    have hstack := stack_ofCode code
    simp only [closes_concat, or_and_right, and_or_left, exists_or, hkept]
    rw [Blocks.ofCode_concat]
    unfold Blocks.read
    by_cases hc : c = '}'
    · subst hc
      rw [if_neg (by decide), if_pos rfl]
      cases hb : openBraces code with
      | nil =>
        rw [hb] at hstack
        simp [hstack]
      | cons first rest =>
        have hfirst : first < code.length :=
          lt_length_of_open (by rw [hb]; exact List.mem_cons_self)
        rw [hb] at hstack
        simp only [hstack, List.map_cons, List.head?_cons, Option.some.injEq, true_and]
        cases htype : declaresType (headerAt code first) with
        | false =>
          simp only [Bool.false_eq_true, if_false]
          refine (or_iff_left ?_).symm
          rintro ⟨brace, -, ⟨-, rfl⟩, hdeclares⟩
          rw [headerAt_append (Nat.le_of_lt hfirst), htype] at hdeclares
          cases hdeclares
        | true =>
          simp only [if_true, List.mem_cons, Prod.mk.injEq]
          rw [or_comm]
          refine or_congr_right ⟨?_, ?_⟩
          · rintro ⟨rfl, rfl⟩
            exact ⟨first, rfl, ⟨rfl, rfl⟩, by rw [headerAt_append (Nat.le_of_lt hfirst), htype]⟩
          · rintro ⟨brace, rfl, ⟨rfl, rfl⟩, -⟩
            exact ⟨rfl, rfl⟩
    · simp only [hc, false_and, and_false, exists_false, or_false, if_false]
      split
      · rfl
      · split <;> rfl

theorem foldl_laterOf_le {found : List (Nat × Nat)} {best : Option (Nat × Nat)}
    {scope : Nat × Nat} (h : found.foldl laterOf best = some scope) :
    (∀ s ∈ found, s.1 ≤ scope.1) ∧ ∀ b, best = some b → b.1 ≤ scope.1 := by
  induction found generalizing best with
  | nil =>
    refine ⟨List.forall_mem_nil _, ?_⟩
    rintro b rfl
    cases Option.some.inj h
    exact Nat.le_refl _
  | cons s found ih =>
    obtain ⟨hfound, hbest⟩ := ih h
    have hlater : s.1 ≤ scope.1 ∧ ∀ b, best = some b → b.1 ≤ scope.1 := by
      cases best with
      | none => exact ⟨hbest s rfl, fun b hb => by cases hb⟩
      | some b =>
        by_cases hlt : b.1 < s.1
        · have hs := hbest s (by rw [laterOf, if_pos hlt])
          refine ⟨hs, ?_⟩
          intro b' hb'
          cases Option.some.inj hb'
          omega
        · have hb := hbest b (by rw [laterOf, if_neg hlt])
          refine ⟨by omega, ?_⟩
          intro b' hb'
          cases Option.some.inj hb'
          exact hb
    exact ⟨List.forall_mem_cons.mpr ⟨hlater.1, hfound⟩, hlater.2⟩

theorem isSome_foldl_laterOf {found : List (Nat × Nat)} {best : Option (Nat × Nat)}
    (h : found ≠ [] ∨ best.isSome) : (found.foldl laterOf best).isSome := by
  induction found generalizing best with
  | nil => exact h.resolve_left (fun hne => hne rfl)
  | cons s found ih =>
    apply ih
    right
    cases best with
    | none => rfl
    | some b =>
      show (if b.1 < s.1 then some s else some b).isSome = true
      split <;> rfl

theorem innermost?_spec {all : List (Nat × Nat)} {scope : Nat × Nat}
    (h : innermost? all offset = some scope) :
    (scope ∈ all ∧ scope.1 ≤ offset ∧ offset < scope.2) ∧
      ∀ other ∈ all, other.1 ≤ offset → offset < other.2 → other.1 ≤ scope.1 := by
  rw [innermost?_eq] at h
  constructor
  · rcases foldl_laterOf_mem h with hm | hn
    · simpa using hm
    · cases hn
  · intro other hmem hle hlt
    exact (foldl_laterOf_le h).1 other (List.mem_filter.mpr ⟨hmem, by simp [hle, hlt]⟩)

theorem exists_innermost? {all : List (Nat × Nat)} {scope : Nat × Nat} (hmem : scope ∈ all)
    (hle : scope.1 ≤ offset) (hlt : offset < scope.2) :
    ∃ found, innermost? all offset = some found := by
  rw [innermost?_eq]
  apply Option.isSome_iff_exists.mp
  apply isSome_foldl_laterOf
  exact Or.inl (List.ne_nil_of_mem (List.mem_filter.mpr ⟨hmem, by simp [hle, hlt]⟩))

/-- An offset lies in no block of its own behind an open brace exactly if no other brace is open
within it. -/
theorem isNested_eq_false_iff (h : brace ∈ openBraces (code.take offset)) :
    isNested code (brace + 1, stop) offset = false ↔
      (openBraces (code.take offset)).head? = some brace := by
  have hdescending := openBraces_descending (code.take offset)
  obtain ⟨inner, outer, hbraces, hdepth⟩ := depth_since_open h
  rw [isNested, ← List.drop_take, hdepth, hbraces]
  rw [hbraces] at hdescending
  cases inner with
  | nil => simp
  | cons first inner =>
    have hlt := (List.pairwise_cons.mp hdescending).1 brace (by simp)
    have hne : first ≠ brace := by omega
    simp [hne]

theorem inTypeBody_iff_exists : inTypeBody code (scopes code) offset = true ↔
    ∃ scope, innermost? (scopes code) offset = some scope ∧
      isNested code scope offset = false := by
  unfold inTypeBody
  cases innermost? (scopes code) offset with
  | none => simp
  | some scope => simp

theorem inTypeBody_iff : inTypeBody code (scopes code) offset = true ↔
    DirectlyInType code offset := by
  rw [inTypeBody_iff_exists]
  constructor
  · rintro ⟨⟨start, stop⟩, hinnermost, hnested⟩
    obtain ⟨⟨hmem, hle, hlt⟩, -⟩ := innermost?_spec hinnermost
    obtain ⟨brace, rfl, hcloses, htype⟩ := mem_scopes.mp hmem
    have hopen := open_of_closes hcloses hle (Nat.le_of_lt hlt)
    exact ⟨brace, stop, (isNested_eq_false_iff hopen).mp hnested, hcloses, hlt, htype⟩
  · rintro ⟨brace, stop, hhead, hcloses, hlt, htype⟩
    have hbefore := lt_length_of_open (List.mem_of_mem_head? hhead)
    rw [List.length_take] at hbefore
    have hmem : (brace + 1, stop) ∈ scopes code := mem_scopes.mpr ⟨brace, rfl, hcloses, htype⟩
    have hle : brace + 1 ≤ offset := by omega
    obtain ⟨⟨start', stop'⟩, hinnermost⟩ := exists_innermost? hmem hle hlt
    obtain ⟨⟨hmem', hle', hlt'⟩, hmost⟩ := innermost?_spec hinnermost
    obtain ⟨brace', rfl, hcloses', -⟩ := mem_scopes.mp hmem'
    -- The scope that starts last is that of the innermost brace, for both are open here.
    have hopen' := open_of_closes hcloses' hle' (Nat.le_of_lt hlt')
    have hsame : brace' = brace := by
      have hinner := le_head_of_open hhead hopen'
      have houter := hmost _ hmem hle hlt
      dsimp only at houter
      omega
    subst hsame
    exact ⟨_, hinnermost, (isNested_eq_false_iff hopen').mpr hhead⟩

/-- One scope lies within the other, or the two have nothing in common. -/
def NestedOrApart (a b : Nat × Nat) : Prop :=
  b.1 ≤ a.1 ∧ a.2 ≤ b.2 ∨ a.1 ≤ b.1 ∧ b.2 ≤ a.2 ∨ a.2 < b.1 ∨ b.2 < a.1

theorem scopes_nestedOrApart {a b : Nat × Nat} (ha : a ∈ scopes code) (hb : b ∈ scopes code) :
    NestedOrApart a b := by
  obtain ⟨start, stop⟩ := a
  obtain ⟨start', stop'⟩ := b
  obtain ⟨brace, rfl, hcloses, -⟩ := mem_scopes.mp ha
  obtain ⟨brace', rfl, hcloses', -⟩ := mem_scopes.mp hb
  unfold NestedOrApart
  dsimp only
  rcases Nat.lt_trichotomy stop stop' with hlt | rfl | hgt
  · have := hcloses.nested_or_apart hcloses' hlt
    omega
  · have := Option.some.inj (hcloses.2.symm.trans hcloses'.2)
    omega
  · have := hcloses'.nested_or_apart hcloses hgt
    omega

end Scopes

/-- The innermost scope at an offset holds it in no block of its own exactly if the innermost brace
open before it is closed behind it and its header declares a type. -/
theorem innermost_scope_matches_brace (code : Text) :
    (∀ offset, (∃ scope, innermost? (scopes code) offset = some scope ∧
        isNested code scope offset = false) ↔
      ∃ brace stop, (openBraces (code.take offset)).head? = some brace ∧ Closes code brace stop ∧
        offset < stop ∧ declaresType (headerAt code brace) = true) ∧
    ∀ a ∈ scopes code, ∀ b ∈ scopes code, NestedOrApart a b :=
  ⟨fun _ => inTypeBody_iff_exists.symm.trans inTypeBody_iff,
    fun _ ha _ hb => scopes_nestedOrApart ha hb⟩

end WeakDelegate

end StyleRules
