import StyleRules.Proofs.RenderedMarkers

namespace StyleRules

namespace Text

/-- How many characters stand before the first occurrence of a needle, if it occurs. -/
def firstOccurrence? (needle : Text) : Text → Option Nat
  | [] => none
  | c :: rest =>
    if startsWith needle (c :: rest) then some 0
    else (firstOccurrence? needle rest).map (· + 1)

theorem exists_of_firstOccurrence? {needle text : Text} {n : Nat}
    (h : firstOccurrence? needle text = some n) :
    ∃ before after, text = before ++ (needle ++ after) ∧ before.length = n := by
  induction text generalizing n with
  | nil => cases h
  | cons c rest ih =>
    unfold firstOccurrence? at h
    split at h
    next hstart =>
      obtain ⟨after, hafter⟩ := List.isPrefixOf_iff_prefix.mp hstart
      cases h
      exact ⟨[], after, hafter.symm, rfl⟩
    next =>
      obtain ⟨k, hk, rfl⟩ := Option.map_eq_some_iff.mp h
      obtain ⟨before, after, hrest, hlength⟩ := ih hk
      refine ⟨c :: before, after, ?_, by rw [List.length_cons, hlength]⟩
      rw [hrest, List.cons_append]

end Text

namespace Marked

open Text (firstOccurrence? exists_of_firstOccurrence?)

/-- Cuts the first marker out of a text that does not end before the index, and goes on in what is
left, at the offset where the marker stood. -/
def cutFrom (marker : Text) (hmarker : marker ≠ []) (text : Text) (index : Nat) : Marked :=
  match _h : firstOccurrence? marker (text.drop index) with
  | none => { text, offsets := [] }
  | some n =>
    let left := text.take (index + n) ++ text.drop (index + n + marker.length)
    let m := cutFrom marker hmarker left (index + n)
    { m with offsets := (index + n) :: m.offsets }
termination_by text.length
decreasing_by
  obtain ⟨before, after, hsplit, hlength⟩ := exists_of_firstOccurrence? _h
  have hpos := List.length_pos_iff.mpr hmarker
  have htotal := congrArg List.length hsplit
  simp only [List.length_drop, List.length_append] at htotal
  simp only [List.length_append, List.length_take, List.length_drop]
  omega

section Passes

variable {marker text : Text} {n : Nat}

theorem stripFrom_skip (marker : Text) (skip offset : Nat) (text : Text) :
    stripFrom marker skip offset text = stripFrom marker 0 offset (text.drop skip) := by
  induction text generalizing skip with
  | nil => simp [stripFrom]
  | cons c rest ih =>
    cases skip with
    | zero => rfl
    | succ k =>
      rw [List.drop_succ_cons, ← ih k]
      rfl

theorem stripFrom_of_none (h : firstOccurrence? marker text = none) (offset : Nat) :
    stripFrom marker 0 offset text = { text, offsets := [] } := by
  induction text generalizing offset with
  | nil => rfl
  | cons c rest ih =>
    unfold firstOccurrence? at h
    split at h
    next => cases h
    next hstart =>
      have hrest := ih (Option.map_eq_none_iff.mp h) (offset + 1)
      rw [stripFrom, if_neg fun hboth => hstart hboth.2, hrest]

/-- One pass takes out the first marker and goes on behind it. -/
theorem stripFrom_of_some (hmarker : marker ≠ []) (h : firstOccurrence? marker text = some n)
    (offset : Nat) : ∃ before after, text = before ++ (marker ++ after) ∧ before.length = n ∧
      stripFrom marker 0 offset text =
        { text := before ++ (stripFrom marker 0 (offset + n) after).text
          offsets := (offset + n) :: (stripFrom marker 0 (offset + n) after).offsets } := by
  induction text generalizing n offset with
  | nil => cases h
  | cons c rest ih =>
    unfold firstOccurrence? at h
    split at h
    next hstart =>
      obtain ⟨after, hafter⟩ := List.isPrefixOf_iff_prefix.mp hstart
      cases h
      refine ⟨[], after, hafter.symm, rfl, ?_⟩
      have hbehind : rest.drop (marker.length - 1) = after := by
        have hpos := List.length_pos_iff.mpr hmarker
        have hdrop : (c :: rest).drop marker.length = after := by
          rw [← hafter]
          exact List.drop_left
        rwa [← Nat.sub_add_cancel hpos, List.drop_succ_cons] at hdrop
      rw [stripFrom, if_pos ⟨hmarker, hstart⟩, stripFrom_skip, hbehind]
      rfl
    next hstart =>
      obtain ⟨k, hk, rfl⟩ := Option.map_eq_some_iff.mp h
      obtain ⟨before, after, hrest, hlength, hpass⟩ := ih hk (offset + 1)
      have hshift : offset + 1 + k = offset + (k + 1) := by omega
      rw [hshift] at hpass
      refine ⟨c :: before, after, by rw [hrest, List.cons_append],
        by rw [List.length_cons, hlength], ?_⟩
      rw [stripFrom, if_neg fun hboth => hstart hboth.2, hpass]
      rfl

/-- Whatever stands before the index, cutting markers out one by one is one pass over the rest. -/
theorem cutFrom_append (hmarker : marker ≠ []) (done rest : Text) :
    cutFrom marker hmarker (done ++ rest) done.length =
      { text := done ++ (stripFrom marker 0 done.length rest).text
        offsets := (stripFrom marker 0 done.length rest).offsets } := by
  unfold cutFrom
  split
  next hnone =>
    rw [List.drop_left] at hnone
    rw [stripFrom_of_none hnone]
  next n hsome =>
    rw [List.drop_left] at hsome
    obtain ⟨before, after, rfl, rfl, hpass⟩ := stripFrom_of_some hmarker hsome done.length
    have hpos := List.length_pos_iff.mpr hmarker
    have hindex : done.length + before.length = (done ++ before).length :=
      List.length_append.symm
    have htake : (done ++ (before ++ (marker ++ after))).take (done ++ before).length =
        done ++ before := by
      rw [← List.append_assoc, List.take_left]
    have hdrop : (done ++ (before ++ (marker ++ after))).drop
        ((done ++ before).length + marker.length) = after := by
      rw [← List.length_append, ← List.append_assoc, ← List.append_assoc, List.drop_left]
    rw [hpass]
    simp only [hindex, htake, hdrop]
    -- What is left is again a text up to the index, now with what stood before the marker, and a rest.
    rw [cutFrom_append hmarker (done ++ before) after]
    simp
termination_by rest.length
decreasing_by
  subst_vars
  simp only [List.length_append]
  omega

theorem cutFrom_eq_strip (hmarker : marker ≠ []) (text : Text) :
    cutFrom marker hmarker text 0 = strip text marker :=
  cutFrom_append hmarker [] text

end Passes

section Restoring

variable {x : Char} {text u : Text} {offsets : List Nat}

theorem length_offsets_stripFrom (x : Char) (offset : Nat) (text : Text) :
    (stripFrom [x] 0 offset text).offsets.length = text.count x := by
  induction text generalizing offset with
  | nil => rfl
  | cons c rest ih =>
    by_cases hc : c = x
    · subst hc
      rw [stripFrom_marker, List.length_cons, ih, List.count_cons_self]
    · rw [stripFrom_plain hc, List.count_cons_of_ne hc]
      exact ih (offset + 1)

theorem markersAt_eq (x : Char) (offsets : List Nat) (o : Nat) :
    markersAt [x] offsets o = List.replicate (offsets.count o) x :=
  List.flatten_replicate_singleton

theorem stripFrom_replicate (n offset : Nat) (text : Text) :
    stripFrom [x] 0 offset (List.replicate n x ++ text) =
      { stripFrom [x] 0 offset text with
        offsets := List.replicate n offset ++ (stripFrom [x] 0 offset text).offsets } := by
  induction n with
  | zero => rfl
  | succ n ih =>
    rw [List.replicate_succ, List.cons_append, stripFrom_marker, ih]
    rfl

/-- Stripping a restored text finds a marker at each of the offsets that lie in the text. -/
theorem stripFrom_restoreFrom (hx : x ∉ u) (offset : Nat) :
    (stripFrom [x] 0 offset (restoreFrom [x] offsets offset u)).text = u ∧
      ∀ o, (stripFrom [x] 0 offset (restoreFrom [x] offsets offset u)).offsets.count o =
        if offset ≤ o ∧ o ≤ offset + u.length then offsets.count o else 0 := by
  induction u generalizing offset with
  | nil =>
    have hpass := @stripFrom_replicate x (offsets.count offset) offset []
    rw [List.append_nil] at hpass
    rw [restoreFrom, markersAt_eq, hpass]
    refine ⟨rfl, fun o => ?_⟩
    change (List.replicate _ offset ++ []).count o = _
    rw [List.append_nil, List.count_replicate]
    by_cases ho : offset = o
    · subst ho
      simp
    · rw [if_neg (by simpa using ho), if_neg (by simp only [List.length_nil]; omega)]
  | cons c rest ih =>
    obtain ⟨hxc, hrest⟩ := List.ne_and_not_mem_of_not_mem_cons hx
    obtain ⟨htext, hcount⟩ := ih hrest (offset + 1)
    rw [restoreFrom, markersAt_eq, stripFrom_replicate, stripFrom_plain (Ne.symm hxc)]
    refine ⟨congrArg (c :: ·) htext, fun o => ?_⟩
    dsimp only
    rw [List.count_append, List.count_replicate, hcount]
    by_cases ho : offset = o
    · subst ho
      simp
    · rw [if_neg (by simpa using ho), Nat.zero_add, List.length_cons]
      congr 1
      apply propext
      omega

theorem strip_restore (hx : x ∉ u) (ascending : offsets.Pairwise (· ≤ ·))
    (bounded : ∀ o ∈ offsets, o ≤ u.length) :
    strip (restore ⟨u, offsets⟩ [x]) [x] = ⟨u, offsets⟩ := by
  obtain ⟨htext, hcount⟩ := @stripFrom_restoreFrom x u offsets hx 0
  have hsame : (strip (restore ⟨u, offsets⟩ [x]) [x]).offsets.Perm offsets := by
    apply List.perm_iff_count.mpr
    intro o
    rw [strip, restore, hcount]
    by_cases ho : o ∈ offsets
    · have hle := bounded o ho
      rw [if_pos (by omega)]
    · rw [List.count_eq_zero_of_not_mem ho, ite_self]
  have hascending : (strip (restore ⟨u, offsets⟩ [x]) [x]).offsets.Pairwise (· ≤ ·) :=
    stripFrom_ascending _ _ _ _
  have hoffsets := hsame.eq_of_pairwise (fun _ _ _ _ => Nat.le_antisymm) hascending ascending
  calc strip (restore ⟨u, offsets⟩ [x]) [x]
      = ⟨(strip (restore ⟨u, offsets⟩ [x]) [x]).text,
          (strip (restore ⟨u, offsets⟩ [x]) [x]).offsets⟩ := rfl
    _ = ⟨u, offsets⟩ := by
      rw [hoffsets]
      exact congrArg (Marked.mk · offsets) htext

theorem insertAll_strip (x : Char) (text : Text) :
    insertAll x (strip text [x]).offsets (strip text [x]).text = text :=
  insertAll_stripFrom x [] text

theorem restore_eq_insertAll (hx : x ∉ u) (ascending : offsets.Pairwise (· ≤ ·))
    (bounded : ∀ o ∈ offsets, o ≤ u.length) :
    restore ⟨u, offsets⟩ [x] = insertAll x offsets u := by
  -- Markers put in where stripping finds them give back the stripped text, here the restored one.
  have hback := insertAll_strip x (restore ⟨u, offsets⟩ [x])
  rw [strip_restore hx ascending bounded] at hback
  exact hback.symm

theorem ascending_of_pairwise {bounds : List Int} (h : bounds.Pairwise (· ≤ ·)) :
    Marked.ascending bounds = true := by
  fun_induction Marked.ascending bounds with
  | case1 a b rest ih =>
    obtain ⟨hfirst, hrest⟩ := List.pairwise_cons.mp h
    rw [ih hrest, decide_eq_true (hfirst b List.mem_cons_self)]
    rfl
  | case2 => rfl

theorem ofOffsets_of_ascending (ascending : offsets.Pairwise (· ≤ ·))
    (bounded : ∀ o ∈ offsets, o ≤ u.length) :
    ofOffsets u (offsets.map Int.ofNat) = .ok ⟨u, offsets⟩ := by
  have hascending : (offsets.map Int.ofNat).Pairwise (· ≤ ·) :=
    List.pairwise_map.mpr (ascending.imp Int.ofNat_le.mpr)
  have hinside : (offsets.map Int.ofNat).any (fun o => o < 0 || u.length < o) = false := by
    rw [List.any_eq_false]
    intro o ho
    obtain ⟨n, hn, rfl⟩ := List.mem_map.mp ho
    have hle := bounded n hn
    simp only [Bool.or_eq_true, decide_eq_true_eq, Int.ofNat_eq_natCast]
    omega
  have hback : (offsets.map Int.ofNat).map Int.toNat = offsets := by
    rw [List.map_map]
    exact List.map_id offsets
  rw [ofOffsets, ascending_of_pairwise hascending, hinside, hback]
  rfl

end Restoring

/-- Cutting the markers of a text out one by one ends, and is the inverse of putting them in. -/
theorem strip_inverts_insertAll (x : Char) :
    (∀ text : Text,
      let cut := cutFrom [x] (List.cons_ne_nil x []) text 0
      let m := strip text [x]
      cut = m ∧ m.text = text.filter (· ≠ x) ∧ m.offsets.length = text.count x ∧
        m.offsets.Pairwise (· ≤ ·) ∧ (∀ o ∈ m.offsets, o ≤ m.text.length) ∧
        ofOffsets cut.text ((sortBy (fun a b => decide (a ≤ b)) cut.offsets).map Int.ofNat) =
          .ok m ∧
        insertAll x m.offsets m.text = text ∧ restore m [x] = text) ∧
    ∀ (u : Text) (offsets : List Nat), x ∉ u → offsets.Pairwise (· ≤ ·) →
      (∀ o ∈ offsets, o ≤ u.length) →
        strip (insertAll x offsets u) [x] = ⟨u, offsets⟩ ∧
          restore ⟨u, offsets⟩ [x] = insertAll x offsets u := by
  constructor
  · intro text cut m
    have hcut : cut = m := cutFrom_eq_strip (List.cons_ne_nil x []) text
    have htext : m.text = text.filter (· ≠ x) := stripFrom_text x 0 text
    have hascending : m.offsets.Pairwise (· ≤ ·) := stripFrom_ascending [x] 0 0 text
    have hbounded : ∀ o ∈ m.offsets, o ≤ m.text.length := by
      intro o ho
      have hle := (stripFrom_offset_bounds ho).2
      rwa [Nat.zero_add] at hle
    have hplain : x ∉ m.text := by
      rw [htext]
      simp
    have hsorted : sortBy (fun a b => decide (a ≤ b)) m.offsets = m.offsets :=
      sortBy_eq_self (by simpa using hascending)
    refine ⟨hcut, htext, length_offsets_stripFrom x 0 text, hascending, hbounded, ?_,
      insertAll_strip x text, ?_⟩
    · rw [hcut, hsorted]
      exact ofOffsets_of_ascending hascending hbounded
    · exact (restore_eq_insertAll hplain hascending hbounded).trans (insertAll_strip x text)
  · intro u offsets hx hascending hbounded
    have hrestore := restore_eq_insertAll hx hascending hbounded
    exact ⟨hrestore ▸ strip_restore hx hascending hbounded, hrestore⟩

/-- Adjacent markers and markers at both ends, and a text of markers only. -/
theorem strip_inverts_insertAll_adjacent :
    cutFrom ['|'] (List.cons_ne_nil _ _) "||a|b||".toList 0 = ⟨"ab".toList, [0, 0, 1, 2, 2]⟩ ∧
      restore (strip "|||".toList ['|']) ['|'] = "|||".toList ∧
      '|' ∉ "ab".toList ∧ [0, 0, 1, 2, 2].Pairwise (· ≤ ·) ∧
      (∀ o ∈ [0, 0, 1, 2, 2], o ≤ "ab".toList.length) ∧
      strip "||a|b||".toList ['|'] = ⟨"ab".toList, [0, 0, 1, 2, 2]⟩ := by
  obtain ⟨hstrip, hinsert⟩ := strip_inverts_insertAll '|'
  have hplain : '|' ∉ "ab".toList := by decide
  have hascending : [0, 0, 1, 2, 2].Pairwise (· ≤ ·) := by decide
  have hbounded : ∀ o ∈ [0, 0, 1, 2, 2], o ≤ "ab".toList.length := by decide
  obtain ⟨hcut, -⟩ := hstrip "||a|b||".toList
  obtain ⟨-, -, -, -, -, -, -, hrestore⟩ := hstrip "|||".toList
  obtain ⟨hback, -⟩ := hinsert "ab".toList [0, 0, 1, 2, 2] hplain hascending hbounded
  exact ⟨hcut.trans hback, hrestore, hplain, hascending, hbounded, hback⟩

end Marked

end StyleRules
