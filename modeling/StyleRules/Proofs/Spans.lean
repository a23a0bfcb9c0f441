import StyleRules.Text.Lines

namespace StyleRules

namespace Text

theorem eq_nil_of_byteSize_eq_zero {text : Text} (h : byteSize text = 0) : text = [] := by
  cases text with
  | nil => rfl
  | cons c rest =>
    have hc := c.utf8Size_pos
    simp only [byteSize] at h
    omega

/-- Two parts that a text starts with are the same if they have as many bytes. -/
theorem eq_of_byteSize_eq {a b more rest : Text} (happend : a ++ more = b ++ rest)
    (hsize : byteSize a = byteSize b) : a = b := by
  rcases List.append_eq_append_iff.mp happend with ⟨m, rfl, -⟩ | ⟨m, rfl, -⟩
  all_goals
    rw [byteSize_append] at hsize
    have hm : m = [] := eq_nil_of_byteSize_eq_zero (by omega)
    simp [hm]

theorem boundaries_find (before after : Text) (offset : Nat) :
    ((before ++ after).boundaries offset).findIdx? (· == offset + byteSize before) =
      some before.length := by
  induction before generalizing offset with
  | nil => cases after <;> simp [boundaries, byteSize, List.findIdx?_cons]
  | cons c rest ih =>
    have hc := c.utf8Size_pos
    have hne : (offset == offset + byteSize (c :: rest)) = false := by
      simp only [byteSize, beq_eq_false_iff_ne]
      omega
    have hrest := ih (offset + c.utf8Size)
    rw [show offset + c.utf8Size + byteSize rest = offset + byteSize (c :: rest) by
      simp only [byteSize]; omega] at hrest
    simp only [List.cons_append, boundaries, List.findIdx?_cons, hne, hrest]
    rfl

theorem length_le_byteSize (text : Text) : text.length ≤ byteSize text := by
  induction text with
  | nil => exact Nat.zero_le _
  | cons c rest ih =>
    have hc := c.utf8Size_pos
    simp only [List.length_cons, byteSize]
    omega

/-- The index of a text finds the character that starts right after some bytes of it. -/
theorem characterOffset?_byteSize (before after : Text) :
    (LineIndex.ofText (before ++ after)).characterOffset? (byteSize before) =
      some before.length := by
  unfold LineIndex.characterOffset? LineIndex.ofText
  by_cases hsingle : byteSize (before ++ after) = (before ++ after).length
  · have hbefore := length_le_byteSize before
    have hafter := length_le_byteSize after
    have hsplit := byteSize_append before after
    rw [hsingle, List.length_append] at hsplit
    have hsame : byteSize before = before.length := by omega
    rw [if_pos hsingle, hsame]
    dsimp only
    rw [if_pos (by rw [List.length_append]; omega), Int.toNat_natCast]
  · have hfind := boundaries_find before after 0
    rw [Nat.zero_add] at hfind
    rw [if_neg hsingle]
    dsimp only
    rw [if_neg (by omega)]
    exact hfind

/-- A byte offset between two characters of a text, or at one of its ends. -/
def Boundary (text : Text) (offset : Int) : Prop :=
  ∃ before after, text = before ++ after ∧ offset = byteSize before

/-- A part of a text stands between two byte offsets. -/
def Spans (text : Text) (start stop : Int) (part : Text) : Prop :=
  ∃ before after, text = before ++ part ++ after ∧ start = byteSize before ∧
    stop = byteSize (before ++ part)

namespace Spans

variable {text part more : Text} {start stop last : Int}

theorem start_boundary (h : text.Spans start stop part) : text.Boundary start := by
  obtain ⟨before, after, htext, hstart, -⟩ := h
  exact ⟨before, part ++ after, by rw [htext, List.append_assoc], hstart⟩

theorem stop_boundary (h : text.Spans start stop part) : text.Boundary stop := by
  obtain ⟨before, after, htext, -, hstop⟩ := h
  exact ⟨before ++ part, after, htext, hstop⟩

theorem stop_eq (h : text.Spans start stop part) : stop = start + byteSize part := by
  obtain ⟨before, after, -, rfl, rfl⟩ := h
  rw [byteSize_append, Int.natCast_add]

theorem stop_le (h : text.Spans start stop part) : stop ≤ byteSize text := by
  obtain ⟨before, after, rfl, -, rfl⟩ := h
  rw [byteSize_append (before ++ part)]
  omega

/-- Only one part stands between two offsets. -/
theorem unique (h : text.Spans start stop part) (h' : text.Spans start stop more) :
    part = more := by
  have hsize : byteSize part = byteSize more := by
    have := h.stop_eq
    have := h'.stop_eq
    omega
  obtain ⟨before, after, htext, hstart, -⟩ := h
  obtain ⟨before', after', htext', hstart', -⟩ := h'
  rw [htext, List.append_assoc, List.append_assoc] at htext'
  obtain rfl : before = before' := eq_of_byteSize_eq htext' (by omega)
  exact eq_of_byteSize_eq (List.append_cancel_left htext') hsize

theorem append (h : text.Spans start stop part) (h' : text.Spans stop last more) :
    text.Spans start last (part ++ more) := by
  obtain ⟨before, after, htext, hstart, hstop⟩ := h
  obtain ⟨before', after', htext', hstop', hlast⟩ := h'
  obtain rfl : before ++ part = before' := by
    rw [htext, List.append_assoc _ more] at htext'
    exact eq_of_byteSize_eq htext' (by omega)
  exact ⟨before, after', by rw [htext']; simp only [List.append_assoc], hstart,
    by rw [hlast, List.append_assoc]⟩

end Spans

/-- Between two boundaries stands a part of the text. -/
theorem Boundary.spans {text : Text} {start stop : Int} (hstart : text.Boundary start)
    (hstop : text.Boundary stop) (hle : start ≤ stop) : ∃ part, text.Spans start stop part := by
  obtain ⟨before, after, htext, rfl⟩ := hstart
  obtain ⟨before', after', htext', rfl⟩ := hstop
  rcases List.append_eq_append_iff.mp (htext.symm.trans htext') with ⟨m, rfl, -⟩ | ⟨m, rfl, rfl⟩
  · exact ⟨m, before, after', htext', rfl, rfl⟩
  · rw [byteSize_append] at hle
    have hm : m = [] := eq_nil_of_byteSize_eq_zero (by omega)
    subst hm
    exact ⟨[], before', after, by simpa using htext', by simp, by simp⟩

end Text

end StyleRules
