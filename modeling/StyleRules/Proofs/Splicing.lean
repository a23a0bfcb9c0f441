import StyleRules.Edit
import Mathlib.Data.List.Basic

namespace StyleRules

namespace Edit

/-- What edits put in at an offset, in their order. -/
def insertedAt (edits : List Edit) (offset : Nat) : Text :=
  (edits.filter fun e => e.offset = offset).flatMap (·.replacement)

/-- Whether an edit takes away the character at an offset. -/
def takesAway (e : Edit) (offset : Nat) : Bool := e.offset ≤ offset && offset < e.stop

/-- Splices edits into a text whose first character stands at `offset`: at every offset stands
what the edits put in there, then the character itself if no edit takes it away. -/
def spliceFrom (edits : List Edit) (offset : Nat) : Text → Text
  | [] => insertedAt edits offset
  | c :: rest =>
    insertedAt edits offset ++ ((if edits.any (·.takesAway offset) then [] else [c])
      ++ spliceFrom edits (offset + 1) rest)

/-- The text with all edits made at once. -/
def splice (text : Text) (edits : List Edit) : Text := spliceFrom edits 0 text

theorem offset_le_stop (e : Edit) : e.offset ≤ e.stop := Nat.le_add_right _ _

theorem insertedAt_of_forall_ne {edits : List Edit} {offset : Nat}
    (h : ∀ e ∈ edits, e.offset ≠ offset) : insertedAt edits offset = [] := by
  have hf : (edits.filter fun e => e.offset = offset) = [] := by
    apply List.filter_eq_nil_iff.mpr
    intro e he
    simpa using h e he
  simp [insertedAt, hf]

/-- Splicing copies what stands before the first edit. -/
theorem spliceFrom_eq_take_append {edits : List Edit} (offset n : Nat) (text : Text)
    (h : ∀ e ∈ edits, offset + n ≤ e.offset) (hn : n ≤ text.length) :
    spliceFrom edits offset text =
      text.take n ++ spliceFrom edits (offset + n) (text.drop n) := by
  induction n generalizing offset text with
  | zero => simp
  | succ n ih =>
    cases text with
    | nil => simp at hn
    | cons c rest =>
      have hi : insertedAt edits offset = [] := by
        apply insertedAt_of_forall_ne
        intro e he
        have := h e he
        omega
      have ht : edits.any (·.takesAway offset) = false := by
        apply List.any_eq_false.mpr
        intro e he
        have := h e he
        simp only [takesAway, Bool.and_eq_true, decide_eq_true_eq]
        omega
      have hr := ih (offset + 1) rest
        (fun e he => by have := h e he; omega) (by simpa using hn)
      simp [spliceFrom, hi, ht, hr, show offset + 1 + n = offset + (n + 1) by omega]

/-- An edit that ends before the offset, and does not start at it, changes nothing from there
on. -/
theorem spliceFrom_cons_of_stop_le {e : Edit} (edits : List Edit) (offset : Nat) (text : Text)
    (hs : e.stop ≤ offset) (ho : e.offset < offset) :
    spliceFrom (e :: edits) offset text = spliceFrom edits offset text := by
  induction text generalizing offset with
  | nil => simp [spliceFrom, insertedAt, Nat.ne_of_lt ho]
  | cons c rest ih =>
    have ht : e.takesAway offset = false := by
      simp only [takesAway, Bool.and_eq_false_iff, decide_eq_false_iff_not]
      omega
    have hr := ih (offset + 1) (by omega) (by omega)
    simp only [spliceFrom, hr, List.any_cons, ht, Bool.false_or]
    simp [insertedAt, Nat.ne_of_lt ho]

/-- Characters that an edit takes away leave nothing behind. -/
theorem spliceFrom_within {e : Edit} {edits : List Edit} (offset n : Nat) (text : Text)
    (h : ∀ a ∈ edits, e.stop ≤ a.offset) (ho : e.offset < offset) (hn : offset + n = e.stop)
    (hlen : n ≤ text.length) :
    spliceFrom (e :: edits) offset text = spliceFrom edits e.stop (text.drop n) := by
  induction n generalizing offset text with
  | zero =>
    have hs : offset = e.stop := by omega
    subst hs
    simpa using spliceFrom_cons_of_stop_le edits e.stop text (Nat.le_refl _) ho
  | succ n ih =>
    cases text with
    | nil => simp at hlen
    | cons c rest =>
      have hi : insertedAt (e :: edits) offset = [] := by
        apply insertedAt_of_forall_ne
        intro a ha
        rcases List.mem_cons.mp ha with rfl | ha
        · omega
        · have := h a ha
          omega
      have ht : e.takesAway offset = true := by
        simp only [takesAway, Bool.and_eq_true, decide_eq_true_eq]
        omega
      have hr := ih (offset + 1) rest (by omega) (by omega) (by simpa using hlen)
      simp [spliceFrom, hi, ht, hr]

/-- At its own offset an edit puts in its replacement and takes away its stretch. -/
theorem spliceFrom_cons_at {e : Edit} {edits : List Edit} (text : Text)
    (h : ∀ a ∈ edits, e.stop ≤ a.offset) (hlen : e.length ≤ text.length) :
    spliceFrom (e :: edits) e.offset text =
      e.replacement ++ spliceFrom edits e.stop (text.drop e.length) := by
  have hi : insertedAt (e :: edits) e.offset = e.replacement ++ insertedAt edits e.offset := by
    simp [insertedAt]
  by_cases hz : e.length = 0
  · have hs : e.stop = e.offset := by simp [stop, hz]
    rw [hs, hz, List.drop_zero]
    cases text with
    | nil => simp [spliceFrom, hi]
    | cons c rest =>
      have ht : e.takesAway e.offset = false := by simp [takesAway, hs]
      have hr := spliceFrom_cons_of_stop_le edits (e.offset + 1) rest (by omega)
        (Nat.lt_succ_self e.offset)
      simp [spliceFrom, hi, ht, hr]
  · have hlt : e.offset < e.stop := by simp only [stop]; omega
    have he : insertedAt edits e.offset = [] := by
      apply insertedAt_of_forall_ne
      intro a ha
      have := h a ha
      omega
    cases text with
    | nil => simp at hlen; omega
    | cons c rest =>
      have ht : e.takesAway e.offset = true := by simp [takesAway, hlt]
      obtain ⟨n, hn⟩ := Nat.exists_eq_succ_of_ne_zero hz
      have hr := spliceFrom_within (e.offset + 1) n rest h (Nat.lt_succ_self e.offset)
        (by simp only [stop]; omega) (by simpa [hn] using hlen)
      simp [spliceFrom, hi, he, ht, hr, hn]

/-- To splice in one more edit before all others is to make it in the spliced text. -/
theorem splice_cons {e : Edit} {edits : List Edit} {text : Text}
    (h : ∀ a ∈ edits, e.stop ≤ a.offset) (hlen : e.stop ≤ text.length) :
    splice text (e :: edits) = apply (splice text edits) e := by
  have hos := offset_le_stop e
  have hbefore : splice text (e :: edits) =
      text.take e.offset ++ spliceFrom (e :: edits) e.offset (text.drop e.offset) := by
    have later : ∀ a ∈ e :: edits, 0 + e.offset ≤ a.offset := by
      intro a ha
      rcases List.mem_cons.mp ha with rfl | ha
      · omega
      · have := h a ha
        omega
    simpa [splice] using spliceFrom_eq_take_append 0 e.offset text later (by omega)
  have hothers : splice text edits =
      text.take e.stop ++ spliceFrom edits e.stop (text.drop e.stop) := by
    simpa [splice] using spliceFrom_eq_take_append 0 e.stop text (by simpa using h) hlen
  have hat := spliceFrom_cons_at (text.drop e.offset) h (by
    simp only [stop] at hlen
    simp only [List.length_drop]
    omega)
  rw [hbefore, hat, apply, hothers]
  have htake : (text.take e.stop).take e.offset = text.take e.offset := by
    rw [List.take_take, Nat.min_eq_left hos]
  have hl : (text.take e.stop).length = e.stop := List.length_take_of_le hlen
  rw [List.take_append_of_le_length (by omega), htake, List.drop_append, hl]
  simp [List.drop_drop, stop]

theorem spliceFrom_nil (offset : Nat) (text : Text) : spliceFrom [] offset text = text := by
  induction text generalizing offset with
  | nil => rfl
  | cons c rest ih => simp [spliceFrom, insertedAt, ih]

/-- Edits that do not overlap, made from the last to the first, are spliced in. -/
theorem applyAll_reverse_eq_splice {edits : List Edit} {text : Text}
    (apart : edits.Pairwise fun a b => a.stop ≤ b.offset)
    (inside : ∀ e ∈ edits, e.stop ≤ text.length) :
    applyAll text edits.reverse = splice text edits := by
  induction edits with
  | nil => exact (spliceFrom_nil 0 text).symm
  | cons e edits ih =>
    have ha := List.pairwise_cons.mp apart
    have hr := ih ha.2 (fun a hm => inside a (List.mem_cons_of_mem e hm))
    rw [splice_cons ha.1 (inside e (by simp)), ← hr]
    simp [applyAll]

end Edit

end StyleRules
