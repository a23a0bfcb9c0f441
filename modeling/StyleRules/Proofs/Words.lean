import StyleRules.Text.Blank
import StyleRules.Text.Words

namespace StyleRules

namespace Text

/-- No end of the needle, the needle itself among them, can be read where the text starts. -/
def Foreign : Text → Text → Prop
  | [], _ => True
  | c :: needle, text => startsWith (c :: needle) text = false ∧ Foreign needle text

theorem foreign_cons {needle : Text} {x : Char} (text : Text) (h : x ∉ needle) :
    Foreign needle (x :: text) := by
  induction needle with
  | nil => trivial
  | cons c needle ih =>
    simp only [List.mem_cons, not_or] at h
    refine ⟨?_, ih h.2⟩
    simp [startsWith, List.isPrefixOf, Ne.symm h.1]

/-- Whether a needle starts a text does not depend on what is foreign to it. -/
theorem startsWith_append_of_foreign {needle after : Text} (text : Text)
    (h : Foreign needle after) : startsWith needle (text ++ after) = startsWith needle text := by
  induction text generalizing needle with
  | nil =>
    cases needle with
    | nil => rfl
    | cons c needle => exact h.1
  | cons a text ih =>
    cases needle with
    | nil => rfl
    | cons c needle =>
      have hrest := ih h.2
      simp only [startsWith] at hrest
      simp [startsWith, List.isPrefixOf, hrest]

theorem startsWith_append (needle text : Text) : startsWith needle (needle ++ text) = true :=
  List.isPrefixOf_iff_prefix.mpr (List.prefix_append needle text)

theorem startsWith_nil {needle : Text} (hne : needle ≠ []) : startsWith needle [] = false := by
  cases needle with
  | nil => exact absurd rfl hne
  | cons c needle => rfl

theorem startsWith_of_not_mem {needle : Text} {x : Char} (rest : Text) (hne : needle ≠ [])
    (hx : x ∉ needle) : startsWith needle (x :: rest) = false := by
  cases needle with
  | nil => exact absurd rfl hne
  | cons a needle =>
    have ha : a ≠ x := fun ha => hx (by simp [ha])
    simp [startsWith, List.isPrefixOf, ha]

theorem takeWhile_append_of_head {α : Type} {p : α → Bool} {after : List α} (text : List α)
    (h : ∀ c ∈ after.head?, p c = false) : (text ++ after).takeWhile p = text.takeWhile p := by
  induction text with
  | nil =>
    cases after with
    | nil => rfl
    | cons c rest => simp [h c rfl]
  | cons c text ih =>
    rw [List.cons_append, List.takeWhile_cons, List.takeWhile_cons, ih]

theorem dropWhile_append_of_head {α : Type} {p : α → Bool} {after : List α} (text : List α)
    (h : ∀ c ∈ after.head?, p c = false) :
    (text ++ after).dropWhile p = text.dropWhile p ++ after := by
  induction text with
  | nil =>
    cases after with
    | nil => rfl
    | cons c rest => simp [h c rfl]
  | cons c text ih =>
    rw [List.cons_append, List.dropWhile_cons, List.dropWhile_cons, ih]
    split
    · rfl
    · rfl

/-- The text does not end within a word. -/
def AtBoundary (text : Text) : Prop := ∀ c ∈ text.getLast?, isWordChar c = false

theorem AtBoundary.of_suffix {a b : Text} (h : AtBoundary b) (hs : a <:+ b) : AtBoundary a := by
  obtain ⟨before, rfl⟩ := hs
  intro c hc
  apply h c
  rw [List.getLast?_append, Option.mem_def.mp hc]
  rfl

theorem AtBoundary.tail {c : Char} {text : Text} (h : AtBoundary (c :: text)) : AtBoundary text :=
  h.of_suffix (List.suffix_cons c text)

theorem atBoundary_nil : AtBoundary [] := by simp [AtBoundary]

theorem atBoundary_concat {c : Char} (text : Text) (h : isWordChar c = false) :
    AtBoundary (text ++ [c]) := by
  intro a ha
  rw [List.getLast?_concat] at ha
  cases Option.mem_some.mp ha
  exact h

/-- A text that is not empty and does not end within a word is no word. -/
theorem AtBoundary.exists_not_word {text : Text} (h : AtBoundary text) (hne : text ≠ []) :
    ∃ c ∈ text, isWordChar c = false :=
  ⟨text.getLast hne, List.getLast_mem hne, h _ (List.getLast?_eq_some_getLast hne)⟩

theorem takeWhile_append_of_exists {p : Char → Bool} {text : Text} (after : Text)
    (h : ∃ c ∈ text, p c = false) :
    (text ++ after).takeWhile p = text.takeWhile p ∧
      (text ++ after).dropWhile p = text.dropWhile p ++ after ∧ text.dropWhile p ≠ [] := by
  induction text with
  | nil => simp at h
  | cons a text ih =>
    cases ha : p a with
    | false => simp [ha]
    | true =>
      have hrest : ∃ c ∈ text, p c = false := by
        obtain ⟨c, hc, hp⟩ := h
        rcases List.mem_cons.mp hc with rfl | hc
        · rw [ha] at hp
          cases hp
        · exact ⟨c, hc, hp⟩
      obtain ⟨htake, hdrop, hne⟩ := ih hrest
      simp [ha, htake, hdrop, hne]

/-- Words do not reach over a boundary. -/
theorem words_append {a : Text} (b : Text) (h : AtBoundary a) :
    words (a ++ b) = words a ++ words b := by
  induction a with
  | nil => rfl
  | cons c a ih =>
    have hrest := ih h.tail
    rw [List.cons_append, words, words, hrest]
    cases hc : isWordChar c with
    | false => simp
    | true =>
      cases a with
      | nil =>
        have := h c rfl
        rw [hc] at this
        cases this
      | cons x a =>
        cases hw : words (x :: a) with
        | cons word further => cases hx : isWordChar x <;> simp [hx]
        | nil =>
          have hx : isWordChar x = false := by
            apply Bool.eq_false_iff.mpr
            intro hx
            rw [words, if_pos hx] at hw
            split at hw
            · split at hw
              · cases hw
              · cases hw
            · cases hw
          cases words b with
          | nil => simp
          | cons word further => simp [hx]

end Text

end StyleRules
