import StyleRules.Proofs.Positions
import StyleRules.Proofs.Spans

namespace StyleRules

namespace Text

theorem length_boundaries (offset : Nat) (text : Text) :
    (text.boundaries offset).length = text.length + 1 := by
  induction text generalizing offset with
  | nil => rfl
  | cons c rest ih => rw [boundaries, List.length_cons, List.length_cons, ih]

theorem getElem?_boundaries {offset k : Nat} {text : Text} (hk : k ≤ text.length) :
    (text.boundaries offset)[k]? = some (offset + byteSize (text.take k)) := by
  induction text generalizing offset k with
  | nil =>
    obtain rfl : k = 0 := Nat.le_zero.mp hk
    rfl
  | cons c rest ih =>
    cases k with
    | zero => rfl
    | succ k =>
      have hrest : k ≤ rest.length := Nat.le_of_succ_le_succ hk
      rw [boundaries, List.getElem?_cons_succ, ih hrest, List.take_succ_cons, byteSize]
      congr 1
      omega

theorem byteSize_eq_length_iff {text : Text} :
    byteSize text = text.length ↔ ∀ c ∈ text, (String.utf8EncodeChar c).length = 1 := by
  induction text with
  | nil => simp [byteSize]
  | cons c rest ih =>
    have hc := c.utf8Size_pos
    have hrest := length_le_byteSize rest
    rw [List.forall_mem_cons, ← ih, String.length_utf8EncodeChar, byteSize, List.length_cons]
    omega

end Text

namespace LineIndex

/-- The index of a text with the table of its boundaries, also where it could do without. -/
def withTable (text : Text) : LineIndex :=
  { ofText text with boundaries := some (text.boundaries 0) }

/-- The index of a text without a table. -/
def withoutTable (text : Text) : LineIndex := { ofText text with boundaries := none }

variable {text : Text} {k : Nat} {b : Int}

theorem ofText_eq_withTable_or (text : Text) :
    ofText text = withTable text ∨
      (ofText text = withoutTable text ∧ Text.byteSize text = text.length) := by
  by_cases hsingle : Text.byteSize text = text.length
  · right
    refine ⟨?_, hsingle⟩
    rw [withoutTable, ofText, if_pos hsingle]
  · left
    rw [withTable, ofText, if_neg hsingle]

theorem withTable_characterOffset?_eq_some_iff :
    (withTable text).characterOffset? b = some k ↔
      k ≤ text.length ∧ (Text.byteSize (text.take k) : Int) = b := by
  unfold characterOffset? withTable
  dsimp only
  constructor
  · intro h
    by_cases hb : b < 0
    · rw [if_pos hb] at h
      cases h
    · rw [if_neg hb] at h
      obtain ⟨hk, hfound, -⟩ := List.findIdx?_eq_some_iff_getElem.mp h
      have hle : k ≤ text.length := by
        rw [Text.length_boundaries] at hk
        omega
      have hentry := @Text.getElem?_boundaries 0 k text hle
      rw [List.getElem?_eq_getElem hk] at hentry
      have hsize := Option.some.inj hentry
      rw [beq_iff_eq] at hfound
      exact ⟨hle, by omega⟩
  · rintro ⟨hk, rfl⟩
    have hfind := Text.boundaries_find (text.take k) (text.drop k) 0
    rw [List.take_append_drop, List.length_take, Nat.min_eq_left hk, Nat.zero_add] at hfind
    rw [if_neg (by omega)]
    exact hfind

theorem withoutTable_characterOffset?_eq_some_iff :
    (withoutTable text).characterOffset? b = some k ↔ k ≤ text.length ∧ (k : Int) = b := by
  have hsize : (withoutTable text).size = text.length := rfl
  unfold characterOffset?
  change (if 0 ≤ b ∧ b ≤ (withoutTable text).size then some b.toNat else none) = some k ↔ _
  rw [hsize]
  constructor
  · intro h
    by_cases hb : 0 ≤ b ∧ b ≤ text.length
    · rw [if_pos hb] at h
      have hk := Option.some.inj h
      omega
    · rw [if_neg hb] at h
      cases h
  · rintro ⟨hk, rfl⟩
    rw [if_pos (by omega), Int.toNat_natCast]

theorem byteSize_take_of_single (hsingle : Text.byteSize text = text.length)
    (hk : k ≤ text.length) : Text.byteSize (text.take k) = k := by
  have hbefore := Text.length_le_byteSize (text.take k)
  have hafter := Text.length_le_byteSize (text.drop k)
  have hsplit := Text.byteSize_append (text.take k) (text.drop k)
  rw [List.take_append_drop] at hsplit
  rw [List.length_take] at hbefore
  rw [List.length_drop] at hafter
  omega

theorem withoutTable_of_single (hsingle : Text.byteSize text = text.length) :
    (withoutTable text).characterOffset? b = some k ↔
      k ≤ text.length ∧ (Text.byteSize (text.take k) : Int) = b := by
  rw [withoutTable_characterOffset?_eq_some_iff]
  apply and_congr_right
  intro hk
  rw [byteSize_take_of_single hsingle hk]

theorem characterOffset?_eq_some_iff :
    (ofText text).characterOffset? b = some k ↔
      k ≤ text.length ∧ (Text.byteSize (text.take k) : Int) = b := by
  rcases ofText_eq_withTable_or text with htable | ⟨htable, hsingle⟩
  · rw [htable]
    exact withTable_characterOffset?_eq_some_iff
  · rw [htable]
    exact withoutTable_of_single hsingle

theorem characterOffset?_eq_none_iff :
    (ofText text).characterOffset? b = none ↔
      ∀ k ≤ text.length, (Text.byteSize (text.take k) : Int) ≠ b := by
  rw [Option.eq_none_iff_forall_ne_some]
  simp only [ne_eq, characterOffset?_eq_some_iff, not_and]

theorem withTable_characterOffset? (text : Text) :
    (withTable text).characterOffset? = (ofText text).characterOffset? := by
  funext b
  apply Option.ext
  intro k
  rw [withTable_characterOffset?_eq_some_iff, characterOffset?_eq_some_iff]

/-- Doing without the table gives the answers of the table only where each character takes one
byte. -/
theorem withoutTable_characterOffset?_iff :
    (withoutTable text).characterOffset? = (ofText text).characterOffset? ↔
      Text.byteSize text = text.length := by
  constructor
  · intro h
    -- At the length of the text the two can agree only if no character before takes more bytes.
    have hend : (withoutTable text).characterOffset? text.length = some text.length :=
      withoutTable_characterOffset?_eq_some_iff.mpr ⟨Nat.le_refl _, rfl⟩
    rw [h] at hend
    have hsize := (characterOffset?_eq_some_iff.mp hend).2
    rw [List.take_length] at hsize
    omega
  · intro hsingle
    funext b
    apply Option.ext
    intro k
    rw [withoutTable_of_single hsingle, characterOffset?_eq_some_iff]

end LineIndex

namespace SourceFile

theorem placeByte_take {f : SourceFile} {k : Nat} (hk : k ≤ f.contents.length) :
    placeByte f.identifier (.ofText f.contents) (Text.byteSize (f.contents.take k)) =
      f.locate k := by
  rw [placeByte, LineIndex.characterOffset?_eq_some_iff.mpr ⟨hk, rfl⟩]
  rfl

/-- A byte offset is a character offset exactly if the characters before it, and only they, are
encoded by that many bytes. -/
theorem byteOffsets_invert_encoding (f : SourceFile) :
    let text := f.contents
    let index := LineIndex.ofText text
    (∀ (b : Int) (k : Nat), index.characterOffset? b = some k ↔
      k ≤ text.length ∧ ((Text.encode (text.take k)).length : Int) = b) ∧
    (∀ b : Int, index.characterOffset? b = none ↔
      ∀ k ≤ text.length, ((Text.encode (text.take k)).length : Int) ≠ b) ∧
    (LineIndex.withTable text).characterOffset? = index.characterOffset? ∧
    ((LineIndex.withoutTable text).characterOffset? = index.characterOffset? ↔
      ∀ c ∈ text, (String.utf8EncodeChar c).length = 1) ∧
    (index.boundaries = none ↔ ∀ c ∈ text, (String.utf8EncodeChar c).length = 1) ∧
    ∀ k ≤ text.length,
      placeByte f.identifier index (Text.encode (text.take k)).length = f.locate k := by
  intro text index
  simp only [Text.length_encode, ← Text.byteSize_eq_length_iff]
  refine ⟨fun _ _ => LineIndex.characterOffset?_eq_some_iff,
    fun _ => LineIndex.characterOffset?_eq_none_iff, LineIndex.withTable_characterOffset? text,
    LineIndex.withoutTable_characterOffset?_iff, ?_, fun _ => placeByte_take⟩
  have hboundaries : index.boundaries =
    if text.byteSize = text.length then none else some (text.boundaries 0) := rfl
  rw [hboundaries]
  split
  next h => exact iff_of_true rfl h
  next h => exact iff_of_false (Option.some_ne_none _) h

/-- Characters of one to four bytes: the offset behind the third, one within the last, and the place
behind the line break. -/
theorem byteOffsets_invert_encoding_mixed :
    let f : SourceFile := { contents := "aé\n€😀".toList }
    (LineIndex.ofText f.contents).characterOffset? 7 = some 4 ∧
      (LineIndex.ofText f.contents).characterOffset? 8 = none ∧
      (LineIndex.ofText f.contents).characterOffset? (-1) = none ∧
      placeByte none (.ofText f.contents) 7 = .point none 2 2 := by
  intro f
  obtain ⟨hfound, hnone, -, -, -, hplace⟩ := byteOffsets_invert_encoding f
  have hbytes : ((Text.encode (f.contents.take 4)).length : Int) = 7 := by decide
  refine ⟨(hfound 7 4).mpr ⟨by decide, hbytes⟩, (hnone 8).mpr (by decide),
    (hnone (-1)).mpr (by decide), ?_⟩
  have hlocated := hplace 4 (by decide)
  rw [hbytes] at hlocated
  exact hlocated

end SourceFile

end StyleRules
