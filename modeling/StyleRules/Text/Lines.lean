import StyleRules.Text.Utf8

namespace StyleRules

namespace Text

/-- The stretches between line breaks; there is one more of them than there are breaks. -/
def segments : Text → List Text
  | [] => [[]]
  | '\r' :: '\n' :: rest => [] :: segments rest
  | '\r' :: rest => [] :: segments rest
  | '\n' :: rest => [] :: segments rest
  | c :: rest =>
    match segments rest with
    | line :: lines => (c :: line) :: lines
    | [] => [[c]]

/-- The lines of a text; a break at its end opens no further line. -/
def splitLines (text : Text) : List Text :=
  let lines := segments text
  if 1 < lines.length ∧ lines.getLast? = some [] then lines.dropLast else lines

/-- The text with every line break spelled "\n". -/
def withLineFeeds : Text → Text
  | [] => []
  | '\r' :: '\n' :: rest => '\n' :: withLineFeeds rest
  | '\r' :: rest => '\n' :: withLineFeeds rest
  | c :: rest => c :: withLineFeeds rest

/-- The offsets right after each line break, where the text starts at `offset`. -/
def breakEnds (offset : Nat) : Text → List Nat
  | [] => []
  | '\r' :: '\n' :: rest => (offset + 2) :: breakEnds (offset + 2) rest
  | '\r' :: rest => (offset + 1) :: breakEnds (offset + 1) rest
  | '\n' :: rest => (offset + 1) :: breakEnds (offset + 1) rest
  | _ :: rest => breakEnds (offset + 1) rest

/-- The byte offset of every character boundary, both ends of the text included. -/
def boundaries (offset : Nat) : Text → List Nat
  | [] => [offset]
  | c :: rest => offset :: boundaries (offset + c.utf8Size) rest

end Text

/-- What is needed to place an offset in the lines of a text. -/
structure LineIndex where
  /-- Number of characters. -/
  size : Nat
  /-- Offset at which each line starts, ascending. -/
  starts : List Nat
  /-- The first line starts with the text. -/
  starts_head : starts.head? = some 0 := by rfl
  /-- Byte offset of each character boundary, ascending. It is left out where every character takes
  one byte, since a boundary is then its own byte offset. -/
  boundaries : Option (List Nat)
  deriving DecidableEq, Repr

namespace LineIndex

/-- The index of a text. -/
def ofText (text : Text) : LineIndex :=
  { size := text.length
    starts := 0 :: text.breakEnds 0
    boundaries := if text.byteSize = text.length then none else some (text.boundaries 0) }

/-- The character offset at which a byte offset lies, if it is a character boundary. -/
def characterOffset? (index : LineIndex) (byteOffset : Int) : Option Nat :=
  match index.boundaries with
  | none => if 0 ≤ byteOffset ∧ byteOffset ≤ index.size then some byteOffset.toNat else none
  | some boundaries =>
    if byteOffset < 0 then none else boundaries.findIdx? (· == byteOffset.toNat)

/-- Line and character of an offset, both counted from one. -/
def position? (index : LineIndex) (offset : Int) : Option (Nat × Nat) :=
  if offset < 0 ∨ index.size < offset then none
  else
    let passed := index.starts.takeWhile (· ≤ offset.toNat)
    some (passed.length, offset.toNat - passed.getLastD 0 + 1)

/-- Lines and characters of offsets count from one. -/
theorem one_le_of_position? {index : LineIndex} {offset : Int} {line character : Nat}
    (h : index.position? offset = some (line, character)) : 1 ≤ line ∧ 1 ≤ character := by
  unfold position? at h
  split at h
  next => cases h
  next =>
    obtain ⟨rfl, rfl⟩ := Prod.mk.inj (Option.some.inj h)
    obtain ⟨more, hstarts⟩ := List.head?_eq_some_iff.mp index.starts_head
    rw [hstarts]
    simp

end LineIndex

end StyleRules
