import StyleRules.Text.Basic

namespace StyleRules

/-- A file's contents are a list of bytes. -/
abbrev Bytes := List UInt8

namespace Text

def encode (text : Text) : Bytes := text.flatMap String.utf8EncodeChar

def byteSize : Text → Nat
  | [] => 0
  | c :: rest => c.utf8Size + byteSize rest

/-- The text that the bytes encode, if they are well-formed UTF-8. -/
def decode? (bytes : Bytes) : Option Text := bytes.toByteArray.utf8Decode?.map Array.toList

theorem byteSize_append (text more : Text) :
    byteSize (text ++ more) = byteSize text + byteSize more := by
  induction text with
  | nil => simp [byteSize]
  | cons c rest ih => simp [byteSize, ih, Nat.add_assoc]

/-- The size of a text is the number of the bytes that encode it. -/
theorem length_encode (text : Text) : (encode text).length = byteSize text := by
  induction text with
  | nil => rfl
  | cons c rest ih => simp_all [encode, byteSize]

/-- Decoding reads back every encoded text. -/
theorem decode?_encode (text : Text) : decode? (encode text) = some text := by
  have h := @List.utf8Decode?_utf8Encode text
  simp only [List.utf8Encode] at h
  simp [decode?, encode, h]

end Text

end StyleRules
