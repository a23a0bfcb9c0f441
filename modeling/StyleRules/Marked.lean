import StyleRules.Value

namespace StyleRules

/-- A text and the offsets that its markers stood at. -/
structure Marked where
  text : Text
  offsets : List Nat
  deriving DecidableEq, Repr

namespace Marked

/-- The marker of violations. -/
def violation : Text := ['↓']

/-- What can be wrong with the offsets of a marked text. -/
inductive Fault where
  | notAscending
  | outside
  deriving DecidableEq, Repr

def Fault.message : Fault → Text
  | .notAscending => "marker_offsets must be in ascending order".toList
  | .outside => "marker_offsets must fall within text".toList

/-- Whether every offset is at most the next one. -/
def ascending : List Int → Bool
  | a :: b :: rest => a ≤ b && ascending (b :: rest)
  | _ => true

/-- Pairs a text with offsets, which have to ascend and to fall within it. -/
def ofOffsets (text : Text) (offsets : List Int) : Except Fault Marked :=
  if !ascending offsets then .error .notAscending
  else if offsets.any fun o => o < 0 || text.length < o then .error .outside
  else .ok { text, offsets := offsets.map Int.toNat }

def hasMarkers (m : Marked) : Bool := !m.offsets.isEmpty

/-- Takes the markers out of a text whose first character stands at `offset`; `skip` characters
of a marker are still to be passed. -/
def stripFrom (marker : Text) (skip offset : Nat) : Text → Marked
  | [] => { text := [], offsets := [] }
  | c :: rest =>
    match skip with
    | k + 1 => stripFrom marker k offset rest
    | 0 =>
      if marker ≠ [] ∧ Text.startsWith marker (c :: rest) then
        let m := stripFrom marker (marker.length - 1) offset rest
        { m with offsets := offset :: m.offsets }
      else
        let m := stripFrom marker 0 (offset + 1) rest
        { m with text := c :: m.text }

/-- Takes every marker out of a text. An offset counts the characters before the marker that are
not part of markers, so adjacent markers share one. -/
def strip (text : Text) (marker : Text := violation) : Marked := stripFrom marker 0 0 text

/-- As many markers as offsets that equal `offset`. -/
def markersAt (marker : Text) (offsets : List Nat) (offset : Nat) : Text :=
  (List.replicate (offsets.count offset) marker).flatten

/-- Puts markers into a text whose first character stands at `offset`. -/
def restoreFrom (marker : Text) (offsets : List Nat) (offset : Nat) : Text → Text
  | [] => markersAt marker offsets offset
  | c :: rest =>
    markersAt marker offsets offset ++ c :: restoreFrom marker offsets (offset + 1) rest

/-- The text with its markers put back. -/
def restore (m : Marked) (marker : Text := violation) : Text :=
  restoreFrom marker m.offsets 0 m.text

end Marked

end StyleRules
