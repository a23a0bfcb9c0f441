import StyleRules.Location

namespace StyleRules

/-- The replacement of a stretch of a text, in offsets of the text before any edit. -/
structure Edit where
  offset : Nat
  length : Nat
  replacement : Text
  deriving DecidableEq, Repr

/-- The record that a rule changed a file at a location. -/
structure Correction where
  ruleIdentifier : Text
  ruleName : Text
  location : Location
  deriving DecidableEq, Repr

namespace Edit

/-- The offset right after the stretch. -/
def stop (e : Edit) : Nat := e.offset + e.length

/-- An edit whose bounds are known to be numbers; neither may be negative. -/
def ofBounds (offset length : Int) (replacement : Text) : Reading Edit :=
  let part (name : String) (n : Int) : Reading Nat :=
    Reading.under name.toList (if n < 0 then Reading.fault .tooSmall else .ok n.toNat)
  Reading.both (fun o l => ⟨o, l, replacement⟩) (part "offset" offset) (part "length" length)

def ofValue (v : Value) : Reading Edit :=
  match v with
  | .map fields =>
    let natural (v : Value) : Reading Nat := (Reading.atLeast 0 v).map (·.val)
    Reading.both (fun (b : Nat × Nat) r => ⟨b.1, b.2, r⟩)
      (Reading.both Prod.mk
        (Reading.required fields "offset".toList natural)
        (Reading.optional fields "length".toList 0 natural))
      (Reading.required fields "replacement".toList Reading.text)
  | _ => Reading.fault .notAMapping

/-- The text after one edit; a stretch beyond the end of the text counts as far as there is
text. -/
def apply (text : Text) (e : Edit) : Text :=
  text.take e.offset ++ e.replacement ++ text.drop e.stop

/-- The first edit starts later, or as early and reaches as far. -/
def notBefore (a b : Edit) : Bool :=
  b.offset < a.offset || (b.offset == a.offset && b.stop ≤ a.stop)

/-- The edits from the last stretch to the first; equal stretches keep their order. -/
def fromLast (edits : List Edit) : List Edit := sortBy notBefore edits

/-- Keeps each allowed edit that ends no later than the one kept before it starts, last to first. -/
def keep {α : Type} (allowed : Edit → Option α) (limit : Option Nat) :
    List Edit → List (Edit × α)
  | [] => []
  | e :: rest =>
    match allowed e with
    | none => keep allowed limit rest
    | some a =>
      if limit.all (e.stop ≤ ·) then (e, a) :: keep allowed (some e.offset) rest
      else keep allowed limit rest

/-- Makes edits one after the other. -/
def applyAll (text : Text) (edits : List Edit) : Text := edits.foldl apply text

end Edit

namespace Correction

def toText (c : Correction) : Text :=
  c.location.toText ++ " Corrected ".toList ++ c.ruleName

end Correction

end StyleRules
