import StyleRules.Text.IdentifierChar
import StyleRules.Value

namespace StyleRules

/-- A text, with markers where edits are expected, and what correcting it must produce. -/
structure CorrectionExample where
  before : Text
  after : Text
  deriving DecidableEq, Repr

/-- What a rule declares about itself. -/
structure Description where
  identifier : Text
  name : Text
  summary : Text
  nonTriggering : List Text := []
  triggering : List Text := []
  corrections : List CorrectionExample := []
  deriving DecidableEq, Repr

namespace CorrectionExample

def ofValue : Value → Reading CorrectionExample
  | .map fields =>
    Reading.both CorrectionExample.mk
      (Reading.required fields "before".toList Reading.text)
      (Reading.required fields "after".toList Reading.text)
  | _ => Reading.fault .notAMapping

end CorrectionExample

namespace Description

/-- Reads an identifier: at least one character, and identifier characters only. -/
def readIdentifier (v : Value) : Reading Text :=
  match v.toText with
  | .ok t =>
    if t ≠ [] ∧ t.all Text.isIdentifierChar then .ok t else Reading.fault .pattern
  | .error f => Reading.fault f

def ofValue : Value → Reading Description
  | .map fields =>
    let texts := Reading.sequence Reading.text
    Reading.both
      (fun (a : Text × Text × Text) (b : List Text × List Text × List CorrectionExample) =>
        ⟨a.1, a.2.1, a.2.2, b.1, b.2.1, b.2.2⟩)
      (Reading.both Prod.mk
        (Reading.required fields "identifier".toList readIdentifier)
        (Reading.both Prod.mk
          (Reading.required fields "name".toList Reading.text)
          (Reading.required fields "description".toList Reading.text)))
      (Reading.both Prod.mk
        (Reading.optional fields "non_triggering_examples".toList [] texts)
        (Reading.both Prod.mk
          (Reading.optional fields "triggering_examples".toList [] texts)
          (Reading.optional fields "corrections".toList []
            (Reading.sequence CorrectionExample.ofValue))))
  | _ => Reading.fault .notAMapping

end Description

end StyleRules
