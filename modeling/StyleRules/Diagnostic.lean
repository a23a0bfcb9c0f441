import StyleRules.Location

namespace StyleRules

/-- How severe a report is. -/
inductive Severity where
  | warning
  | error
  deriving DecidableEq, Repr

namespace Severity

def name : Severity → Text
  | warning => "warning".toList
  | error => "error".toList

def ofValue : Value → Reading Severity
  | .text t =>
    if t = warning.name then .ok warning
    else if t = error.name then .ok error
    else Reading.fault .notAMember
  | _ => Reading.fault .notAMember

end Severity

/-- One violation of a rule. -/
structure Diagnostic where
  ruleIdentifier : Text
  ruleName : Text
  severity : Severity
  message : Text
  location : Location
  deriving DecidableEq, Repr

namespace Diagnostic

/-- The written form without the location. -/
def headline (d : Diagnostic) : Text :=
  d.severity.name ++ ": ".toList ++ d.ruleName ++ " Violation: ".toList ++ d.message
    ++ " (".toList ++ d.ruleIdentifier ++ ")".toList

def toText (d : Diagnostic) : Text := d.location.toText ++ ": ".toList ++ d.headline

def ofParts (ruleIdentifier ruleName severity message : Value) (location : Location) :
    Reading Diagnostic :=
  Reading.both (fun (a : Text × Text) (b : Severity × Text) => ⟨a.1, a.2, b.1, b.2, location⟩)
    (Reading.both Prod.mk
      (Reading.under "rule_identifier".toList (Reading.text ruleIdentifier))
      (Reading.under "rule_name".toList (Reading.text ruleName)))
    (Reading.both Prod.mk
      (Reading.under "severity".toList (Severity.ofValue severity))
      (Reading.under "message".toList (Reading.text message)))

end Diagnostic

end StyleRules
