import StyleRules.Value

namespace StyleRules

/-- A property that rules are checked for. -/
inductive Check where
  | configuration
  | nonTriggering
  | unlocalizedTriggering
  | localizedTriggering
  | commentContext
  | literalContext
  | disableDirective
  | corrections
  | correctionStability
  | disabledCorrections
  deriving DecidableEq, Repr

namespace Check

def name : Check → Text
  | configuration => "configuration".toList
  | nonTriggering => "non_triggering".toList
  | unlocalizedTriggering => "unlocalized_triggering".toList
  | localizedTriggering => "localized_triggering".toList
  | commentContext => "comment_context".toList
  | literalContext => "string_context".toList
  | disableDirective => "disable_directive".toList
  | corrections => "corrections".toList
  | correctionStability => "correction_stability".toList
  | disabledCorrections => "disabled_corrections".toList

def all : List Check :=
  [configuration, nonTriggering, unlocalizedTriggering, localizedTriggering, commentContext,
    literalContext, disableDirective, corrections, correctionStability, disabledCorrections]

def ofName? (t : Text) : Option Check := all.find? (·.name = t)

def ofValue : Value → Reading Check
  | .text t => match ofName? t with
    | some c => .ok c
    | none => Reading.fault .notAMember
  | _ => Reading.fault .notAMember

end Check

/-- Whether the rule misbehaved, its surroundings failed, or it could not be built at all. -/
inductive FailureKind where
  | assertion
  | infrastructure
  | construction
  deriving DecidableEq, Repr

namespace FailureKind

def name : FailureKind → Text
  | assertion => "assertion".toList
  | infrastructure => "infrastructure".toList
  | construction => "construction".toList

def ofValue : Value → Reading FailureKind
  | .text t =>
    match [assertion, infrastructure, construction].find? (·.name = t) with
    | some k => .ok k
    | none => Reading.fault .notAMember
  | _ => Reading.fault .notAMember

end FailureKind

/-- A property that did not hold. -/
structure Failure where
  check : Check
  kind : FailureKind := .assertion
  message : Text
  /-- The text in question with carets or markers. -/
  context : Text := []
  deriving DecidableEq, Repr

namespace Failure

def toText (f : Failure) : Text :=
  '[' :: f.check.name ++ "] ".toList ++ f.message
    ++ (if f.context = [] then [] else '\n' :: f.context)

def ofValue : Value → Reading Failure
  | .map fields =>
    Reading.both (fun (a : Check × FailureKind) (b : Text × Text) => ⟨a.1, a.2, b.1, b.2⟩)
      (Reading.both Prod.mk
        (Reading.required fields "check".toList Check.ofValue)
        (Reading.optional fields "kind".toList .assertion FailureKind.ofValue))
      (Reading.both Prod.mk
        (Reading.required fields "message".toList Reading.text)
        (Reading.optional fields "context".toList [] Reading.text))
  | _ => Reading.fault .notAMapping

end Failure

/-- Everything found while verifying one rule. -/
structure Report where
  rule : Text
  failures : List Failure := []
  deriving DecidableEq, Repr

namespace Report

def passed (r : Report) : Bool := r.failures.isEmpty

def failuresFor (r : Report) (c : Check) : List Failure := r.failures.filter (·.check = c)

/-- The report as text, with an empty line between its parts. -/
def summary (r : Report) : Text :=
  if r.passed then r.rule ++ ": all conformance checks passed".toList
  else
    let head := r.rule ++ ": ".toList ++ Text.ofNat r.failures.length
      ++ " conformance failure(s)".toList
    Text.join ['\n', '\n'] (head :: r.failures.map Failure.toText)

end Report

end StyleRules
