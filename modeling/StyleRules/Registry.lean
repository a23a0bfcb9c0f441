import StyleRules.Rule.NoneComparison
import StyleRules.Rule.WeakDelegate

namespace StyleRules

/-- Kinds of rules, in the order in which they were registered. -/
structure Registry where
  kinds : List RuleKind := []

namespace Registry

/-- The kind registered under an identifier. -/
def get? (r : Registry) (identifier : Text) : Option RuleKind :=
  r.kinds.find? (·.identifier = identifier)

/-- The kind registered under an identifier, or the fault that there is none. -/
def get (r : Registry) (identifier : Text) : Except Fault RuleKind :=
  match r.get? identifier with
  | some k => .ok k
  | none => .error (.unknownRule identifier)

/-- Registers a kind. An identifier stays with the kind first registered under it; to register
that kind again changes nothing. -/
def register (r : Registry) (k : RuleKind) : Except Fault Registry :=
  match r.get? k.identifier with
  | some found => if found.key = k.key then .ok r else .error (.ruleTaken k.identifier)
  | none => .ok { kinds := r.kinds ++ [k] }

def ofKinds (kinds : List RuleKind) : Except Fault Registry :=
  kinds.foldlM register {}

def sorted (r : Registry) : List RuleKind :=
  sortBy (fun a b => compare a.identifier b.identifier != .gt) r.kinds

def identifiers (r : Registry) : List Text :=
  sortBy (fun a b => compare a b != .gt) (r.kinds.map (·.identifier))

def size (r : Registry) : Nat := r.kinds.length

/-- The rules that come with the tool. -/
def standard : Registry := { kinds := [.noneComparison, .weakDelegate] }

end Registry

end StyleRules
