import StyleRules.Registry
import StyleRules.Text.Decimal

namespace StyleRules

/-- A selection of rules. -/
structure Configuration where
  /-- If present, the only rules that may run. -/
  onlyRules : Option (List Text) := none
  /-- Rules that never run. -/
  disabledRules : List Text := []
  /-- Rules built from options; of two rules of one identifier the later one counts. -/
  configured : List Rule := []
  registry : Registry := .standard

namespace Configuration

/-- The configuration under which exactly one rule runs. -/
def isolating (identifier : Text) (options : Value := .null)
    (registry : Registry := .standard) : Except Fault Configuration := do
  let kind ← registry.get identifier
  let rule ← kind.configure options
  return { onlyRules := some [identifier], configured := [rule], registry }

/-- The items of a value: those of a list, the characters of a text, the bytes of bytes, the keys of
a mapping, and what another value has. -/
def itemsOf : Value → Except Fault (List Value)
  | .list items => .ok items
  | .text t => .ok (t.map fun c => .text [c])
  | .bytes b => .ok (b.map fun x => .int x.toNat)
  | .map entries => .ok (entries.map (·.1))
  | .other _ _ (some items) => .ok items
  | _ => .error .noItems

/-- The keys of a mapping that name no rule. -/
def reservedKeys : List Text := ["only_rules", "disabled_rules"].map String.toList

def showByte (quote : Char) (b : UInt8) : Text :=
  let c := Char.ofNat b.toNat
  if c = quote ∨ c = '\\' then ['\\', c]
  else if c = '\t' then "\\t".toList
  else if c = '\n' then "\\n".toList
  else if c = '\r' then "\\r".toList
  else if b < 0x20 ∨ 0x7f ≤ b then
    "\\x".toList ++ [Nat.digitChar (b.toNat / 16), Nat.digitChar (b.toNat % 16)]
  else [c]

/-- Bytes within quotes: double ones if there are single quotes among them, but no double ones. -/
def showBytes (b : Bytes) : Text :=
  let quote := if 0x27 ∈ b ∧ 0x22 ∉ b then '"' else '\''
  'b' :: quote :: b.flatMap (showByte quote) ++ [quote]

/-- How a key is shown in a warning. -/
def showKey : Value → Text
  | .text t => t
  | .int n => Text.ofInt n
  | .bool true => "True".toList
  | .bool false => "False".toList
  | .null => "None".toList
  | .decimal m e => Text.ofDecimal m e
  | .endless => "inf".toList
  | .bytes b => showBytes b
  | .other _ shown _ => shown
  | .list _ | .map _ => []

/-- The warning about options for a rule that is not registered. -/
def unknownRuleWarning (key : Value) : Text :=
  "Ignoring configuration for unknown rule '".toList ++ showKey key ++ ['\'']

def isReserved : Value → Bool
  | .text t => t ∈ reservedKeys
  | _ => false

/-- The kind of rule that a key names. -/
def kindOf? (registry : Registry) : Value → Option RuleKind
  | .text t => registry.get? t
  | _ => none

/-- Builds the rules that a mapping has options for, and lists the warnings about the others. -/
def readRules (registry : Registry) :
    List (Value × Value) → Except Fault (List Rule × List Text)
  | [] => .ok ([], [])
  | (key, options) :: rest => do
    if isReserved key then readRules registry rest
    else
      match kindOf? registry key with
      | none =>
        let (rules, warnings) ← readRules registry rest
        return (rules, unknownRuleWarning key :: warnings)
      | some kind =>
        let rule ← kind.configure options
        let (rules, warnings) ← readRules registry rest
        return (rule :: rules, warnings)

/-- The items that a mapping lists for the rules that may not run; a void value lists none. -/
def disabledItems (entries : List (Value × Value)) : Except Fault (List Value) :=
  match Value.entry? "disabled_rules".toList entries with
  | none => .ok []
  | some v => if v.isVoid then .ok [] else itemsOf v

/-- The items that a mapping lists for the only rules that may run, if it says anything there. -/
def onlyItems (entries : List (Value × Value)) : Except Fault (Option (List Value)) :=
  match Value.entry? "only_rules".toList entries with
  | none | some .null => .ok none
  | some v => (itemsOf v).map some

/-- Reads the only rules that may run, if there is such a list, and the rules that may not: all
have to be texts. -/
def readNames (only : Option (List Value)) (disabled : List Value) :
    Reading (Option (List Text) × List Text) :=
  Reading.both Prod.mk
    (match only with
    | none => .ok none
    | some items =>
      Reading.under "only_rules".toList ((Reading.items Reading.text 0 items).map some))
    (Reading.under "disabled_rules".toList (Reading.items Reading.text 0 disabled))

/-- Reads a configuration from a mapping: the lists of rules that may run and that may not, and
options under the identifiers of rules. The warnings come with it. -/
def ofMapping (entries : List (Value × Value)) (registry : Registry := .standard) :
    Except Fault (Configuration × List Text) := do
  let disabled ← disabledItems entries
  let (configured, warnings) ← readRules registry entries
  let only ← onlyItems entries
  match readNames only disabled with
  | .error es => throw (.invalid "Configuration".toList es)
  | .ok (onlyRules, disabledRules) =>
    return ({ onlyRules, disabledRules, configured, registry }, warnings)

def isEnabled (c : Configuration) (identifier : Text) : Bool :=
  !(identifier ∈ c.disabledRules : Bool) && c.onlyRules.all (identifier ∈ ·)

def configured? (c : Configuration) (identifier : Text) : Option Rule :=
  c.configured.reverse.find? (·.identifier = identifier)

/-- The rule of a kind: as configured, else with its defaults. -/
def ruleOf (c : Configuration) (k : RuleKind) : Except Fault Rule :=
  match c.configured? k.identifier with
  | some r => .ok r
  | none => k.configure .null

def rules (c : Configuration) : Except Fault (List Rule) :=
  (c.registry.sorted.filter fun k => c.isEnabled k.identifier).mapM c.ruleOf

/-- The rules that run on files of a dialect. -/
def rulesFor (c : Configuration) (d : Dialect) : Except Fault (List Rule) :=
  c.rules.map fun rules => rules.filter fun r => r.kind.dialect.name = d.name

end Configuration

end StyleRules
