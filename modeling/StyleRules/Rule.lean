import StyleRules.Description
import StyleRules.Diagnostic
import StyleRules.SourceFile

namespace StyleRules

/-- The options that a rule was built with. -/
structure Settings where
  severity : Severity := .warning
  /-- The options beside the severity, in the order in which the kind of rule declares them. -/
  options : List (Text × Int) := []
  deriving DecidableEq, Repr

/-- What a rule sees of a file. -/
structure View where
  file : SourceFile
  index : LineIndex
  tree : SyntaxTree

/-- How a kind of rule corrects a file in place of the correction that rules share, which is
given. -/
abbrev Override : Type :=
  Settings → (Desk → Except Fault (List Correction) × Desk) → Desk →
    Except Fault (List Correction) × Desk

/-- How a kind of rule proposes edits. -/
structure Corrector where
  edits : Settings → View → Except Fault (List Edit)
  /-- Whether edits are dropped where directives disable the rule. -/
  heedsDirectives : Bool := true
  override : Option Override := none

/-- A kind of rule. -/
structure RuleKind where
  /-- Two kinds with one key are the same kind. -/
  key : Text
  /-- The name of the kind in messages about its options. -/
  typeName : Text
  description : Description
  dialect : Dialect := .python
  /-- Whether triggering examples are expected to stay silent inside a comment. -/
  silentInComment : Bool := true
  /-- Whether triggering examples are expected to stay silent inside a text literal. -/
  silentInLiteral : Bool := true
  /-- The integer options, each with its default if it has one. -/
  options : List (Text × Option Int) := []
  /-- Whether the rule looks at the syntax tree. -/
  needsTree : Bool := false
  inspect : Settings → View → Except Fault (List Diagnostic)
  corrector : Option Corrector := none

/-- A rule: a kind with its options. -/
structure Rule where
  kind : RuleKind
  settings : Settings

namespace Description

/-- A diagnostic of the rule so described; an empty message stands for the summary. -/
def diagnostic (d : Description) (severity : Severity) (l : Location) (message : Text := []) :
    Diagnostic :=
  { ruleIdentifier := d.identifier
    ruleName := d.name
    severity
    message := if message = [] then d.summary else message
    location := l }

end Description

namespace Settings

/-- The integer option of that name, zero if there is none. -/
def option (s : Settings) (name : Text) : Int := ((s.options.find? (·.1 = name)).map (·.2)).getD 0

end Settings

namespace RuleKind

def identifier (k : RuleKind) : Text := k.description.identifier

/-- Reads one integer option. -/
def readOption (fields : List (Value × Value)) (name : Text) (default : Option Int) :
    Reading (Text × Int) :=
  match Value.entry? name fields, default with
  | some v, _ => (Reading.under name (Reading.ofExcept v.toInteger)).map (name, ·)
  | none, some n => .ok (name, n)
  | none, none => Reading.under name (Reading.fault .missing)

def readSettings (k : RuleKind) (fields : List (Value × Value)) : Reading Settings :=
  let severity := Reading.optional fields "severity".toList .warning Severity.ofValue
  let options := k.options.foldr (fun (name, default) rest =>
    Reading.both List.cons (readOption fields name default) rest) (.ok [])
  let others := Reading.unexpected ("severity".toList :: k.options.map (·.1)) fields
  Reading.both (fun s (_ : Unit) => s) (Reading.both Settings.mk severity options)
    (if others = [] then .ok () else .error others)

/-- Builds a rule from options as a user writes them: nothing, a severity, or a mapping. -/
def configure (k : RuleKind) (v : Value) : Except Fault Rule :=
  let fields : Option (List (Value × Value)) := match v with
    | .null => some []
    | .text t => some [(.text "severity".toList, .text t)]
    | .map fields => some fields
    | _ => none
  match fields with
  | none => .error (.ruleMisconfigured k.identifier v.kindName)
  | some fields =>
    match k.readSettings fields with
    | .ok settings => .ok { kind := k, settings }
    | .error es => .error (.ruleRejected k.identifier k.typeName es)

end RuleKind

namespace Rule

variable [Parser]

def identifier (r : Rule) : Text := r.kind.identifier

def isCorrectable (r : Rule) : Bool := r.kind.corrector.isSome

/-- What a rule sees of a file. -/
def view (r : Rule) (f : SourceFile) (cache : ParseCache) : Except Fault View × ParseCache :=
  let (index, cache) := cache.lineIndex f.contents
  if r.kind.needsTree then
    let (tree, cache) := cache.tree f.dialect f.contents
    (tree.map fun tree => { file := f, index, tree }, cache)
  else (.ok { file := f, index, tree := .node [] 0 0 [] }, cache)

/-- The diagnostics of a rule for a file, whatever its directives say. -/
def diagnose (r : Rule) (f : SourceFile) (cache : ParseCache) :
    Except Fault (List Diagnostic) × ParseCache :=
  let (view, cache) := r.view f cache
  (view.bind (r.kind.inspect r.settings), cache)

/-- The edits that a rule proposes for a file; none if it is not correctable. -/
def proposals (r : Rule) (f : SourceFile) (cache : ParseCache) :
    Except Fault (List Edit) × ParseCache :=
  match r.kind.corrector with
  | none => (.ok [], cache)
  | some c =>
    let (view, cache) := r.view f cache
    (view.bind (c.edits r.settings), cache)

/-- The edits that a rule may make in a file, from last to first, each with its location. -/
def acceptable (r : Rule) (f : SourceFile) (index : LineIndex) (edits : List Edit) :
    List (Edit × Location) :=
  let heeds := r.kind.corrector.all (·.heedsDirectives)
  let directives := f.directives
  let allowed (e : Edit) : Option Location :=
    let l := SourceFile.place f.identifier index e.offset
    if !heeds || Directive.leaveEnabled directives r.identifier l then some l else none
  Edit.keep allowed none (Edit.fromLast edits)

/-- The record of a correction at a location. -/
def correctionAt (r : Rule) (l : Location) : Correction :=
  { ruleIdentifier := r.identifier, ruleName := r.kind.description.name, location := l }

/-- Makes the edits that a rule proposes, except those where it is disabled and those that overlap
one already accepted. Nothing is written if no edit is left. -/
def makeEdits (r : Rule) (desk : Desk) : Except Fault (List Correction) × Desk :=
  let (proposed, cache) := r.proposals desk.file desk.cache
  match proposed with
  | .error f => (.error f, { desk with cache })
  | .ok edits =>
    let (index, cache) := cache.lineIndex desk.file.contents
    let desk := { desk with cache }
    match r.acceptable desk.file index edits with
    | [] => (.ok [], desk)
    | accepted =>
      match desk.replaceContents (Edit.applyAll desk.file.contents (accepted.map (·.1))) with
      | .error f => (.error f, desk)
      | .ok desk => (.ok (accepted.reverse.map fun a => r.correctionAt a.2), desk)

/-- Corrects the file at hand. A rule that is not correctable leaves it alone. -/
def correct (r : Rule) (desk : Desk) : Except Fault (List Correction) × Desk :=
  match r.kind.corrector.bind (·.override) with
  | none => r.makeEdits desk
  | some corrects => corrects r.settings r.makeEdits desk

end Rule

end StyleRules
