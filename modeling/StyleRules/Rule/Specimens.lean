import StyleRules.Rule

namespace StyleRules

namespace Specimen

/-- An assignment, spaced as usual. -/
def assignment : Text := " = ".toList

/-- The runs of spaces and tabs that end a line, each with its length. The first `pending`
characters belong to a run already looked at. -/
def trailingFrom (pending offset : Nat) : Text → List (Nat × Nat)
  | [] => []
  | c :: rest =>
    match pending with
    | k + 1 => trailingFrom k (offset + 1) rest
    | 0 =>
      if Text.isSpaceOrTab c then
        let length := ((c :: rest).takeWhile Text.isSpaceOrTab).length
        let further := trailingFrom (length - 1) (offset + 1) rest
        match (c :: rest).drop length with
        | [] => (offset, length) :: further
        | d :: _ => if d = '\n' then (offset, length) :: further else further
      else trailingFrom 0 (offset + 1) rest

/-- The runs of spaces and tabs that end a line of a text. -/
def trailing (text : Text) : List (Nat × Nat) := trailingFrom 0 0 text

/-- Diagnostics at offsets. -/
def reportAt (d : Description) (s : Settings) (v : View) (offsets : List Nat) :
    Except Fault (List Diagnostic) :=
  .ok (offsets.map fun (offset : Nat) =>
    d.diagnostic s.severity (SourceFile.place v.file.identifier v.index offset))

/-- A rule that flags every assignment, `shift` characters too far to the right and `repeats`
times. -/
def assignmentRule (identifier typeName : String) (shift repeats : Nat) : RuleKind :=
  let description : Description :=
    { identifier := identifier.toList
      name := "Assignment".toList
      summary := "Flags every assignment.".toList
      nonTriggering := ["pass\n".toList]
      triggering := ["a ↓= 1\n", "value ↓= compute()\n"].map String.toList }
  { key := identifier.toList
    typeName := typeName.toList
    description
    silentInComment := false
    silentInLiteral := false
    inspect := fun s v =>
      reportAt description s v ((Text.occurrences assignment v.file.contents).flatMap fun offset =>
        List.replicate repeats (offset + 1 + shift)) }

def quietRule (typeName : String) (options : List (Text × Option Int)) (d : Description) :
    RuleKind :=
  { key := d.identifier
    typeName := typeName.toList
    description := d
    options
    inspect := fun _ _ => .ok [] }

/-- A rule that never reports although it declares a violation. -/
def silent : RuleKind :=
  quietRule "SilentRule" []
    { identifier := "silent".toList
      name := "Silent".toList
      summary := "Never reports anything.".toList
      triggering := ["a = 1\n".toList] }

/-- A rule with a number that has a default. -/
def threshold : RuleKind :=
  quietRule "ThresholdRule" [("threshold".toList, some 1)]
    { identifier := "threshold".toList
      name := "Threshold".toList
      summary := "Has a numeric option.".toList }

/-- A rule with a number that has to be given. -/
def requiredLimit : RuleKind :=
  quietRule "RequiredLimitRule" [("limit".toList, none)]
    { identifier := "required_limit".toList
      name := "Required Limit".toList
      summary := "Has an option without a default.".toList }

/-- A rule that reports the start of every file. -/
def everywhere : RuleKind :=
  let description : Description :=
    { identifier := "everywhere".toList
      name := "Everywhere".toList
      summary := "Reports the start of every file.".toList
      nonTriggering := ["x = 1\n".toList]
      triggering := ["↓y = 2\n".toList] }
  { key := description.identifier
    typeName := "EverywhereRule".toList
    description
    inspect := fun s v => reportAt description s v [0] }

/-- Removes each run of trailing blanks, or its first `limit` characters. -/
def trimEdits (limit : Option Nat) (text : Text) : List Edit :=
  (trailing text).map fun (offset, length) =>
    { offset, length := (limit.map (min length)).getD length, replacement := [] }

/-- What the rules against trailing blanks declare. -/
def trailingDescription (identifier : String) : Description :=
  { identifier := identifier.toList
    name := "Trailing Whitespace".toList
    summary := "Lines should not end in whitespace.".toList
    nonTriggering := ["a = 1\n".toList]
    triggering := ["a = 1↓  \n".toList]
    corrections := [⟨"a = 1↓  \n".toList, "a = 1\n".toList⟩] }

def trailingRule (typeName : String) (d : Description) (heedsDirectives : Bool)
    (edits : Text → List Edit) : RuleKind :=
  { key := d.identifier
    typeName := typeName.toList
    description := d
    silentInComment := false
    inspect := fun s v => reportAt d s v ((trailing v.file.contents).map (·.1))
    corrector := some { edits := fun _ v => .ok (edits v.file.contents), heedsDirectives } }

def trailingWhitespace : RuleKind :=
  trailingRule "TrailingWhitespaceRule" (trailingDescription "trailing_whitespace") true
    (trimEdits none)

/-- A rule that removes only one blank of each run. -/
def sloppyTrailingWhitespace : RuleKind :=
  trailingRule "SloppyTrailingWhitespaceRule" (trailingDescription "sloppy_trailing_whitespace")
    true (trimEdits (some 1))

/-- A rule that corrects where directives disable it. -/
def directiveIgnoring : RuleKind :=
  trailingRule "DirectiveIgnoringRule" (trailingDescription "directive_ignoring") false
    (trimEdits none)

/-- A rule that flags trailing blanks and also tightens every assignment. -/
def overEager : RuleKind :=
  let description : Description :=
    { identifier := "over_eager".toList
      name := "Over Eager".toList
      summary := "Lines should not end in whitespace.".toList
      nonTriggering := ["b = 2\n".toList]
      triggering := ["a = 1↓  \n".toList] }
  trailingRule "OverEagerRule" description true fun text =>
    trimEdits none text ++ (Text.occurrences assignment text).map fun offset =>
      { offset, length := assignment.length, replacement := "=".toList }

def all : List RuleKind :=
  [assignmentRule "assignment" "AssignmentRule" 0 1,
    assignmentRule "off_by_one_assignment" "OffByOneAssignmentRule" 1 1,
    assignmentRule "duplicating_assignment" "DuplicatingAssignmentRule" 0 2,
    silent, everywhere, threshold, requiredLimit, trailingWhitespace, sloppyTrailingWhitespace,
    directiveIgnoring, overEager]

end Specimen

end StyleRules
