import StyleRules.Location
import StyleRules.Mask
import StyleRules.Text.Lines
import StyleRules.Text.WordChar

namespace StyleRules

/-- The lines that a directive speaks about: from the directive on, the line after it, its own
line, or the line before it. -/
inductive Modifier where
  | onward
  | next
  | this
  | previous
  deriving DecidableEq, Repr

namespace Modifier

/-- The word after the colon, empty for a directive that holds from there on. -/
def name : Modifier → Text
  | onward => []
  | next => "next".toList
  | this => "this".toList
  | previous => "previous".toList

def all : List Modifier := [onward, next, this, previous]

def ofValue : Value → Reading Modifier
  | .text t =>
    match all.find? (·.name = t) with
    | some m => .ok m
    | none => Reading.fault .notAMember
  | _ => Reading.fault .notAMember

end Modifier

/-- A directive that disables rules. -/
structure Directive where
  line : Nat
  character : Nat
  /-- The identifiers that it lists, in the order of the text. -/
  rules : List Text
  modifier : Modifier
  deriving DecidableEq, Repr

namespace Directive

/-- The word that stands for every rule. -/
def allRules : Text := "all".toList

def appliesTo (d : Directive) (rule : Text) : Bool := allRules ∈ d.rules || rule ∈ d.rules

/-- Whether the directive speaks about the location. Without a line it does not; without a
character the location counts as the start of its line. -/
def covers (d : Directive) (l : Location) : Bool :=
  match l.line with
  | none => false
  | some line =>
    match d.modifier with
    | .next => line == d.line + 1
    | .this => line == d.line
    | .previous => line + 1 == d.line
    | .onward =>
      d.line < line || (line == d.line && d.character ≤ l.character.getD 0)

/-- What is left after a piece of text that has to stand at the start. -/
def after? (piece text : Text) : Option Text :=
  if Text.startsWith piece text then some (text.drop piece.length) else none

/-- The modifier at the start of a text, and the rest. -/
def readModifier (text : Text) : Modifier × Text :=
  let found := [Modifier.next, .this, .previous].findSome? fun m =>
    (after? (':' :: m.name) text).map fun rest => (m, rest)
  found.getD (.onward, text)

/-- Skips what may stand between two identifiers: spaces and tabs around at most one comma. -/
def afterSeparator (text : Text) : Text :=
  let text := text.dropWhile Text.isSpaceOrTab
  match text with
  | ',' :: rest => rest.dropWhile Text.isSpaceOrTab
  | _ => text

/-- The identifiers at the start of a text, at most `fuel` of them, and the rest. -/
def readRules : Nat → Text → List Text × Text
  | 0, text => ([], text)
  | fuel + 1, text =>
    match text.takeWhile Text.isWordChar with
    | [] => ([], text)
    | word =>
      let rest := text.dropWhile Text.isWordChar
      let further := readRules fuel (afterSeparator rest)
      if further.1 = [] then ([word], rest) else (word :: further.1, further.2)

/-- The modifier and the identifiers of a directive at the start of a text, and the rest. -/
def read? (d : Dialect) (text : Text) : Option (Modifier × List Text × Text) := do
  let rest ← after? d.lineComment text
  let rest ← after? (Dialect.directivePrefix ++ ":disable".toList) (rest.dropWhile Text.isBlank)
  let (modifier, rest) := readModifier rest
  guard ((rest.takeWhile Text.isSpaceOrTab).isEmpty = false)
  let (rules, rest) := readRules (rest.length + 1) (rest.dropWhile Text.isSpaceOrTab)
  guard (rules.isEmpty = false)
  return (modifier, rules, rest)

/-- The directives of one line, from left to right. The first `skip` characters belong to a
directive already read. -/
def ofLineFrom (d : Dialect) (line : Nat) (skip character : Nat) : Text → List Directive
  | [] => []
  | c :: rest =>
    match skip with
    | k + 1 => ofLineFrom d line k (character + 1) rest
    | 0 =>
      match read? d (c :: rest) with
      | some (modifier, rules, left) =>
        { line, character, rules, modifier }
          :: ofLineFrom d line (rest.length - left.length) (character + 1) rest
      | none => ofLineFrom d line 0 (character + 1) rest

/-- The directives of lines that are numbered from `line` on. -/
def ofLines (d : Dialect) (line : Nat) : List Text → List Directive
  | [] => []
  | text :: rest => ofLineFrom d line 0 1 text ++ ofLines d (line + 1) rest

/-- Every directive of a text, in its order. A directive inside a literal is none. -/
def ofText (text : Text) (d : Dialect) : List Directive :=
  ofLines d 1 (mask text d false).splitLines

def ofParts (line character rules modifier : Value) : Reading Directive :=
  Reading.both (fun (a : Nat × Nat) (b : List Text × Modifier) => ⟨a.1, a.2, b.1, b.2⟩)
    (Reading.both Prod.mk
      (Reading.under "line".toList ((Reading.atLeast 1 line).map (·.val)))
      (Reading.under "character".toList ((Reading.atLeast 1 character).map (·.val))))
    (Reading.both Prod.mk
      (Reading.under "rule_identifiers".toList (Reading.sequence Reading.text .notASet rules))
      (Reading.under "modifier".toList (Modifier.ofValue modifier)))

/-- Whether no directive of the list disables the rule at the location. -/
def leaveEnabled (directives : List Directive) (rule : Text) (l : Location) : Bool :=
  !directives.any fun d => d.appliesTo rule && d.covers l

end Directive

end StyleRules
