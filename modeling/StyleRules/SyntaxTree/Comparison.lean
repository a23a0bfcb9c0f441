import StyleRules.Parser
import StyleRules.SyntaxTree.Token

namespace StyleRules

namespace Comparison

/-- A token, or a closed pair of brackets with the chains inside it. -/
inductive Piece where
  | token (t : Token)
  | group (start stop : Nat) (chains : List SyntaxTree)

/-- A part of a possible chain. -/
inductive Part where
  | operator (kind : Text) (start stop : Nat)
  /-- A comment or the continuation of a line. -/
  | aside (kind : Text) (start stop : Nat)
  | operand (start stop : Nat) (isNone : Bool) (chains : List SyntaxTree)

/-- The operators of one token that compare. -/
def comparisonOperators : List Text := ["<", ">", "<=", ">=", "==", "!="].map String.toList

/-- The words that separate chains wherever they stand. -/
def separatingWords : List Text :=
  ["and", "or", "if", "else", "elif", "while", "for", "lambda", "return", "assert", "yield", "del",
    "with", "as", "from", "import", "raise", "except", "finally", "try", "class", "def", "async",
    "global", "nonlocal", "pass", "break", "continue"].map String.toList

/-- The operators that separate chains wherever they stand. -/
def separatingOperators : List Text :=
  [",", ":", ";", "=", ":=", "->", "+=", "-=", "*=", "/=", "//=", "%=", "@=", "&=", "|=", "^=",
    ">>=", "<<=", "**="].map String.toList

/-- The operators that separate chains where an operand would start. -/
def leadingOperators : List Text := ["*", "**", "@"].map String.toList

/-- A level of brackets while its pieces are read: the parts since the last separator, last part
first; whether the next `in` belongs to a `for`; and the chains found, last one first. -/
structure Level where
  parts : List Part
  afterFor : Bool
  chains : List SyntaxTree

namespace Level

def empty : Level := { parts := [], afterFor := false, chains := [] }

/-- Asides at the end of a list of parts belong to no chain. -/
def dropAsides : List Part → List Part
  | .aside .. :: rest => dropAsides rest
  | parts => parts

def isOperator : Part → Bool
  | .operator .. => true
  | _ => false

def startOf : Part → Nat
  | .operator _ s _ | .aside _ s _ | .operand s _ _ _ => s

def stopOf : Part → Nat
  | .operator _ _ e | .aside _ _ e | .operand _ e _ _ => e

/-- The node of a part. -/
def nodeOf : Part → SyntaxTree
  | .operator kind s e | .aside kind s e => .node kind s e []
  | .operand s e isNone chains => .node (if isNone then noneKind else "operand".toList) s e chains

/-- The chains of parts without a comparison operator are those inside the operands. -/
def chainsInside (parts : List Part) : List SyntaxTree :=
  parts.flatMap fun part =>
    match part with
    | .operand _ _ _ chains => chains
    | _ => []

/-- Ends the chain at hand. -/
def separate (level : Level) : Level :=
  let last := dropAsides level.parts
  let parts := dropAsides last.reverse
  let found :=
    match parts.head?, last.head? with
    | some first, some final =>
      if parts.any isOperator then
        [SyntaxTree.node chainKind (startOf first) (stopOf final) (parts.map nodeOf)]
      else chainsInside parts
    | _, _ => []
  { level with parts := [], chains := found.reverse ++ level.chains }

/-- Adds a piece of an operand. Asides between two pieces of one operand belong to it. -/
def addOperand (level : Level) (start stop : Nat) (isNone : Bool) (chains : List SyntaxTree) :
    Level :=
  match dropAsides level.parts with
  | .operand s _ _ cs :: rest =>
    { level with parts := .operand s stop false (cs ++ chains) :: rest }
  | _ => { level with parts := .operand start stop isNone chains :: level.parts }

def addOperator (level : Level) (kind : Text) (start stop : Nat) : Level :=
  { level with parts := .operator kind start stop :: level.parts }

/-- Adds the word `not`: the second half of `is not`, the first half of `not in`, or an operator
that binds more loosely than comparisons. -/
def addNot (level : Level) (start stop : Nat) : Level :=
  match dropAsides level.parts with
  | .operator kind s _ :: rest =>
    if kind = "is".toList then
      { level with parts := .operator "is not".toList s stop :: rest }
    else separate level
  | .operand .. :: _ => addOperator level "not".toList start stop
  | _ => separate level

/-- Adds the word `in`: the end of the targets of a `for`, the second half of `not in`, or an
operator. -/
def addIn (level : Level) (start stop : Nat) : Level :=
  if level.afterFor then { separate level with afterFor := false }
  else
    match dropAsides level.parts with
    | .operator kind s _ :: rest =>
      if kind = "not".toList then
        { level with parts := .operator "not in".toList s stop :: rest }
      else addOperator level "in".toList start stop
    | _ => addOperator level "in".toList start stop

def addName (level : Level) (text : Text) (start stop : Nat) : Level :=
  if text = "not".toList then addNot level start stop
  else if text = "in".toList then addIn level start stop
  else if text = "is".toList then addOperator level text start stop
  else if text = "for".toList then { separate level with afterFor := true }
  else if text ∈ separatingWords then separate level
  else addOperand level start stop (text = "None".toList) []

/-- Adds a piece; inside brackets a line end is no separator. -/
def add (inside : Bool) (level : Level) : Piece → Level
  | .group start stop chains => addOperand level start stop false chains
  | .token t =>
    match t.kind with
    | .name => addName level t.text t.start t.stop
    | .operator =>
      if t.text ∈ comparisonOperators then addOperator level t.text t.start t.stop
      else if t.text ∈ separatingOperators ∨ t.text.head? = some '!' then separate level
      else if t.text ∈ leadingOperators ∧ (dropAsides level.parts).isEmpty then separate level
      else addOperand level t.start t.stop false []
    | .lineEnd => if inside then level else { separate level with afterFor := false }
    | .comment => { level with parts := .aside "comment".toList t.start t.stop :: level.parts }
    | .continuation =>
      { level with parts := .aside "line_continuation".toList t.start t.stop :: level.parts }
    | .number | .literal | .opening | .closing => addOperand level t.start t.stop false []

end Level

/-- The chains of the pieces on one level, in document order. -/
def chainsOf (inside : Bool) (pieces : List Piece) : List SyntaxTree :=
  ((pieces.foldl (Level.add inside) Level.empty).separate).chains.reverse

def Piece.isAside : Piece → Bool
  | .token t => t.kind == .comment || t.kind == .continuation
  | .group .. => false

def Piece.isOperator (text : String) : Piece → Bool
  | .token t => t.kind == .operator && t.text == text.toList
  | .group .. => false

def Piece.isName (text : String) : Piece → Bool
  | .token t => t.kind == .name && t.text == text.toList
  | .group .. => false

/-- A line that starts with the word `match` and ends with a colon opens a match statement; its
first word is then no part of an operand. -/
def dropMatch (line : List Piece) : List Piece :=
  match line with
  | first :: second :: rest =>
    let ends := ((second :: rest).filter (!·.isAside)).getLast?
    if first.isName "match" ∧ ¬ second.isOperator ":" ∧ ends.any (Piece.isOperator ":") then
      second :: rest
    else line
  | line => line

def Piece.isLineEnd : Piece → Bool
  | .token t => t.kind == .lineEnd
  | .group .. => false

/-- The lines of pieces outside all brackets. -/
def linesOf : List Piece → List (List Piece)
  | [] => [[]]
  | p :: rest =>
    if p.isLineEnd then [] :: linesOf rest
    else match linesOf rest with
      | line :: lines => (p :: line) :: lines
      | [] => [[p]]

/-- The brackets that are open while tokens are read, innermost first: where each starts, and the
pieces read on its level and on every level around it, last one first. -/
structure Nesting where
  pieces : List Piece
  outer : List (Nat × List Piece)

namespace Nesting

def close (n : Nesting) (stop : Nat) : Nesting :=
  match n.outer with
  | (start, pieces) :: outer =>
    { pieces := .group start stop (chainsOf true n.pieces.reverse) :: pieces, outer }
  | [] => n

/-- Reads a token; a closing bracket that nothing opened is passed over. -/
def read (n : Nesting) (t : Token) : Nesting :=
  match t.kind with
  | .opening => { pieces := [], outer := (t.start, n.pieces) :: n.outer }
  | .closing => n.close t.stop
  | _ => { n with pieces := .token t :: n.pieces }

def closeAll (stop : Nat) : List Piece → List (Nat × List Piece) → List Piece
  | pieces, [] => pieces.reverse
  | pieces, (start, around) :: outer =>
    closeAll stop (.group start stop (chainsOf true pieces.reverse) :: around) outer

end Nesting

end Comparison

/-- The syntax tree of a text, reduced to its comparison chains. The children of a chain are its
operands, operators, comments and line continuations in order. -/
def SyntaxTree.ofText (text : Text) : SyntaxTree :=
  let size := Text.byteSize text
  let read := (Token.ofText text).foldl Comparison.Nesting.read { pieces := [], outer := [] }
  let pieces := Comparison.Nesting.closeAll size read.pieces read.outer
  .node "module".toList 0 size
    ((Comparison.linesOf pieces).flatMap fun line =>
      Comparison.chainsOf false (Comparison.dropMatch line))

namespace Comparison

/-- Reads Python only, and of it the comparison chains. -/
scoped instance parser : Parser where
  parse l text :=
    if l = .python then .ok (.ofText text) else .error ("no grammar of ".toList ++ l.name)

end Comparison

end StyleRules
