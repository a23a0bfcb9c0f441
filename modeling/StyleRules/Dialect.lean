import StyleRules.Parser
import StyleRules.Value
import StyleRules.Text.Lowercase

namespace StyleRules

/-- How texts of a dialect are turned into syntax trees. -/
inductive Grammar where
  /-- Not at all: the dialect is only analysed lexically. -/
  | absent
  /-- By the grammar of a language. -/
  | language (l : Language)
  /-- By a grammar that cannot be loaded, for the reason given. -/
  | broken (reason : Text)
  deriving DecidableEq, Repr

/-- The lexical profile of a language. -/
structure Dialect where
  name : Text
  /-- The suffixes of its files; the first is preferred. -/
  extensions : List Text := []
  /-- What starts a comment that runs to the end of the line. -/
  lineComment : Text
  /-- What opens and what closes a block comment, if there are any. -/
  blockComment : Option (Text × Text) := none
  /-- What opens a text literal; three of them open one that may span lines. -/
  quotes : List Text := ["\"".toList]
  grammar : Grammar := .absent
  deriving DecidableEq, Repr

namespace Dialect

/-- The word that starts every directive of the tool. -/
def directivePrefix : Text := "lintcheck".toList

def python : Dialect :=
  { name := "python".toList
    extensions := [".py".toList]
    lineComment := "#".toList
    quotes := ["\"".toList, "'".toList]
    grammar := .language .python }

def swift : Dialect :=
  { name := "swift".toList
    extensions := [".swift".toList]
    lineComment := "//".toList
    blockComment := some ("/*".toList, "*/".toList) }

/-- The dialects whose files the tool finds by their suffix. -/
def known : List Dialect := [python, swift]

/-- Whether the dialect has a grammar, be it one that cannot be loaded. -/
def hasGrammar (d : Dialect) : Bool := d.grammar != .absent

/-- The text inside a comment: a block comment if the dialect has one, else line by line. -/
def commentOut (d : Dialect) (text : Text) : Text :=
  match d.blockComment with
  | some (opening, closing) =>
    opening ++ "\n  ".toList ++ text ++ "\n ".toList ++ closing
  | none =>
    Text.join ['\n'] ((Text.splitOn '\n' text).map fun line =>
      if line = [] then d.lineComment else d.lineComment ++ ' ' :: line)

/-- How a character is written between double quotes. -/
def escapeChar (c : Char) : Text :=
  if c = '\\' then ['\\', '\\']
  else if c = '"' then ['\\', '"']
  else if c = '\r' then ['\\', 'r']
  else if c = '\n' then ['\\', 'n']
  else [c]

/-- The text as a literal in double quotes on one line. -/
def textLiteral (_ : Dialect) (text : Text) : Text :=
  '"' :: text.flatMap escapeChar ++ ['"']

/-- A line that disables a rule from there on. -/
def disableDirective (d : Dialect) (ruleIdentifier : Text) : Text :=
  d.lineComment ++ ' ' :: directivePrefix ++ ":disable ".toList ++ ruleIdentifier ++ ['\n']

def handles (d : Dialect) (suffix : Text) : Bool := Text.lower suffix ∈ d.extensions

def ofSuffix? (suffix : Text) : Option Dialect := known.find? (·.handles suffix)

/-- Reads the delimiters of block comments: nothing, or a list of exactly two texts. -/
def readBlockComment : Value → Reading (Option (Text × Text))
  | .null => .ok none
  | .list vs =>
    match vs with
    | _ :: _ :: _ :: _ => Reading.fault .tooLong
    | _ =>
      let part (i : Nat) : Reading Text :=
        Reading.under (Text.ofNat i)
          (match vs[i]? with
          | some v => Reading.text v
          | none => Reading.fault .missing)
      Reading.both (fun a b => some (a, b)) (part 0) (part 1)
  | _ => Reading.fault .notASequence

/-- Reads a dialect from its fields, all but the grammar. -/
def ofValue (grammar : Grammar) : Value → Reading Dialect
  | .map fields =>
    let texts := Reading.sequence Reading.text
    Reading.both (fun (a : Text × List Text × Text) (b : Option (Text × Text) × List Text) =>
        { name := a.1, extensions := a.2.1, lineComment := a.2.2, blockComment := b.1,
          quotes := b.2, grammar })
      (Reading.both Prod.mk
        (Reading.required fields "name".toList Reading.text)
        (Reading.both Prod.mk
          (Reading.optional fields "extensions".toList [] texts)
          (Reading.required fields "line_comment".toList Reading.text)))
      (Reading.both Prod.mk
        (Reading.optional fields "block_comment".toList none readBlockComment)
        (Reading.optional fields "string_quotes".toList ["\"".toList] texts))
  | _ => Reading.fault .notAMapping

end Dialect

end StyleRules
