import StyleRules.Text.Basic

namespace StyleRules

namespace Yaml

/-- What is left of a document, and the column at which that starts, counted from zero. -/
structure Cursor where
  rest : Text
  column : Nat
  deriving Repr

def isBreak (c : Char) : Bool := c == '\n' || c == '\x85' || c == '\u2028' || c == '\u2029'

/-- Whether nothing, a blank or a line end comes next. -/
def atGap (text : Text) : Bool :=
  match text with
  | [] => true
  | c :: _ => c == ' ' || c == '\t' || isBreak c

/-- Whether a line that starts here is a mark between documents. -/
def atMark (mark : String) (text : Text) : Bool :=
  Text.startsWith mark.toList text && atGap (text.drop mark.length)

/-- Whether a line that starts here is any mark between documents. -/
def atAnyMark (text : Text) : Bool := atMark "---" text || atMark "..." text

namespace Cursor

def atEnd (c : Cursor) : Bool := c.rest.isEmpty || (c.column == 0 && atAnyMark c.rest)

/-- The cursor after some characters of the same line. -/
def advance (c : Cursor) (count : Nat) : Cursor := ⟨c.rest.drop count, c.column + count⟩

def pastSpaces (c : Cursor) : Cursor := c.advance (c.rest.takeWhile (· == ' ')).length

/-- Passes spaces, comments and line ends; tells whether a line end was passed. -/
def skipFrom (column : Nat) (comment crossed : Bool) : Text → Cursor × Bool
  | [] => (⟨[], column⟩, crossed)
  | c :: rest =>
    if isBreak c then skipFrom 0 false true rest
    else if comment then skipFrom (column + 1) true crossed rest
    else if c = ' ' then skipFrom (column + 1) false crossed rest
    else if c = '#' then skipFrom (column + 1) true crossed rest
    else (⟨c :: rest, column⟩, crossed)

/-- The next place where something is written, and whether it is on a further line. -/
def skip (c : Cursor) : Cursor × Bool := skipFrom c.column false false c.rest

end Cursor

/-- What stands for some line breaks in a row. -/
def folded (breaks : Nat) : Text := if breaks = 1 then [' '] else List.replicate (breaks - 1) '\n'

/-- Passes line ends and the blanks between them; tells how many line ends there were. A mark
between documents stops it. -/
def foldFrom (column breaks : Nat) (isBlank : Char → Bool) : Text → Option (Nat × Cursor)
  | [] => some (breaks, ⟨[], column⟩)
  | c :: rest =>
    if column = 0 ∧ 0 < breaks ∧ atAnyMark (c :: rest) then none
    else if isBreak c then foldFrom 0 (breaks + 1) isBlank rest
    else if isBlank c then foldFrom (column + 1) breaks isBlank rest
    else some (breaks, ⟨c :: rest, column⟩)

/-- Whether a character ends a run of plain characters. Within brackets commas and brackets do. -/
def endsPlain (flow : Bool) (c : Char) (rest : Text) : Bool :=
  atGap [c]
    || (c == ':' && (atGap rest || (flow && rest.head?.any (",[]\x7b\x7d".toList.contains ·))))
    || (flow && ",?[]\x7b\x7d".toList.contains c)

/-- The run of plain characters at the start of a text. -/
def plainRun (flow : Bool) : Text → Text
  | [] => []
  | c :: rest => if endsPlain flow c rest then [] else c :: plainRun flow rest

/-- Whether a plain scalar may start here. -/
def startsPlain (flow : Bool) : Text → Bool
  | [] => false
  | c :: rest =>
    !("-?:,[]\x7b\x7d#&*!|>'\"%@`\t".toList.contains c)
      || (!atGap rest && (c == '-' || (!flow && (c == '?' || c == ':'))))

/-- Reads a plain scalar from one run of characters to the next. It goes on to a further line only
if that line is indented by at least `indent`, or within brackets. Tells whether it did. -/
def plainFrom (flow : Bool) (indent : Nat) (c : Cursor) : Nat → Text × Cursor × Bool
  | 0 => ([], c, false)
  | fuel + 1 =>
    let run := plainRun flow c.rest
    let after := c.advance run.length
    let gap := after.rest.takeWhile (· == ' ')
    let next := after.advance gap.length
    let more (between : Text) (next : Cursor) (crossed : Bool) : Text × Cursor × Bool :=
      if next.rest.head? = some '#' ∨ plainRun flow next.rest = [] then (run, next, crossed)
      else
        let (text, last, later) := plainFrom flow indent next fuel
        (run ++ between ++ text, last, crossed || later)
    if next.rest.head?.any isBreak then
      match foldFrom next.column 0 (· == ' ') next.rest with
      | none => (run, after, false)
      | some (breaks, further) =>
        if !flow && further.column < indent then (run, after, false)
        else
          let (text, last, crossed) := more (folded breaks) further true
          if text = run then (run, after, false) else (text, last, crossed)
    else if gap = [] then (run, after, false)
    else more gap next false

/-- Reads a scalar in single quotes, where a quote is written twice, after the opening quote.
Tells whether it spans lines. -/
def singleFrom (column : Nat) : Nat → Text → Option (Text × Cursor × Bool)
  | 0, _ => none
  | fuel + 1, text =>
    match text with
    | [] => none
    | '\'' :: '\'' :: rest =>
      (singleFrom (column + 2) fuel rest).map fun (t, c, crossed) => ('\'' :: t, c, crossed)
    | '\'' :: rest => some ([], ⟨rest, column + 1⟩, false)
    | c :: rest => do
      if c = ' ' ∨ c = '\t' ∨ isBreak c then
        let blanks := (c :: rest).takeWhile fun c => c == ' ' || c == '\t'
        let after := (c :: rest).drop blanks.length
        if after.head?.any isBreak then
          let (breaks, next) ← foldFrom column 0 (fun c => c == ' ' || c == '\t') after
          let (t, last, _) ← singleFrom next.column fuel next.rest
          return (folded breaks ++ t, last, true)
        else
          let (t, last, crossed) ← singleFrom (column + blanks.length) fuel after
          return (blanks ++ t, last, crossed)
      else
        let (t, last, crossed) ← singleFrom (column + 1) fuel rest
        return (c :: t, last, crossed)

/-- The characters that an escape of one letter stands for. -/
def escapes : List (Char × Char) :=
  [('0', '\x00'), ('a', '\x07'), ('b', '\x08'), ('t', '\t'), ('\t', '\t'), ('n', '\n'),
    ('v', '\x0b'), ('f', '\x0c'), ('r', '\r'), ('e', '\x1b'), (' ', ' '), ('"', '"'),
    ('\\', '\\'), ('/', '/'), ('N', '\x85'), ('_', '\xa0'), ('L', '\u2028'), ('P', '\u2029')]

/-- How many hexadecimal digits follow an escape of that letter. -/
def escapeWidths : List (Char × Nat) := [('x', 2), ('u', 4), ('U', 8)]

def hexadecimal? (digits : Text) : Option Nat :=
  digits.foldl (fun n c => n.bind fun n =>
    if c.isDigit then some (n * 16 + (c.toNat - '0'.toNat))
    else if 'a' ≤ c ∧ c ≤ 'f' then some (n * 16 + (c.toNat - 'a'.toNat + 10))
    else if 'A' ≤ c ∧ c ≤ 'F' then some (n * 16 + (c.toNat - 'A'.toNat + 10))
    else none) (some 0)

/-- The character that an escape stands for, and the number of characters after the backslash. -/
def escaped? (text : Text) : Option (Char × Nat) :=
  match text with
  | [] => none
  | c :: rest =>
    match escapes.find? (·.1 = c), escapeWidths.find? (·.1 = c) with
    | some (_, meant), _ => some (meant, 1)
    | none, some (_, width) =>
      if (rest.take width).length = width then
        (hexadecimal? (rest.take width)).bind fun n =>
          if n.isValidChar then some (Char.ofNat n, width + 1) else none
      else none
    | none, none => none

/-- Reads a scalar in double quotes after the opening quote. Tells whether it spans lines. -/
def doubleFrom (column : Nat) : Nat → Text → Option (Text × Cursor × Bool)
  | 0, _ => none
  | fuel + 1, text =>
    match text with
    | [] => none
    | '"' :: rest => some ([], ⟨rest, column + 1⟩, false)
    | '\\' :: rest => do
      if rest.head?.any isBreak then
        let (breaks, next) ← foldFrom column 0 (fun c => c == ' ' || c == '\t') rest
        let (t, last, _) ← doubleFrom next.column fuel next.rest
        return (List.replicate (breaks - 1) '\n' ++ t, last, true)
      else
        let (meant, count) ← escaped? rest
        let (t, last, crossed) ← doubleFrom (column + count + 1) fuel (rest.drop count)
        return (meant :: t, last, crossed)
    | c :: rest => do
      if c = ' ' ∨ c = '\t' ∨ isBreak c then
        let blanks := (c :: rest).takeWhile fun c => c == ' ' || c == '\t'
        let after := (c :: rest).drop blanks.length
        if after.head?.any isBreak then
          let (breaks, next) ← foldFrom column 0 (fun c => c == ' ' || c == '\t') after
          let (t, last, _) ← doubleFrom next.column fuel next.rest
          return (folded breaks ++ t, last, true)
        else
          let (t, last, crossed) ← doubleFrom (column + blanks.length) fuel after
          return (blanks ++ t, last, crossed)
      else
        let (t, last, crossed) ← doubleFrom (column + 1) fuel rest
        return (c :: t, last, crossed)

end Yaml

end StyleRules
