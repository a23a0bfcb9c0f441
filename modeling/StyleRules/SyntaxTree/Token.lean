import StyleRules.Text.Utf8

namespace StyleRules

/-- What a token is. -/
inductive TokenKind where
  | name
  | number
  | literal
  | operator
  | opening
  | closing
  | lineEnd
  | comment
  | continuation
  deriving DecidableEq, Repr

/-- A token with its text and the byte offsets where it starts and stops. -/
structure Token where
  kind : TokenKind
  text : Text
  start : Nat
  stop : Nat
  deriving DecidableEq, Repr

namespace Token

/-- What the text at hand stands in. The frames nest; outside of all of them is plain code. -/
inductive Frame where
  /-- A bracket of code. -/
  | bracket
  /-- The fixed part of a formatted literal with that closing quote. -/
  | formatted (quote : Text) (raw : Bool)
  /-- The expression of a replacement field. -/
  | field
  /-- The format after the colon of a replacement field. -/
  | format
  deriving DecidableEq, Repr

def isNameChar (c : Char) : Bool := c.isAlphanum || c == '_' || (127 < c.toNat && c.toNat ≠ 65279)

/-- Number of leading characters that satisfy the predicate. -/
def run (p : Char → Bool) (text : Text) : Nat := (text.takeWhile p).length

/-- Length of a run of digits in which single underscores may stand. -/
def digits (p : Char → Bool) (text : Text) : Nat := run (fun c => p c || c == '_') text

/-- Length of the exponent at the start of a text, zero if there is none. -/
def exponent : Text → Nat
  | e :: rest =>
    if e = 'e' ∨ e = 'E' then
      match rest with
      | '+' :: more | '-' :: more =>
        if digits Char.isDigit more = 0 then 0 else digits Char.isDigit more + 2
      | more => if run Char.isDigit more = 0 then 0 else digits Char.isDigit more + 1
    else 0
  | [] => 0

/-- One if the text starts with the mark of an imaginary number, else zero. -/
def imaginary : Text → Nat
  | 'j' :: _ | 'J' :: _ => 1
  | _ => 0

/-- Length of the decimal number at the start of a text. -/
def decimal (text : Text) : Nat :=
  let whole := digits Char.isDigit text
  let rest := text.drop whole
  let fraction := match rest with
    | '.' :: more => digits Char.isDigit more + 1
    | _ => 0
  let rest := rest.drop fraction
  let power := exponent rest
  whole + fraction + power + imaginary (rest.drop power)

def isHexDigit (c : Char) : Bool :=
  c.isDigit || ('a' ≤ c && c ≤ 'f') || ('A' ≤ c && c ≤ 'F')

def number : Text → Nat
  | '0' :: x :: rest =>
    if x = 'x' ∨ x = 'X' then digits isHexDigit rest + 2
    else if x = 'o' ∨ x = 'O' ∨ x = 'b' ∨ x = 'B' then digits Char.isDigit rest + 2
    else decimal ('0' :: x :: rest)
  | text => decimal text

/-- Length of the rest of a plain literal, its closing quote included. The first `pending`
characters are passed without a look. -/
def literalRest (quote : Text) (pending : Nat) : Text → Nat
  | [] => 0
  | c :: rest =>
    match pending with
    | k + 1 => literalRest quote k rest + 1
    | 0 =>
      if Text.startsWith quote (c :: rest) then quote.length
      else if quote.length = 1 ∧ c = '\n' then 0
      else literalRest quote (if c = '\\' then 1 else 0) rest + 1

/-- The quote that a text starts with. -/
def quoteAt? : Text → Option Text
  | '"' :: '"' :: '"' :: _ => some ['"', '"', '"']
  | '\'' :: '\'' :: '\'' :: _ => some ['\'', '\'', '\'']
  | '"' :: _ => some ['"']
  | '\'' :: _ => some ['\'']
  | _ => none

/-- Whether a name may stand before a quote to say of which kind the literal is. -/
def isLiteralMark (name : Text) : Bool :=
  name.length ≤ 2 && name.all (· ∈ "rRbBuUfF".toList)

/-- The operators of more than one character, longer ones first. -/
def longOperators : List Text :=
  ["**=", "//=", ">>=", "<<=", "...", "==", "!=", "<=", ">=", "->", ":=", "+=", "-=", "*=", "/=",
    "%=", "@=", "&=", "|=", "^=", "**", "//", "<<", ">>"].map String.toList

/-- The length of the operator at the start of a text. -/
def operator (text : Text) : Nat :=
  ((longOperators.find? (Text.startsWith · text)).map List.length).getD 1

/-- What is found at the start of a text: how many characters it takes, what token it is if it is
one, and the frames after it. -/
structure Found where
  length : Nat
  kind : Option TokenKind
  frames : List Frame
  deriving Repr

/-- What stands at the start of the fixed part of a formatted literal. -/
def findFormatted (quote : Text) (raw : Bool) (outer : List Frame) (c : Char) (rest : Text) :
    Found :=
  let here := Frame.formatted quote raw :: outer
  if Text.startsWith quote (c :: rest) then ⟨quote.length, some .closing, outer⟩
  else
    match c, rest with
    | '{', '{' :: _ => ⟨2, none, here⟩
    | '}', '}' :: _ => ⟨2, none, here⟩
    | '{', _ => ⟨1, some .opening, .field :: here⟩
    | '\\', 'N' :: '{' :: more =>
      if raw then ⟨2, none, here⟩ else ⟨run (· ≠ '}') more + 4, none, here⟩
    | '\\', '{' :: _ => ⟨1, none, here⟩
    | '\\', '}' :: _ => ⟨1, none, here⟩
    | '\\', _ :: _ => ⟨2, none, here⟩
    | '\n', _ => if quote.length = 1 then ⟨1, some .closing, outer⟩ else ⟨1, none, here⟩
    | _, _ => ⟨1, none, here⟩

/-- What stands at the start of a format. -/
def findFormat (outer : List Frame) (c : Char) : Found :=
  if c = '{' then ⟨1, some .opening, .field :: .format :: outer⟩
  else if c = '}' then ⟨1, some .closing, outer.drop 1⟩
  else ⟨1, none, .format :: outer⟩

/-- What a quote opens, after a mark of `marked` characters. -/
def findQuote (frames : List Frame) (mark quote rest : Text) : Found :=
  let opened := mark.length + quote.length
  if mark.any (· ∈ ['f', 'F']) then
    ⟨opened, some .opening, .formatted quote (mark.any (· ∈ ['r', 'R'])) :: frames⟩
  else ⟨opened + literalRest quote 0 (rest.drop quote.length), some .literal, frames⟩

/-- What stands at the start of code. -/
def findCode (frames : List Frame) (c : Char) (rest : Text) : Found :=
  let text := c :: rest
  let inField := frames.head? = some .field
  if c = ' ' ∨ c = '\t' ∨ c = '\r' ∨ c = '\x0c' ∨ c = '\uFEFF' then ⟨1, none, frames⟩
  else if c = '\n' then ⟨1, some .lineEnd, frames⟩
  else if Text.startsWith ['\\', '\r', '\n'] text then ⟨3, some .continuation, frames⟩
  else if Text.startsWith ['\\', '\n'] text then ⟨2, some .continuation, frames⟩
  else if c = '#' then ⟨run (· ≠ '\n') text, some .comment, frames⟩
  else if c.isDigit ∨ (c = '.' ∧ rest.head?.any Char.isDigit) then
    ⟨number text, some .number, frames⟩
  else if isNameChar c then
    let name := text.takeWhile isNameChar
    let rest := text.drop name.length
    match quoteAt? rest with
    | some quote =>
      if isLiteralMark name then findQuote frames name quote rest
      else ⟨name.length, some .name, frames⟩
    | none => ⟨name.length, some .name, frames⟩
  else if c = '(' ∨ c = '[' ∨ c = '{' then ⟨1, some .opening, .bracket :: frames⟩
  else if c = ')' ∨ c = ']' ∨ c = '}' then ⟨1, some .closing, frames.drop 1⟩
  else if inField ∧ c = ':' then ⟨1, some .operator, .format :: frames⟩
  else if inField ∧ c = '!' ∧ ¬ Text.startsWith ['='] rest then
    ⟨1 + run isNameChar rest, some .operator, frames⟩
  else
    match quoteAt? text with
    | some quote => findQuote frames [] quote text
    | none => ⟨operator text, some .operator, frames⟩

/-- What stands at the start of a text, given the frames it stands in. -/
def find (frames : List Frame) (c : Char) (rest : Text) : Found :=
  match frames with
  | .formatted quote raw :: outer => findFormatted quote raw outer c rest
  | .format :: outer => findFormat outer c
  | frames => findCode frames c rest

/-- The tokens of a text whose first character starts at byte `offset`. The first `pending`
characters belong to what was found before. -/
def scan (frames : List Frame) (pending offset : Nat) : Text → List Token
  | [] => []
  | c :: rest =>
    match pending with
    | k + 1 => scan frames k (offset + c.utf8Size) rest
    | 0 =>
      let found := find frames c rest
      let further := scan found.frames (found.length - 1) (offset + c.utf8Size) rest
      match found.kind with
      | none => further
      | some kind =>
        let text := (c :: rest).take found.length
        ⟨kind, text, offset, offset + Text.byteSize text⟩ :: further

/-- The tokens of a text, from left to right. -/
def ofText (text : Text) : List Token := scan [] 0 0 text

end Token

end StyleRules
