import StyleRules.Value

namespace StyleRules

namespace Yaml

/-- The spellings of a word: small, capitalised, and in capitals. -/
def spellings (word : String) : List Text :=
  let small := word.toList
  [small, (small.take 1).map Char.toUpper ++ small.drop 1, small.map Char.toUpper]

def nullWords : List Text := [] :: ['~'] :: spellings "null"

def trueWords : List Text := ["yes", "true", "on"].flatMap spellings

def falseWords : List Text := ["no", "false", "off"].flatMap spellings

def digit? (base : Nat) (c : Char) : Option Nat :=
  let value :=
    if c.isDigit then some (c.toNat - '0'.toNat)
    else if 'a' ≤ c ∧ c ≤ 'f' then some (c.toNat - 'a'.toNat + 10)
    else if 'A' ≤ c ∧ c ≤ 'F' then some (c.toNat - 'A'.toNat + 10)
    else none
  value.filter (· < base)

/-- The number that digits write; underscores between them say nothing. -/
def numeral? (base : Nat) (digits : Text) : Option Nat :=
  (digits.filter (· ≠ '_')).foldl
    (fun n c => n.bind fun n => (digit? base c).map fun d => n * base + d) (some 0)

/-- Whether a text starts with a digit and has only digits and underscores. -/
def isNumeral (text : Text) : Bool :=
  text.head?.any Char.isDigit && text.all fun c => c.isDigit || c == '_'

/-- Whether a text is a number below sixty of one or two digits. -/
def isSixtieth (text : Text) : Bool :=
  match text with
  | [c] => c.isDigit
  | [c, d] => '0' ≤ c && c ≤ '5' && d.isDigit
  | _ => false

/-- The number whose digits to base sixty are written with colons between them. -/
def sixties? (text : Text) : Option Nat :=
  match Text.splitOn ':' text with
  | first :: second :: rest =>
    if isNumeral first ∧ (second :: rest).all isSixtieth then
      (first :: second :: rest).foldl
        (fun n part => n.bind fun n => (numeral? 10 part).map fun d => n * 60 + d) (some 0)
    else none
  | _ => none

/-- The natural number that a text without sign writes. -/
def natural? (text : Text) : Option Nat :=
  match text with
  | '0' :: 'b' :: digits => if digits = [] then none else numeral? 2 digits
  | '0' :: 'x' :: digits => if digits = [] then none else numeral? 16 digits
  | ['0'] => some 0
  | '0' :: digits => numeral? 8 digits
  | _ => if isNumeral text then numeral? 10 text else sixties? text

/-- The sign of a number and what follows it. -/
def signed (text : Text) : Bool × Text :=
  match text with
  | '-' :: rest => (true, rest)
  | '+' :: rest => (false, rest)
  | _ => (false, text)

/-- The integer that a text writes. -/
def integer? (text : Text) : Option Int :=
  let (negative, rest) := signed text
  (natural? rest).map fun n => if negative then -(n : Int) else n

/-- The exponent that a text ends with; it has to be signed. -/
def exponent? (text : Text) : Option Int :=
  match text with
  | [] => some 0
  | 'e' :: sign :: digits | 'E' :: sign :: digits =>
    if (sign = '+' ∨ sign = '-') ∧ digits ≠ [] ∧ digits.all Char.isDigit then
      (numeral? 10 digits).map fun n => if sign = '-' then -(n : Int) else n
    else none
  | _ => none

/-- The decimal that a text writes: digits, a point, and further digits, of which there has to be
one when none comes before the point. -/
def decimal? (text : Text) : Option Value :=
  let (negative, rest) := signed text
  let inner (c : Char) : Bool := c.isDigit || c == '_' || c == ':'
  let whole := rest.takeWhile inner
  match rest.dropWhile inner with
  | '.' :: rest =>
    let places := (rest.takeWhile fun c => c.isDigit || c == '_')
    let digits := places.filter (· ≠ '_')
    let fits := if whole = [] then text = '.' :: rest && isNumeral places
      else isNumeral whole || (sixties? whole).isSome
    let base := if isNumeral whole then numeral? 10 whole else some ((sixties? whole).getD 0)
    match base, numeral? 10 digits, exponent? (rest.dropWhile fun c => c.isDigit || c == '_') with
    | some n, some d, some e =>
      if fits then
        let m := Value.withZeros n digits.length + d
        some (.decimal (if negative then -m else m) (e - digits.length))
      else none
    | _, _, _ => none
  | _ => none

/-- The spellings of what has no end and of what is no number. -/
def endlessWords : List Text :=
  let infinite := [".inf", ".Inf", ".INF"].map String.toList
  infinite ++ infinite.map ('+' :: ·) ++ infinite.map ('-' :: ·)
    ++ [".nan", ".NaN", ".NAN"].map String.toList

/-- What a plain scalar stands for. -/
def ofPlain (text : Text) : Value :=
  if text ∈ nullWords then .null
  else if text ∈ trueWords then .bool true
  else if text ∈ falseWords then .bool false
  else if text ∈ endlessWords then .endless
  else match integer? text with
    | some n => .int n
    | none => (decimal? text).getD (.text text)

end Yaml

end StyleRules
