import StyleRules.Text.Blank
import StyleRules.Text.Utf8

namespace StyleRules

/-- A value as written; `endless` stands for the infinities and for what is no number. A value of
another kind, such as a date or a set, has its kind, the text that shows it, and its items. -/
inductive Value where
  | null
  | bool (b : Bool)
  | int (n : Int)
  | decimal (mantissa exponent : Int)
  | endless
  | text (t : Text)
  | bytes (b : Bytes)
  | list (items : List Value)
  | map (entries : List (Value × Value))
  | other (kind shown : Text) (items : Option (List Value))
  deriving Repr, Inhabited

/-- What is wrong with a field of a written value. -/
inductive FieldFault where
  | missing
  | unexpected
  | notAMember
  | tooSmall
  | integerSyntax
  | integerSize
  | notAnInteger
  | fractional
  | notFinite
  | notAText
  | textEncoding
  | notABool
  | pattern
  | notASequence
  | notASet
  | notAMapping
  | tooLong
  | badKey
  | rejected (reason : Text)
  deriving DecidableEq, Repr

/-- A fault together with the way from the whole value to the field. -/
structure FieldError where
  path : List Text
  fault : FieldFault
  deriving DecidableEq, Repr

/-- A reading of a value either succeeds or lists every faulty field. -/
abbrev Reading (α : Type) := Except (List FieldError) α

namespace Value

/-- The name of the kind of value, as messages show it. -/
def kindName : Value → Text
  | null => "NoneType".toList
  | bool _ => "bool".toList
  | int _ => "int".toList
  | decimal .. => "float".toList
  | endless => "float".toList
  | text _ => "str".toList
  | bytes _ => "bytes".toList
  | list _ => "list".toList
  | map _ => "dict".toList
  | other kind _ _ => kind

/-- Whether the value says nothing: null, false, zero, or empty. -/
def isVoid : Value → Bool
  | null => true
  | bool b => !b
  | int n => n == 0
  | decimal m _ => m == 0
  | endless => false
  | text t => t.isEmpty
  | bytes b => b.isEmpty
  | list items => items.isEmpty
  | map entries => entries.isEmpty
  | other _ _ items => items.any (·.isEmpty)

mutual

/-- Whether two values are the same key of a mapping. -/
def sameAs : Value → Value → Bool
  | null, null => true
  | bool a, bool b => a == b
  | int a, int b => a == b
  | decimal m e, decimal m' e' => m == m' && e == e'
  | endless, endless => true
  | text a, text b => a == b
  | bytes a, bytes b => a == b
  | list a, list b => sameItems a b
  | other k a _, other k' b _ => k == k' && a == b
  | _, _ => false

def sameItems : List Value → List Value → Bool
  | [], [] => true
  | a :: as, b :: bs => sameAs a b && sameItems as bs
  | _, _ => false

end

/-- Adds an entry; a key that is there already keeps its place and takes the new value. -/
def insertEntry (key value : Value) : List (Value × Value) → List (Value × Value)
  | [] => [(key, value)]
  | (k, v) :: rest =>
    if sameAs k key then (k, value) :: rest else (k, v) :: insertEntry key value rest

/-- The entry of a mapping under a text key. -/
def entry? (name : Text) : List (Value × Value) → Option Value
  | [] => none
  | (text k, v) :: rest => if k = name then some v else entry? name rest
  | _ :: rest => entry? name rest

/-- A number with zeros put after its digits. -/
def withZeros (n : Int) : Nat → Int
  | 0 => n
  | count + 1 => withZeros (n * 10) count

/-- The integer that a decimal equals, or whether it is fractional or beyond 64 bits. -/
def wholeOfDecimal (mantissa exponent : Int) : Except FieldFault Int :=
  let whole : Option Int :=
    match exponent with
    | .ofNat e => some (withZeros mantissa e)
    | .negSucc e =>
      let unit := withZeros 1 (e + 1)
      if mantissa % unit = 0 then some (mantissa / unit) else none
  match whole with
  | none => .error .fractional
  | some n => if n.natAbs < 9223372036854775808 then .ok n else .error .integerSize

/-- Digits in which single underscores may stand between two digits. -/
def digitsOf : Text → Option Text
  | [] => some []
  | [c] => if c.isDigit then some [c] else none
  | c :: '_' :: d :: rest =>
    if c.isDigit && d.isDigit then (digitsOf (d :: rest)).map (c :: ·) else none
  | c :: rest => if c.isDigit then (digitsOf rest).map (c :: ·) else none

/-- The natural number that decimal digits write. -/
def naturalOf (digits : Text) : Nat :=
  digits.foldl (fun n c => n * 10 + (c.toNat - '0'.toNat)) 0

/-- The integer that a text writes: an optional sign, digits with underscores between them, and
an optional fraction of zeros, with blanks around the whole. -/
def integerOfText (t : Text) : Option Int :=
  let t := Text.trim Text.isBlank t
  let (negative, t) := match t with
    | '+' :: rest => (false, rest)
    | '-' :: rest => (true, rest)
    | rest => (false, rest)
  let whole := t.takeWhile (· ≠ '.')
  let fraction := (t.dropWhile (· ≠ '.')).drop 1
  match digitsOf whole with
  | some (d :: ds) =>
    if fraction.all (· == '0') then
      let n : Int := naturalOf (d :: ds)
      some (if negative then -n else n)
    else none
  | _ => none

/-- Reads an integer field: integers, truth values, whole decimals and integers in text, which may
be given by its bytes. -/
def toInteger : Value → Except FieldFault Int
  | int n => .ok n
  | bool b => .ok (if b then 1 else 0)
  | decimal m e => wholeOfDecimal m e
  | endless => .error .notFinite
  | text t => match integerOfText t with
    | some n => .ok n
    | none => .error .integerSyntax
  | bytes b => match (Text.decode? b).bind integerOfText with
    | some n => .ok n
    | none => .error .integerSyntax
  | _ => .error .notAnInteger

/-- Reads a text field: a text, which may be given by its bytes. -/
def toText : Value → Except FieldFault Text
  | text t => .ok t
  | bytes b => match Text.decode? b with
    | some t => .ok t
    | none => .error .textEncoding
  | _ => .error .notAText

end Value

/-- Fields read one after the other: the faults of all of them add up. -/
def Reading.both {α β γ : Type} (f : α → β → γ) (a : Reading α) (b : Reading β) : Reading γ :=
  match a, b with
  | .ok x, .ok y => .ok (f x y)
  | .error es, .ok _ => .error es
  | .ok _, .error es => .error es
  | .error es, .error fs => .error (es ++ fs)

namespace Reading

/-- A fault found in the field of that name becomes a fault of the whole. -/
def under {α : Type} (name : Text) (reading : Reading α) : Reading α :=
  reading.mapError (·.map fun e => { e with path := name :: e.path })

/-- A single fault at the place where reading stands. -/
def fault {α : Type} (f : FieldFault) : Reading α := .error [{ path := [], fault := f }]

/-- Reads a value that has no parts. -/
def ofExcept {α : Type} : Except FieldFault α → Reading α
  | .ok a => .ok a
  | .error f => fault f

def required {α : Type} (entries : List (Value × Value)) (name : Text)
    (read : Value → Reading α) : Reading α :=
  match Value.entry? name entries with
  | some v => under name (read v)
  | none => under name (fault .missing)

def optional {α : Type} (entries : List (Value × Value)) (name : Text) (default : α)
    (read : Value → Reading α) : Reading α :=
  match Value.entry? name entries with
  | some v => under name (read v)
  | none => .ok default

/-- The items of a list, each under its position. -/
def items {α : Type} (read : Value → Reading α) (position : Nat) : List Value → Reading (List α)
  | [] => .ok []
  | v :: rest =>
    both List.cons (under (Text.ofNat position) (read v)) (items read (position + 1) rest)

/-- A list field; `otherwise` is the fault if it holds no list. -/
def sequence {α : Type} (read : Value → Reading α) (otherwise : FieldFault := .notASequence) :
    Value → Reading (List α)
  | .list vs => items read 0 vs
  | _ => fault otherwise

def text (v : Value) : Reading Text := ofExcept v.toText

/-- An integer field with a least value. -/
def atLeast (least : Nat) (v : Value) : Reading { n : Nat // least ≤ n } :=
  match v.toInteger with
  | .ok n => if h : (least : Int) ≤ n then .ok ⟨n.toNat, by omega⟩ else fault .tooSmall
  | .error f => fault f

/-- The faults of the entries whose keys are no field: each is unexpected. -/
def unexpected (names : List Text) (entries : List (Value × Value)) : List FieldError :=
  entries.filterMap fun (key, _) =>
    match key with
    | .text k => if k ∈ names then none else some { path := [k], fault := .unexpected }
    | .int n => some { path := [Text.ofInt n], fault := .badKey }
    | _ => some { path := [], fault := .badKey }

end Reading

end StyleRules
