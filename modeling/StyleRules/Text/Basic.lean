namespace StyleRules

/-- A text is the list of its characters, and every offset counts characters. -/
abbrev Text := List Char

/-- Texts that compare as equal are equal. -/
instance Text.lawfulBEq : LawfulBEq Text := inferInstance

namespace Text

/-- The parts in order, with the separator between each two of them. -/
def join (separator : Text) : List Text → Text
  | [] => []
  | [part] => part
  | part :: rest => part ++ separator ++ join separator rest

def splitOn (c : Char) : Text → List Text
  | [] => [[]]
  | x :: rest =>
    if x = c then [] :: splitOn c rest
    else match splitOn c rest with
      | piece :: pieces => (x :: piece) :: pieces
      | [] => [[x]]

def startsWith (needle text : Text) : Bool := needle.isPrefixOf text

/-- Offsets of the occurrences of a needle that do not overlap an earlier one. The first
`skip` characters belong to an occurrence already found; an empty needle occurs nowhere. -/
def occurrencesFrom (needle : Text) (skip offset : Nat) : Text → List Nat
  | [] => []
  | c :: rest =>
    match skip with
    | k + 1 => occurrencesFrom needle k (offset + 1) rest
    | 0 =>
      if needle ≠ [] ∧ startsWith needle (c :: rest) then
        offset :: occurrencesFrom needle (needle.length - 1) (offset + 1) rest
      else occurrencesFrom needle 0 (offset + 1) rest

/-- Offsets of the non-overlapping occurrences of a needle, from left to right. -/
def occurrences (needle text : Text) : List Nat := occurrencesFrom needle 0 0 text

/-- The text before the first occurrence of the needle, or the whole text. -/
def before (needle : Text) : Text → Text
  | [] => []
  | c :: rest => if startsWith needle (c :: rest) then [] else c :: before needle rest

def replaceChar (c : Char) (replacement text : Text) : Text :=
  text.flatMap fun x => if x = c then replacement else [x]

def ofNat (n : Nat) : Text := Nat.toDigits 10 n

def ofInt : Int → Text
  | .ofNat n => ofNat n
  | .negSucc n => '-' :: ofNat (n + 1)

/-- A text without the leading characters that satisfy the predicate and without the trailing
ones. -/
def trim (p : Char → Bool) (text : Text) : Text :=
  ((text.dropWhile p).reverse.dropWhile p).reverse

end Text

/-- A list put into the order of a relation; elements that the relation does not separate keep
their order. -/
def sortBy {α : Type} (le : α → α → Bool) : List α → List α
  | [] => []
  | x :: rest => place x (sortBy le rest)
where
  /-- Puts an element before the first one that it may stand before. -/
  place (x : α) : List α → List α
    | [] => [x]
    | y :: ys => if le x y then x :: y :: ys else y :: place x ys

end StyleRules
