import StyleRules.Rule
import StyleRules.Text.Words

namespace StyleRules

namespace WeakDelegate

/-- The words that make the block after them the body of a type. -/
def typeKeywords : List Text := ["class", "struct", "extension", "enum", "actor"].map String.toList

/-- The words that make the block after them no body of a type. -/
def bodyKeywords : List Text :=
  ["func", "init", "deinit", "var", "let", "get", "set", "willSet", "didSet", "subscript",
    "protocol"].map String.toList

/-- The words that keep a declaration from owning what it refers to. -/
def ownershipKeywords : List Text := ["weak", "unowned"].map String.toList

def startsKeyword (c : Char) : Bool := c.isAlpha || c == '_'

/-- The pieces of a text between line boundaries. -/
def pieces : Text → List Text
  | [] => [[]]
  | c :: rest =>
    if Text.isLineBoundary c then [] :: pieces rest
    else match pieces rest with
      | piece :: more => (c :: piece) :: more
      | [] => [[c]]

/-- The keywords of a header: those on its last line that is not blank. A word counts from its
first letter on. -/
def headerWords (header : Text) : List Text :=
  let lines := (pieces header).filter fun line => line.any (!Text.isBlank ·)
  ((Text.words (lines.getLastD [])).map fun word => word.dropWhile (!startsKeyword ·)).filter
    (· ≠ [])

/-- Whether the header before an opening brace declares a type. -/
def declaresType (header : Text) : Bool :=
  let words := headerWords header
  words.any (· ∈ typeKeywords) && !words.any (· ∈ bodyKeywords)

/-- The bodies of types, while code is read: the text since the last statement boundary, last
character first; the open blocks, innermost first; and the bodies closed so far. -/
structure Blocks where
  header : Text
  stack : List (Nat × Bool)
  scopes : List (Nat × Nat)

namespace Blocks

/-- Reads the character at an offset. -/
def read (b : Blocks) (offset : Nat) (c : Char) : Blocks :=
  if c = '{' then
    { b with header := [], stack := (offset + 1, declaresType b.header.reverse) :: b.stack }
  else if c = '}' then
    match b.stack with
    | (start, isType) :: stack =>
      { header := [], stack, scopes := if isType then (start, offset) :: b.scopes else b.scopes }
    | [] => { b with header := [] }
  else if c = ';' then { b with header := [] }
  else { b with header := c :: b.header }

/-- Reads code whose first character stands at an offset. -/
def readFrom (b : Blocks) (offset : Nat) : Text → Blocks
  | [] => b
  | c :: rest => readFrom (b.read offset c) (offset + 1) rest

end Blocks

/-- Where the closed bodies of types start and stop, in the order in which they close. -/
def scopes (code : Text) : List (Nat × Nat) :=
  (Blocks.readFrom { header := [], stack := [], scopes := [] } 0 code).scopes.reverse

/-- The scope that starts last among those that hold an offset. -/
def innermost? (scopes : List (Nat × Nat)) (offset : Nat) : Option (Nat × Nat) :=
  (scopes.filter fun s => s.1 ≤ offset && offset < s.2).foldl (fun best s =>
    match best with
    | some b => if b.1 < s.1 then some s else some b
    | none => some s) none

/-- How many more braces open than close in a text. -/
def depth (code : Text) : Int :=
  code.foldl (fun d c => if c = '{' then d + 1 else if c = '}' then d - 1 else d) 0

/-- Whether an offset lies in a block of its own within a scope. -/
def isNested (code : Text) (scope : Nat × Nat) (offset : Nat) : Bool :=
  0 < depth ((code.drop scope.1).take (offset - scope.1))

/-- The name of the variable that a text declares at its start, and the length of the
declaration up to the end of the name. -/
def declared? (text : Text) : Option (Text × Nat) :=
  if Text.startsWith "var".toList text then
    let rest := text.drop 3
    let gap := rest.takeWhile Text.isBlank
    let name := (rest.dropWhile Text.isBlank).takeWhile Text.isWordChar
    if gap = [] ∨ name = [] then none else some (name, 3 + gap.length + name.length)
  else none

/-- The variables that a text declares, each with the offset of its declaration. The first `pending`
characters belong to a declaration found before. -/
def declarationsFrom (afterWord : Bool) (pending offset : Nat) : Text → List (Nat × Text)
  | [] => []
  | c :: rest =>
    match pending with
    | k + 1 => declarationsFrom (Text.isWordChar c) k (offset + 1) rest
    | 0 =>
      match if afterWord then none else declared? (c :: rest) with
      | some (name, length) =>
        (offset, name) :: declarationsFrom (Text.isWordChar c) (length - 1) (offset + 1) rest
      | none => declarationsFrom (Text.isWordChar c) 0 (offset + 1) rest

/-- The variables that code declares, each with the offset of its declaration. -/
def declarations (code : Text) : List (Nat × Text) := declarationsFrom false 0 0 code

def isDelegate (name : Text) : Bool := "delegate".toList.isSuffixOf (Text.lower name)

/-- The code of the line of an offset that comes before it. -/
def lineBefore (code : Text) (offset : Nat) : Text :=
  ((code.take offset).reverse.takeWhile (· ≠ '\n')).reverse

/-- Whether the line of an offset says before it that a declaration does not own. -/
def isUnowned (code : Text) (offset : Nat) : Bool :=
  (Text.words (lineBefore code offset)).any (· ∈ ownershipKeywords)

/-- Whether an offset lies directly in the closed body of a type. -/
def inTypeBody (code : Text) (scopes : List (Nat × Nat)) (offset : Nat) : Bool :=
  match innermost? scopes offset with
  | none => false
  | some scope => !isNested code scope offset

/-- The offsets of the declarations of delegates that own. -/
def violationsIn (code : Text) : List Nat :=
  let scopes := scopes code
  (declarations code).filterMap fun (offset, name) =>
    if isDelegate name && inTypeBody code scopes offset && !isUnowned code offset then some offset
    else none

/-- The offsets of the declarations that violate the rule in a text. -/
def violations (text : Text) : List Nat := violationsIn (mask text .swift)

def description : Description :=
  { identifier := "weak_delegate".toList
    name := "Weak Delegate".toList
    summary := "Delegates should be weak to avoid reference cycles.".toList
    nonTriggering :=
      ["class Foo \x7b\n  weak var delegate: SomeProtocol?\n\x7d\n",
        "class Foo \x7b\n  weak var someDelegate: SomeDelegateProtocol?\n\x7d\n",
        "class Foo \x7b\n  weak var delegateScroll: ScrollDelegate?\n\x7d\n",
        "class Foo \x7b\n  var scrollHandler: ScrollDelegate?\n\x7d\n",
        "func foo() \x7b\n  var delegate: SomeDelegate\n\x7d\n",
        "class Foo \x7b\n  var delegateNotified: Bool?\n\x7d\n"].map String.toList
    triggering :=
      ["class Foo \x7b\n  ↓var delegate: SomeProtocol?\n\x7d\n",
        "class Foo \x7b\n  ↓var scrollDelegate: ScrollDelegate?\n\x7d\n"].map String.toList
    corrections :=
      [("class Foo \x7b\n  ↓var delegate: SomeProtocol?\n\x7d\n",
          "class Foo \x7b\n  weak var delegate: SomeProtocol?\n\x7d\n"),
        ("struct Foo \x7b\n  private ↓var scrollDelegate: ScrollDelegate?\n\x7d\n",
          "struct Foo \x7b\n  private weak var scrollDelegate: ScrollDelegate?\n\x7d\n")].map
        fun (before, after) => ⟨before.toList, after.toList⟩ }

/-- The edits that make the delegates of a text weak. -/
def edits (text : Text) : List Edit :=
  (violations text).map fun offset =>
    { offset, length := 0, replacement := "weak ".toList }

end WeakDelegate

def RuleKind.weakDelegate : RuleKind :=
  { key := "weak_delegate".toList
    typeName := "WeakDelegateRule".toList
    description := WeakDelegate.description
    dialect := .swift
    inspect := fun s v =>
      .ok ((WeakDelegate.violations v.file.contents).map fun (offset : Nat) =>
        WeakDelegate.description.diagnostic s.severity
          (SourceFile.place v.file.identifier v.index offset))
    corrector := some { edits := fun _ v => .ok (WeakDelegate.edits v.file.contents) } }

end StyleRules
