import StyleRules.Value

namespace StyleRules

theorem one_le_of_mem_none : ∀ n ∈ (none : Option Nat), 1 ≤ n := fun _ h => by cases h

/-- A place in a file. Without line and character it means the file as a whole; lines and
characters count from one. -/
@[ext]
structure Location where
  file : Option Text := none
  line : Option Nat := none
  character : Option Nat := none
  one_le_line : ∀ n ∈ line, 1 ≤ n := by
    first | exact one_le_of_mem_none | (intro n h; cases h; exact Nat.le_of_ble_eq_true rfl)
  one_le_character : ∀ n ∈ character, 1 ≤ n := by
    first | exact one_le_of_mem_none | (intro n h; cases h; exact Nat.le_of_ble_eq_true rfl)
  deriving DecidableEq, Repr

namespace Location

/-- The place of a character. -/
def point (file : Option Text) (line character : Nat)
    (hline : 1 ≤ line := by first | exact Nat.le_of_ble_eq_true rfl | omega)
    (hcharacter : 1 ≤ character := by first | exact Nat.le_of_ble_eq_true rfl | omega) :
    Location :=
  { file
    line := some line
    character := some character
    one_le_line := fun _ h => Option.mem_some.mp h ▸ hline
    one_le_character := fun _ h => Option.mem_some.mp h ▸ hcharacter }

section Point

variable {file : Option Text} {line character : Nat} (hline : 1 ≤ line)
  (hcharacter : 1 ≤ character)

@[simp]
theorem point_line : (point file line character hline hcharacter).line = some line := rfl

@[simp]
theorem point_character :
    (point file line character hline hcharacter).character = some character := rfl

end Point

/-- The order of locations: file, then line, then character. -/
def compare (a b : Location) : Ordering :=
  (Ord.compare a.file b.file).then
    ((Ord.compare a.line b.line).then (Ord.compare a.character b.character))

def before (a b : Location) : Bool := compare a b == .lt

/-- The first location stands before the second or is the same. -/
def atMost (a b : Location) : Bool := compare a b != .gt

/-- A key that orders locations: each part as a flag for its presence and its value, where an
absent file counts as the empty name and an absent number as zero. -/
def sortKey (l : Location) : Bool × Text × Bool × Nat × Bool × Nat :=
  (l.file.isSome, l.file.getD [], l.line.isSome, l.line.getD 0, l.character.isSome,
    l.character.getD 0)

/-- Whether the location names a line and a character. -/
def isResolved (l : Location) : Bool := l.line.isSome && l.character.isSome

/-- The written form: the file, then the line and the character after colons, as far as they are
known. -/
def toText (l : Location) : Text :=
  l.file.getD "<nopath>".toList
    ++ (l.line.map fun n => ':' :: Text.ofNat n).getD []
    ++ (l.character.map fun n => ':' :: Text.ofNat n).getD []

/-- Ascending, with equal locations in the order given. -/
def sortOn {α : Type} (location : α → Location) (items : List α) : List α :=
  sortBy (fun a b => (location a).atMost (location b)) items

/-- Descending, with equal locations in the order given. -/
def sortDescendingOn {α : Type} (location : α → Location) (items : List α) : List α :=
  sortBy (fun a b => (location b).atMost (location a)) items

/-- Reads a number that is absent or at least one. -/
def readCount : Value → Reading { n : Option Nat // ∀ m ∈ n, 1 ≤ m }
  | .null => .ok ⟨none, one_le_of_mem_none⟩
  | v => (Reading.atLeast 1 v).map fun n => ⟨some n.val, by simpa using n.property⟩

def ofParts (file line character : Value) : Reading Location :=
  let file : Reading (Option Text) := match file with
    | .null => .ok none
    | v => (Reading.text v).map some
  Reading.both
    (fun f (lc : { n : Option Nat // ∀ m ∈ n, 1 ≤ m } × { n : Option Nat // ∀ m ∈ n, 1 ≤ m }) =>
      ⟨f, lc.1, lc.2, lc.1.property, lc.2.property⟩)
    (Reading.under "file".toList file)
    (Reading.both Prod.mk (Reading.under "line".toList (readCount line))
      (Reading.under "character".toList (readCount character)))

end Location

end StyleRules
