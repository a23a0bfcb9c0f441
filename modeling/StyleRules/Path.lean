import StyleRules.Text.Basic

namespace StyleRules

/-- An absolute path: the names from the root on. The name ".." means the directory above. -/
structure Path where
  parts : List Text
  deriving DecidableEq, Repr

namespace Path

def root : Path := ⟨[]⟩

/-- The path written with slashes. -/
def toText (p : Path) : Text := '/' :: Text.join ['/'] p.parts

/-- The path that a text continues a path to; a text that starts with a slash starts anew. Empty
names and single dots say nothing. -/
def extend (p : Path) (text : Text) : Path :=
  let names := (Text.splitOn '/' text).filter fun name => name ≠ [] && name ≠ ['.']
  if text.head? = some '/' then ⟨names⟩ else ⟨p.parts ++ names⟩

/-- The path with one more name. -/
def child (p : Path) (name : Text) : Path := ⟨p.parts ++ [name]⟩

def parent (p : Path) : Path := ⟨p.parts.dropLast⟩

def name (p : Path) : Text := p.parts.getLastD []

/-- The end of the last name from its last dot on. A dot at either end of the name starts no
suffix. -/
def suffix (p : Path) : Text :=
  let stem := (p.name.reverse.dropWhile (· ≠ '.')).drop 1
  let tail := p.name.drop (stem.length + 1)
  if stem = [] ∨ tail = [] then [] else '.' :: tail

/-- Follows names from a directory, given from the innermost name on. -/
def follow (directory : List Text) : List Text → List Text
  | [] => directory.reverse
  | name :: rest =>
    if name = ['.', '.'] then follow (directory.drop 1) rest else follow (name :: directory) rest

/-- The path without "..". -/
def resolve (p : Path) : Path := ⟨follow [] p.parts⟩

/-- Whether a path leads into a directory, to the directory itself or below. -/
def isWithin (p directory : Path) : Bool := directory.parts.isPrefixOf p.parts

def isBelow (p directory : Path) : Bool := p.isWithin directory && p != directory

/-- Paths in the order of their names. -/
def atMost (a b : Path) : Bool := compare a.parts b.parts != .gt

end Path

end StyleRules
