import StyleRules.Directive
import StyleRules.Edit
import StyleRules.ParseCache

namespace StyleRules

/-- A text that rules run against. -/
structure SourceFile where
  contents : Text
  dialect : Dialect := .python
  path : Option Path := none
  deriving Repr

/-- A file at hand with all that reading and correcting it touches. -/
structure Desk where
  file : SourceFile
  cache : ParseCache := {}
  store : Store := {}

namespace SourceFile

/-- The name of the file in locations; a text in memory only has none. -/
def identifier (f : SourceFile) : Option Text := f.path.map Path.toText

/-- The place of a character offset in a file, or the file as a whole if there is none. -/
def place (file : Option Text) (index : LineIndex) (offset : Int) : Location :=
  match h : index.position? offset with
  | some (line, character) =>
    .point file line character (LineIndex.one_le_of_position? h).1
      (LineIndex.one_le_of_position? h).2
  | none => { file }

/-- The place of a byte offset in a file, or the file as a whole if there is none. -/
def placeByte (file : Option Text) (index : LineIndex) (byteOffset : Int) : Location :=
  match index.characterOffset? byteOffset with
  | some offset => place file index offset
  | none => { file }

def directives (f : SourceFile) : List Directive := Directive.ofText f.contents f.dialect

/-- Whether the directives of the file leave a rule enabled at a location. -/
def isEnabled (f : SourceFile) (rule : Text) (l : Location) : Bool :=
  Directive.leaveEnabled f.directives rule l

def load (store : Store) (path : Path) (dialect : Dialect := .python) : Except Fault SourceFile :=
  match store.read path with
  | .error f => .error (.store f path)
  | .ok bytes =>
    match Text.decode? bytes with
    | some contents => .ok { contents, dialect, path := some path }
    | none => .error .undecodable

end SourceFile

namespace Desk

/-- Gives the file new contents. A stored file is written first, and keeps its contents in memory
if it cannot be written. -/
def replaceContents (desk : Desk) (contents : Text) : Except Fault Desk :=
  match desk.file.path with
  | none => .ok { desk with file := { desk.file with contents } }
  | some path =>
    match desk.store.write path (Text.encode contents) with
    | .error f => .error (.store f path)
    | .ok store => .ok { desk with file := { desk.file with contents }, store }

end Desk

end StyleRules
