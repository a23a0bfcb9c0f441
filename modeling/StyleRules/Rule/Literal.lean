import StyleRules.Rule

namespace StyleRules

/-- An edit relative to a place where a text was found. -/
structure RelativeEdit where
  replacement : Text
  shift : Int := 0
  /-- The length of the needle, if absent. -/
  length : Option Int := none
  deriving DecidableEq, Repr

namespace Override

/-- What a file is stored at, if it is stored, is changed; a fault of the store is one of the
correction. -/
def onStore (desk : Desk) (change : Store → Path → Except StoreFault Store) : Except Fault Desk :=
  match desk.file.path with
  | none => .ok desk
  | some path =>
    match change desk.store path with
    | .ok store => .ok { desk with store }
    | .error f => .error (.store f path)

/-- Something happens before the correction that rules share, and something after it. -/
def around (before after : Desk → Except Fault Desk) : Override := fun _ shared desk =>
  match before desk with
  | .error f => (.error f, desk)
  | .ok desk =>
    match shared desk with
    | (.error f, desk) => (.error f, desk)
    | (.ok made, desk) =>
      match after desk with
      | .error f => (.error f, desk)
      | .ok desk => (.ok made, desk)

/-- The directory of the file vanishes before the correction. -/
def loseDirectory : Override := around (onStore · fun store path => store.remove path.parent) .ok

/-- The file vanishes after the correction. -/
def loseFile : Override := around .ok (onStore · Store.remove)

/-- The file holds bytes that are no text after the correction. -/
def garble : Override := around .ok (onStore · fun store path => store.write path [0xff])

/-- The stored contents get a mark that those in memory do not have. -/
def markStored : Override := around .ok fun desk =>
  onStore desk fun store path => store.write path (Text.encode (desk.file.contents ++ ['!']))

/-- The contents in memory get a mark that the stored ones do not have. -/
def markMemory : Override := around .ok fun desk =>
  .ok { desk with file := { desk.file with contents := desk.file.contents ++ ['!'] } }

end Override

/-- What a literal rule looks for and what it does then. -/
structure LiteralRule where
  description : Description
  dialect : Dialect := .python
  silentInComment : Bool := true
  silentInLiteral : Bool := true
  needles : List Text := []
  /-- Whether to search the masked text, and then whether comments are masked too. -/
  masking : Option Bool := none
  /-- How often each find is reported. -/
  repeats : Int := 1
  /-- How far a report stands from the find. -/
  shift : Int := 0
  /-- Whether the place of a report is read as a byte offset. -/
  inBytes : Bool := false
  message : Text := []
  edits : Option (List RelativeEdit) := none
  override : Option Override := none

namespace LiteralRule

/-- The finds in a file: for each needle its occurrences, with the length of the needle. -/
def finds (r : LiteralRule) (f : SourceFile) : List (Nat × Nat) :=
  let text := match r.masking with
    | none => f.contents
    | some comments => mask f.contents f.dialect comments
  r.needles.flatMap fun needle =>
    (Text.occurrences needle text).map fun offset => (offset, needle.length)

/-- The diagnostics of a file. -/
def inspect (r : LiteralRule) (s : Settings) (v : View) : List Diagnostic :=
  (r.finds v.file).flatMap fun (offset, _) =>
    let target : Int := offset + r.shift
    let place := if r.inBytes then SourceFile.placeByte else SourceFile.place
    List.replicate r.repeats.toNat
      (r.description.diagnostic s.severity (place v.file.identifier v.index target) r.message)

/-- The edits of a file; a negative bound makes an edit invalid. -/
def proposals (edits : List RelativeEdit) (r : LiteralRule) (v : View) :
    Except Fault (List Edit) :=
  let all := (r.finds v.file).flatMap fun find => edits.map fun e => (find, e)
  all.mapM fun ((offset, size), e) =>
    match Edit.ofBounds (offset + e.shift) (e.length.getD size) e.replacement with
    | .ok edit => .ok edit
    | .error es => .error (.invalid "TextEdit".toList es)

/-- The kind of rule; `key` tells it apart and `typeName` names it in messages. -/
def kind (r : LiteralRule) (key typeName : Text) : RuleKind :=
  { key
    typeName
    description := r.description
    dialect := r.dialect
    silentInComment := r.silentInComment
    silentInLiteral := r.silentInLiteral
    inspect := fun s v => .ok (r.inspect s v)
    corrector := r.edits.map fun edits =>
      { edits := fun _ v => proposals edits r v, override := r.override } }

end LiteralRule

end StyleRules
