import StyleRules.Document
import StyleRules.Yaml.Cursor
import StyleRules.Yaml.Scalar

namespace StyleRules

namespace Yaml

/-- A node that was read: its value, where it ends, and whether it can be a key, which it can if
it is a scalar on one line. -/
structure Node where
  value : Value
  stop : Cursor
  isKey : Bool

def scalar (flow : Bool) (indent : Nat) (c : Cursor) : Option Node :=
  let fuel := c.rest.length + 1
  match c.rest with
  | '\'' :: rest =>
    (singleFrom (c.column + 1) fuel rest).map fun (t, stop, crossed) => ⟨.text t, stop, !crossed⟩
  | '"' :: rest =>
    (doubleFrom (c.column + 1) fuel rest).map fun (t, stop, crossed) => ⟨.text t, stop, !crossed⟩
  | text =>
    if startsPlain flow text then
      let (t, stop, crossed) := plainFrom flow indent c fuel
      some ⟨ofPlain t, stop, !crossed⟩
    else none

/-- The cursor after a colon that makes what comes before it a key. Within brackets the colon
needs no gap after it. -/
def afterColon? (flow : Bool) (c : Cursor) : Option Cursor :=
  match c.pastSpaces.rest with
  | ':' :: rest => if flow || atGap rest then some (c.pastSpaces.advance 1) else none
  | _ => none

mutual

def flowNode : Nat → Cursor → Option Node
  | 0, _ => none
  | fuel + 1, c =>
    match c.rest with
    | '[' :: _ => flowItems fuel [] (c.advance 1)
    | '\x7b' :: _ => flowEntries fuel [] (c.advance 1)
    | _ => scalar true 0 c

/-- Reads the items of a list in brackets, where `read` holds those before, last one first. -/
def flowItems : Nat → List Value → Cursor → Option Node
  | 0, _, _ => none
  | fuel + 1, read, c => do
    let (c, _) := c.skip
    if c.rest.head? = some ']' then
      return ⟨.list read.reverse, c.advance 1, false⟩
    let item ← flowNode fuel c
    let (value, stop) ← match afterColon? true item.stop with
      | none => some (item.value, item.stop)
      | some c =>
        if item.isKey then
          (flowValue fuel c).map fun (v, stop) => (.map [(item.value, v)], stop)
        else none
    let (c, _) := stop.skip
    match c.rest with
    | ',' :: _ => flowItems fuel (value :: read) (c.advance 1)
    | ']' :: _ => some ⟨.list (value :: read).reverse, c.advance 1, false⟩
    | _ => none

/-- Reads the entries of a mapping in brackets, where `read` holds those before. -/
def flowEntries : Nat → List (Value × Value) → Cursor → Option Node
  | 0, _, _ => none
  | fuel + 1, read, c => do
    let (c, _) := c.skip
    if c.rest.head? = some '\x7d' then
      return ⟨.map read, c.advance 1, false⟩
    let key ← flowNode fuel c
    let (value, stop) ← match key.value, afterColon? true key.stop with
      | .list _, _ | .map _, _ => none
      | _, none => some (.null, key.stop)
      | _, some c => if key.isKey then flowValue fuel c else none
    let read := Value.insertEntry key.value value read
    let (c, _) := stop.skip
    match c.rest with
    | ',' :: _ => flowEntries fuel read (c.advance 1)
    | '\x7d' :: _ => some ⟨.map read, c.advance 1, false⟩
    | _ => none

/-- Reads what follows the colon after a key within brackets; nothing may follow. -/
def flowValue : Nat → Cursor → Option (Value × Cursor)
  | 0, _ => none
  | fuel + 1, c =>
    let (c, _) := c.skip
    match c.rest with
    | ',' :: _ | ']' :: _ | '\x7d' :: _ => some (.null, c)
    | _ => (flowNode fuel c).map fun node => (node.value, node.stop)

end

/-- Whether an item of a block list starts here. -/
def startsItem (c : Cursor) : Bool :=
  match c.rest with
  | '-' :: rest => atGap rest
  | _ => false

/-- Reads a node that is no list or mapping in block form. -/
def leaf (indent : Nat) (c : Cursor) : Option Node :=
  match c.rest with
  | '[' :: _ | '\x7b' :: _ => flowNode (2 * c.rest.length + 2) c
  | _ => scalar false indent c

/-- Reads a key in block form and the colon after it. -/
def key? (c : Cursor) : Option (Value × Cursor) := do
  let node ← leaf (c.column + 1) c
  let after ← afterColon? false node.stop
  if node.isKey then some (node.value, after) else none

mutual

/-- Reads a node in block form. Lists and mappings may only start where `compact` allows it, and
scalars go on to further lines that are indented by at least `indent`. -/
def block : Nat → Bool → Nat → Cursor → Option (Value × Cursor)
  | 0, _, _, _ => none
  | fuel + 1, compact, indent, c =>
    if startsItem c then
      if compact then items fuel false [] c else none
    else do
      let node ← leaf indent c
      match afterColon? false node.stop with
      | none => some (node.value, node.stop)
      | some after =>
        if compact && node.isKey then entries fuel c.column [] node.value after else none

/-- Reads what follows a dash or the colon after a key: something on the same line, something on
further lines that is indented deeper than `column`, or nothing. -/
def content : Nat → Bool → Nat → Cursor → Option (Value × Cursor)
  | 0, _, _, _ => none
  | fuel + 1, compact, column, c =>
    let (next, crossed) := c.skip
    if next.atEnd then some (.null, next)
    else if !crossed then block fuel compact (column + 1) next
    else if column < next.column then block fuel true (column + 1) next
    else some (.null, next)

/-- Reads the items of a block list from a dash on, where `read` holds those before, last one
first. A `flush` list stands at the column of the key before it. -/
def items : Nat → Bool → List Value → Cursor → Option (Value × Cursor)
  | 0, _, _, _ => none
  | fuel + 1, flush, read, c => do
    let (value, stop) ← content fuel true c.column (c.advance 1)
    let (next, _) := stop.skip
    let read := value :: read
    if next.atEnd || next.column < c.column then some (.list read.reverse, next)
    else if c.column < next.column then none
    else if startsItem next then items fuel flush read next
    else if flush then some (.list read.reverse, next)
    else none

/-- Reads the entries of a block mapping whose keys stand at `column`, from the colon after a key
on; `read` holds the entries before. -/
def entries : Nat → Nat → List (Value × Value) → Value → Cursor → Option (Value × Cursor)
  | 0, _, _, _, _ => none
  | fuel + 1, column, read, key, c => do
    let (next, crossed) := c.skip
    let (value, stop) ←
      if crossed && !next.atEnd && next.column == column && startsItem next then
        items fuel true [] next
      else content fuel false column c
    let (next, _) := stop.skip
    let read := Value.insertEntry key value read
    if next.atEnd || next.column < column then some (.map read, next)
    else if column < next.column then none
    else
      let (key, after) ← key? next
      entries fuel column read key after

end

def isPrintable (c : Char) : Bool :=
  Text.inRanges
    [(9, 10), (13, 13), (32, 126), (133, 133), (160, 55295), (57344, 65533), (65536, 1114111)] c

def withoutMark : Text → Text
  | '\ufeff' :: rest => rest
  | text => text

/-- What comes after the marks that close a document. -/
def afterMarks (c : Cursor) : Nat → Cursor
  | 0 => c
  | fuel + 1 => if c.atEnd && atMark "..." c.rest then afterMarks (c.advance 3).skip.1 fuel else c

/-- The value that a document writes; none if it is malformed. -/
def read? (text : Text) : Option Value := do
  let text := withoutMark text
  guard (text.all isPrintable)
  let fuel := 4 * text.length + 4
  let (start, _) := (Cursor.mk text 0).skip
  let opened := start.column == 0 && atMark "---" start.rest
  let (first, crossed) := if opened then (start.advance 3).skip else (start, true)
  let (value, stop) ←
    if first.atEnd then some (.null, first) else block fuel crossed 0 first
  let rest := afterMarks stop.skip.1 fuel
  if rest.rest.isEmpty then some value else none

/-- Reads scalars, and lists and mappings in block form or in brackets. Documents that use more of
the format, such as anchors and tags, are refused. -/
scoped instance reader : DocumentReader where
  read text := match read? text with
    | some v => .ok v
    | none => .error (.malformed [])

end Yaml

end StyleRules
