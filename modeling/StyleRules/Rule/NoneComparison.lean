import StyleRules.Rule

namespace StyleRules

namespace NoneComparison

/-- The identity operator that an equality operator should be. -/
def identityFor? (kind : Text) : Option Text :=
  if kind = "==".toList then some "is".toList
  else if kind = "!=".toList then some "is not".toList
  else none

/-- The equality operators among the children of a chain that stand next to `None`; `previous` is
the child before the list. -/
def offending (previous : Option SyntaxTree) : List SyntaxTree → List SyntaxTree
  | [] => []
  | child :: rest =>
    let isNone (t : Option SyntaxTree) : Bool := t.any (·.kind = Comparison.noneKind)
    let offends := (identityFor? child.kind).isSome && (isNone previous || isNone rest.head?)
    if offends then child :: offending (some child) rest else offending (some child) rest

/-- The chains of a tree that have offending operators, in document order, with those
operators. -/
def violations (t : SyntaxTree) : List (SyntaxTree × List SyntaxTree) :=
  (t.nodes (some Comparison.chainKind)).filterMap fun chain =>
    match offending none chain.children with
    | [] => none
    | operators => some (chain, operators)

/-- The position that a bound means in a list of that length: a bound below zero counts from the
end, and bounds beyond either end mean that end. -/
def position (length : Nat) (bound : Int) : Nat :=
  if bound < 0 then (length + bound).toNat else min bound.toNat length

/-- The bytes before a bound. -/
def upTo (bytes : Bytes) (bound : Int) : Bytes := bytes.take (position bytes.length bound)

/-- The bytes from a bound on. -/
def startingAt (bytes : Bytes) (bound : Int) : Bytes := bytes.drop (position bytes.length bound)

/-- Puts the identity operator in the place of an operator, in the bytes of its chain. -/
def replaceOperator (chainStart : Int) (bytes : Bytes) (operator : SyntaxTree) : Bytes :=
  upTo bytes (operator.start - chainStart)
    ++ Text.encode ((identityFor? operator.kind).getD operator.kind)
    ++ startingAt bytes (operator.stop - chainStart)

/-- The bytes of a chain with its offending operators replaced, the last one first. -/
def corrected (source : Bytes) (chain : SyntaxTree) (operators : List SyntaxTree) : Bytes :=
  let bytes := startingAt (upTo source chain.stop) chain.start
  operators.reverse.foldl (replaceOperator chain.start) bytes

/-- The edit that corrects a chain; none if the chain does not start and stop at characters. -/
def editOf (source : Bytes) (index : LineIndex) (chain : SyntaxTree)
    (operators : List SyntaxTree) : Except Fault (Option Edit) :=
  match index.characterOffset? chain.start, index.characterOffset? chain.stop with
  | some start, some stop =>
    match Text.decode? (corrected source chain operators) with
    | none => .error .undecodable
    | some replacement =>
      match Edit.ofBounds start ((stop : Int) - start) replacement with
      | .ok e => .ok (some e)
      | .error es => .error (.invalid "TextEdit".toList es)
  | _, _ => .ok none

def description : Description :=
  { identifier := "none_comparison".toList
    name := "None Comparison".toList
    summary := "Compare against None with `is` / `is not` instead of `==` / `!=`.".toList
    nonTriggering :=
      ["if x is None:\n    pass\n",
        "if x is not None:\n    pass\n",
        "y = x == 0\n",
        "z = 'None' == name\n",
        "result = [item for item in items if item is not None]\n",
        "# if x == None:\n"].map String.toList
    triggering :=
      ["if ↓x == None:\n    pass\n",
        "while ↓value != None:\n    value = next_value()\n",
        "result = [↓item == None for item in items]\n",
        "ok = ↓a == None and ↓b != None\n",
        "assert result == None\n"].map String.toList
    corrections :=
      [("if ↓x == None:\n    pass\n", "if x is None:\n    pass\n"),
        ("while ↓value != None:\n    value = next_value()\n",
          "while value is not None:\n    value = next_value()\n"),
        ("ok = ↓a == None and ↓b != None\n", "ok = a is None and b is not None\n"),
        ("flag = None == x\n", "flag = None is x\n")].map fun (before, after) =>
          ⟨before.toList, after.toList⟩ }

/-- The place of a chain in a file. -/
def placeOf (v : View) (chain : SyntaxTree) : Location :=
  SourceFile.placeByte v.file.identifier v.index chain.start

def edits (v : View) : Except Fault (List Edit) :=
  let source := Text.encode v.file.contents
  let found := (violations v.tree).mapM fun (chain, operators) =>
    editOf source v.index chain operators
  found.map fun edits => edits.filterMap id

end NoneComparison

def RuleKind.noneComparison : RuleKind :=
  { key := "none_comparison".toList
    typeName := "NoneComparisonRule".toList
    description := NoneComparison.description
    needsTree := true
    inspect := fun s v =>
      .ok ((NoneComparison.violations v.tree).map fun (chain, _) =>
        NoneComparison.description.diagnostic s.severity (NoneComparison.placeOf v chain))
    corrector := some { edits := fun _ v => NoneComparison.edits v } }

end StyleRules
