import StyleRules.Conformance.Correcting

namespace StyleRules

/-- What is verified, and how. -/
structure Conformance where
  description : Description
  options : Value := .null
  silentInComment : Bool := true
  silentInLiteral : Bool := true
  registry : Registry := .standard
  /-- The directory that receives scratch files. -/
  scratch : Path

namespace Conformance

variable [Parser]

/-- Work on each item of a list in turn; the findings add up. -/
def gather {α β : Type} (step : α → Bench → Except Fault (List β) × Bench) :
    List α → Bench → Except Fault (List β) × Bench
  | [], bench => (.ok [], bench)
  | a :: rest, bench =>
    match step a bench with
    | (.error f, bench) => (.error f, bench)
    | (.ok found, bench) =>
      match gather step rest bench with
      | (.error f, bench) => (.error f, bench)
      | (.ok more, bench) => (.ok (found ++ more), bench)

/-- The diagnostics that are left of a text in memory. -/
def violations (c : Configuration) (d : Dialect) (text : Text) (bench : Bench) :
    Except Fault (List Diagnostic) × Bench :=
  let (found, cache) := c.diagnose { contents := text, dialect := d } bench.cache.clear
  (found, { bench with cache })

def identifier (v : Conformance) : Text := v.description.identifier

/-- Examples declared not to trigger the rule have no diagnostics. -/
def checkNonTriggering (v : Conformance) (c : Configuration) (d : Dialect) :
    Bench → Except Fault (List Failure) × Bench :=
  gather (fun example_ bench =>
    let text := (Marked.strip example_).text
    match violations c d text bench with
    | (.error f, bench) => (.error f, bench)
    | (.ok [], bench) => (.ok [], bench)
    | (.ok found, bench) =>
      (.ok [{ check := .nonTriggering
              message := "non-triggering example violated ".toList ++ Text.ofNat found.length
                ++ " time(s)".toList
              context := Render.diagnostics found text }], bench))
    v.description.nonTriggering

/-- What is said about diagnostics, sorted by location, where locations are expected. -/
def compareLocations (text : Text) (expected : List Location) (found : List Diagnostic) :
    List Failure :=
  let actual := found.map (·.location)
  let fail (message context : Text) : Failure := { check := .localizedTriggering, message, context }
  let unexpected := found.filter fun d => !expected.contains d.location
  let missing := expected.filter fun l => !actual.contains l
  let mismatched := (actual.zip expected).filter fun (a, b) => a != b
  (if unexpected = [] then []
    else [fail "triggering example violated at unexpected location(s)".toList
      (Render.diagnostics unexpected text)])
  ++ (if missing = [] then []
    else [fail "triggering example did not violate at expected location(s)".toList
      (Render.locations missing text)])
  ++ (if actual.length = expected.length then []
    else [fail ("expected ".toList ++ Text.ofNat expected.length
        ++ " violation(s) but got ".toList ++ Text.ofNat actual.length)
      (Render.diagnostics found text)])
  ++ (if mismatched = [] then []
    else
      let pairs := mismatched.map fun (a, b) => a.toText ++ " != ".toList ++ b.toText
      [fail ("violations didn't match expected locations: ".toList
          ++ Text.join ", ".toList pairs)
        (Render.locations expected text)])

/-- Examples declared to trigger the rule have diagnostics, and where an example has markers they
are at the markers. -/
def checkTriggering (v : Conformance) (c : Configuration) (d : Dialect) :
    Bench → Except Fault (List Failure) × Bench :=
  gather (fun example_ bench =>
    let marked := Marked.strip example_
    match violations c d marked.text bench with
    | (.error f, bench) => (.error f, bench)
    | (.ok found, bench) =>
      let found := Location.sortOn (·.location) found
      if marked.hasMarkers then
        let (index, cache) := bench.cache.lineIndex marked.text
        let expected := marked.offsets.map fun (offset : Nat) => SourceFile.place none index offset
        (.ok (compareLocations marked.text expected found), { bench with cache })
      else if found = [] then
        (.ok [{ check := .unlocalizedTriggering
                message := "triggering example did not violate".toList
                context := Render.source marked.text }], bench)
      else (.ok [], bench))
    v.description.triggering

/-- Triggering examples, embedded in another context, have a fixed number of diagnostics each; the
numbers are compared in total. -/
def checkEmbedded (v : Conformance) (check : Check) (embed : Text → Text) (perTrigger : Nat)
    (c : Configuration) (d : Dialect) (bench : Bench) : Except Fault (List Failure) × Bench :=
  let counted := gather (fun example_ bench =>
    let text := embed (Marked.strip example_).text
    match violations c d text bench with
    | (.error f, bench) => (.error f, bench)
    | (.ok found, bench) => (.ok [(text, found)], bench)) v.description.triggering bench
  match counted with
  | (.error f, bench) => (.error f, bench)
  | (.ok found, bench) =>
    let triggers := v.description.triggering.length
    let total := found.foldl (fun total (_, ds) => total + ds.length) 0
    let contexts := (found.filter fun (_, ds) => ds.length ≠ perTrigger).map fun (text, ds) =>
      Render.diagnostics ds text
    if total = perTrigger * triggers then (.ok [], bench)
    else
      (.ok [{ check
              message := "expected ".toList ++ Text.ofNat (perTrigger * triggers)
                ++ " violation(s) across ".toList ++ Text.ofNat triggers
                ++ " embedded triggering example(s) but got ".toList ++ Text.ofNat total
              context := Text.join ['\n'] contexts }], bench)

/-- Corrections produce what is declared. -/
def checkCorrections (v : Conformance) (c : Configuration) (d : Dialect) :
    Bench → Except Fault (List Failure) × Bench :=
  gather (fun (e : CorrectionExample) =>
    verifyCorrection c d v.scratch .corrections e.before e.after) v.description.corrections

/-- Examples that do not trigger the rule are not corrected. -/
def checkStability (v : Conformance) (c : Configuration) (d : Dialect) :
    Bench → Except Fault (List Failure) × Bench :=
  gather (fun example_ => verifyCorrection c d v.scratch .correctionStability example_ example_)
    v.description.nonTriggering

/-- Nothing is corrected where the rule is disabled. -/
def checkDisabledCorrections (v : Conformance) (c : Configuration) (d : Dialect) :
    Bench → Except Fault (List Failure) × Bench :=
  gather (fun (e : CorrectionExample) =>
    let cleaned := (Marked.strip (d.disableDirective v.identifier ++ e.before)).text
    verifyCorrection c d v.scratch .disabledCorrections cleaned cleaned) v.description.corrections

/-- The checks, in the order in which they run. -/
def checks (v : Conformance) (c : Configuration) (d : Dialect) :
    List (Bench → Except Fault (List Failure) × Bench) :=
  [v.checkNonTriggering c d,
    v.checkTriggering c d,
    v.checkEmbedded .commentContext d.commentOut (if v.silentInComment then 0 else 1) c d,
    v.checkEmbedded .literalContext d.textLiteral (if v.silentInLiteral then 0 else 1) c d,
    v.checkEmbedded .disableDirective (d.disableDirective v.identifier ++ ·) 0 c d,
    v.checkCorrections c d,
    v.checkStability c d,
    v.checkDisabledCorrections c d]

/-- The rule alone, and the dialect that it is checked in. -/
def construct (v : Conformance) : Except Fault (Configuration × Dialect) := do
  let kind ← v.registry.get v.identifier
  let c ← Configuration.isolating v.identifier v.options v.registry
  return (c, kind.dialect)

def verify (v : Conformance) (bench : Bench) : Except Fault Report × Bench :=
  match v.construct with
  | .error f =>
    (.ok { rule := v.identifier
           failures := [{ check := .configuration, kind := .construction, message := f.message }] },
      bench)
  | .ok (c, d) =>
    let run (check : Bench → Except Fault (List Failure) × Bench) (bench : Bench) :=
      check { bench with cache := bench.cache.clear }
    match gather run (v.checks c d) bench with
    | (.error f, bench) => (.error f, bench)
    | (.ok failures, bench) => (.ok { rule := v.identifier, failures }, bench)

/-- The verification of a kind of rule against its own description. -/
def ofKind (k : RuleKind) (scratch : Path) (options : Value := .null)
    (silentInComment silentInLiteral : Option Bool := none) : Conformance :=
  { description := k.description
    options
    silentInComment := silentInComment.getD k.silentInComment
    silentInLiteral := silentInLiteral.getD k.silentInLiteral
    registry := { kinds := [k] }
    scratch }

end Conformance

end StyleRules
