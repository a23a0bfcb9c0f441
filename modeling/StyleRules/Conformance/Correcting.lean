import StyleRules.Configuration.Linting
import StyleRules.Conformance.Report
import StyleRules.Render

namespace StyleRules

/-- What verification works with: the cache and the store that it writes scratch files to. -/
structure Bench where
  cache : ParseCache := {}
  store : Store := {}

namespace Conformance

variable [Parser]

/-- A failure of the surroundings. -/
def infrastructure (check : Check) (attempt : String) (path : Path) (reason : Text) : Failure :=
  { check
    kind := .infrastructure
    message := attempt.toList ++ ' ' :: path.toText ++ ": ".toList ++ reason }

/-- A list of locations as text. -/
def showLocations (ls : List Location) : Text :=
  '[' :: Text.join ", ".toList (ls.map Location.toText) ++ [']']

/-- What is said about the number and the locations of corrections; `before` is the text with its
markers stripped. -/
def compareCorrections (check : Check) (before : Text) (marked : Bool) (expected : Text)
    (actualLocations expectedLocations : List Location) : List Failure :=
  let locations := "actual locations: ".toList ++ showLocations actualLocations
    ++ ", expected locations: ".toList ++ showLocations expectedLocations
  let miscounted (wanted : Nat) : List Failure :=
    if actualLocations.length = wanted then []
    else
      [{ check
         message := "expected ".toList ++ Text.ofNat wanted ++ " correction(s) but got ".toList
           ++ Text.ofNat actualLocations.length ++ "; ".toList ++ locations
         context := Render.locations actualLocations before }]
  if marked then
    let misplaced := (actualLocations.zip expectedLocations).any fun (a, b) => a != b
    miscounted expectedLocations.length
      ++ (if misplaced then
          [{ check
             message := "correction locations didn't match expected locations; ".toList
               ++ locations
             context := Render.locations expectedLocations before }]
        else [])
  else miscounted (if before = expected then 0 else 1)

/-- Two texts under their headings. -/
def contrast (heading : String) (actual expected : Text) : Text :=
  heading.toList ++ ":\n".toList ++ Render.source actual ++ "\nexpected:\n".toList
    ++ Render.source expected

/-- What is said about the contents in memory. -/
def compareContents (check : Check) (contents expected : Text) : List Failure :=
  if contents = expected then []
  else
    [{ check
       message := "corrected contents differ from expected contents".toList
       context := contrast "actual" contents expected }]

/-- What is said about the contents in the store. -/
def comparePersisted (check : Check) (path : Path) (expected : Text) (store : Store) :
    List Failure :=
  let unreadable (f : Fault) : List Failure :=
    [infrastructure check "couldn't re-read scratch file" path f.message]
  match store.read path with
  | .error f => unreadable (.store f path)
  | .ok bytes =>
    match Text.decode? bytes with
    | none => unreadable .undecodable
    | some persisted =>
      if persisted = expected then []
      else
        [{ check
           message := "persisted contents of ".toList ++ path.toText
             ++ " differ from expected contents".toList
           context := contrast "persisted" persisted expected }]

/-- Corrects a text, given with or without markers, from a scratch file of its own, and compares
the outcome with what was expected. The scratch file stays. -/
def verifyCorrection (c : Configuration) (d : Dialect) (scratch : Path) (check : Check)
    (before expected : Text) (bench : Bench) : Except Fault (List Failure) × Bench :=
  let cache := bench.cache.clear
  let marked := Marked.strip before
  let path := bench.store.freshPath scratch (d.extensions.headD [])
  match bench.store.write path (Text.encode marked.text) with
  | .error f =>
    (.ok [infrastructure check "couldn't write scratch file" path (Fault.store f path).message],
      { bench with cache })
  | .ok store =>
    match SourceFile.load store path d with
    | .error f =>
      (.ok [infrastructure check "couldn't read scratch file" path f.message], { cache, store })
    | .ok file =>
      let (index, cache) := cache.lineIndex file.contents
      let expectedLocations := marked.offsets.map fun (offset : Nat) =>
        SourceFile.place file.identifier index offset
      let (outcome, desk) := c.correct { file, cache, store }
      let bench := { cache := desk.cache, store := desk.store }
      match outcome with
      | .error (.store f p) =>
        (.ok [infrastructure check "couldn't persist corrections to" path
          (Fault.store f p).message], bench)
      | .error f => (.error f, bench)
      | .ok corrections =>
        let actualLocations :=
          (Location.sortOn (·.location) corrections).map (·.location)
        (.ok (compareCorrections check marked.text marked.hasMarkers expected actualLocations
            expectedLocations
          ++ compareContents check desk.file.contents expected
          ++ comparePersisted check path expected desk.store), bench)

end Conformance

end StyleRules
