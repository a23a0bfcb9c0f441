import StyleRules.Configuration.Linting
import StyleRules.Store

namespace StyleRules

namespace Project

variable [Parser]

/-- Names of directories whose files are left alone. -/
def excludedNames : List Text :=
  ["__pycache__", ".git", ".venv", "venv", ".mypy_cache", ".pytest_cache"].map String.toList

def isLintable (p : Path) : Bool := (Dialect.ofSuffix? p.suffix).isSome

/-- Whether a path leads through a directory that is left alone. -/
def isExcluded (p : Path) : Bool := p.parts.any (· ∈ excludedNames)

/-- Where a path may lead to files: at the path itself, or anywhere below a directory, in the
order of the names. Only places with the suffix of a known dialect count. -/
def candidates (store : Store) (path : Path) : Except Fault (List Path) :=
  let place := path.resolve
  match store.entryAt? place with
  | none => .error (.noSuchPath path)
  | some (.file _) => .ok (if isLintable place then [place] else [])
  | some .directory =>
    .ok ((store.below place).filter fun p => !isExcluded p && isLintable p)

/-- The files that paths lead to, path by path. -/
def discover (store : Store) (paths : List Path) : Except Fault (List Path) :=
  (paths.mapM (candidates store)).map fun found => found.flatten.filter store.isFile

/-- Reads a stored file of the dialect that its suffix tells. -/
def load (store : Store) (path : Path) : Except Fault SourceFile :=
  match Dialect.ofSuffix? path.suffix with
  | none => .error (.noDialect path.suffix)
  | some d => SourceFile.load store path d

/-- Works on the files at some places one after the other; the findings add up, and what was
stored stays stored. A place where no file stands by then is passed over. -/
def overFiles {α : Type} (step : Desk → Except Fault (List α) × Desk) :
    List Path → Store → Except Fault (List α) × Store
  | [], store => (.ok [], store)
  | path :: rest, store =>
    if !store.isFile path then overFiles step rest store
    else match load store path with
    | .error f => (.error f, store)
    | .ok file =>
      match step { file, store } with
      | (.error f, desk) => (.error f, desk.store)
      | (.ok found, desk) =>
        match overFiles step rest desk.store with
        | (.error f, store) => (.error f, store)
        | (.ok more, store) => (.ok (found ++ more), store)

/-- Works on the files that paths lead to. A path is looked up when the files of those before it
are done. -/
def overPaths {α : Type} (step : Desk → Except Fault (List α) × Desk) :
    List Path → Store → Except Fault (List α) × Store
  | [], store => (.ok [], store)
  | path :: rest, store =>
    match candidates store path with
    | .error f => (.error f, store)
    | .ok files =>
      match overFiles step files store with
      | (.error f, store) => (.error f, store)
      | (.ok found, store) =>
        match overPaths step rest store with
        | (.error f, store) => (.error f, store)
        | (.ok more, store) => (.ok (found ++ more), store)

/-- The diagnostics of the files that paths lead to, sorted by location. -/
def diagnose (c : Configuration) (store : Store) (paths : List Path) :
    Except Fault (List Diagnostic) :=
  let (found, _) := overPaths (fun desk =>
    let (found, cache) := c.diagnose desk.file desk.cache
    (found, { desk with cache })) paths store
  found.map (Location.sortOn (·.location))

/-- Corrects the files that paths lead to where they are stored. The corrections come sorted by
location. -/
def correct (c : Configuration) (store : Store) (paths : List Path) :
    Except Fault (List Correction) × Store :=
  let (made, store) := overPaths c.correct paths store
  (made.map (Location.sortOn (·.location)), store)

end Project

end StyleRules
