import StyleRules.Configuration

namespace StyleRules

namespace Configuration

variable [Parser]

/-- The diagnostics of rules one after the other, without those that directives disable. -/
def diagnoseWith (f : SourceFile) (cache : ParseCache) :
    List Rule → Except Fault (List Diagnostic) × ParseCache
  | [] => (.ok [], cache)
  | r :: rest =>
    match r.diagnose f cache with
    | (.error e, cache) => (.error e, cache)
    | (.ok found, cache) =>
      let directives := f.directives
      let kept := found.filter fun d => Directive.leaveEnabled directives r.identifier d.location
      match diagnoseWith f cache rest with
      | (.error e, cache) => (.error e, cache)
      | (.ok more, cache) => (.ok (kept ++ more), cache)

/-- The diagnostics of every rule of the file's dialect, without those that directives disable. -/
def diagnose (c : Configuration) (f : SourceFile) (cache : ParseCache) :
    Except Fault (List Diagnostic) × ParseCache :=
  match c.rulesFor f.dialect with
  | .error e => (.error e, cache)
  | .ok rules => diagnoseWith f cache rules

/-- The corrections of rules one after the other, each on what the one before left. -/
def correctWith (desk : Desk) : List Rule → Except Fault (List Correction) × Desk
  | [] => (.ok [], desk)
  | r :: rest =>
    match r.correct desk with
    | (.error e, desk) => (.error e, desk)
    | (.ok made, desk) =>
      match correctWith desk rest with
      | (.error e, desk) => (.error e, desk)
      | (.ok more, desk) => (.ok (made ++ more), desk)

/-- Corrects the file at hand with every correctable rule of its dialect. -/
def correct (c : Configuration) (desk : Desk) : Except Fault (List Correction) × Desk :=
  match c.rulesFor desk.file.dialect with
  | .error e => (.error e, desk)
  | .ok rules => correctWith desk rules

end Configuration

end StyleRules
