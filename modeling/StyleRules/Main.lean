import StyleRules.CommandLine.Requests
import StyleRules.SyntaxTree.Comparison
import StyleRules.Yaml

namespace StyleRules

namespace Main

def textOf (s : String) : Text := s.toList

/-- Takes a file, or a directory with all that is in it, into a store. -/
partial def take (place : String) (path : Path) (store : Store) : IO Store := do
  let here := (← IO.currentDir) / place
  if ← here.isDir then
    let entries ← here.readDir
    entries.toList.foldlM (fun store entry =>
      take entry.path.toString (path.child (textOf entry.fileName)) store)
      ((store.makeDirectories path).toOption.getD store)
  else if ← here.pathExists then
    let bytes ← IO.FS.readBinFile here
    let store := (store.makeDirectories path.parent).toOption.getD store
    return store.put path (.file bytes.toList)
  else return store

/-- The part of an argument that may be a path: what follows an equals sign, or the whole. -/
def pathIn (argument : Text) : Text :=
  match argument.dropWhile (· ≠ '=') with
  | _ :: rest => rest
  | [] => argument

/-- Stores a file that has changed. -/
def keep (before : Store) (entry : Path × Entry) : IO Unit := do
  match entry with
  | (path, .file bytes) =>
    if before.entryAt? path != some (.file bytes) then
      IO.FS.createDirAll (String.ofList path.parent.toText)
      IO.FS.writeBinFile (String.ofList path.toText) bytes.toByteArray
  | (path, .directory) => IO.FS.createDirAll (String.ofList path.toText)

open scoped CommandLine.Request Comparison Yaml

def run (arguments : List String) : IO UInt32 := do
  let directory := Path.root.extend (textOf (← IO.currentDir).toString)
  let named ← IO.getEnv "LINTCHECK_SCRATCH_DIR"
  let temporary := Path.root.extend (textOf ((← IO.getEnv "TMPDIR").getD "/tmp"))
  let arguments := arguments.map textOf
  let candidates := arguments.drop 1 ++ (named.map textOf).toList
  let paths := (candidates.flatMap fun a => [a, pathIn a]).map fun a => (directory.extend a).resolve
  let start := ((({} : Store).makeDirectories temporary).toOption.getD {})
  let store ← paths.eraseDups.foldlM
    (fun store path => take (String.ofList path.toText) path store) start
  let setting : CommandLine.Setting :=
    { directory, scratch := temporary, namedScratch := named.map textOf }
  let outcome := CommandLine.run setting store arguments
  outcome.store.entries.forM (keep store)
  (← IO.getStdout).putStr (String.ofList (CommandLine.printed outcome.output))
  (← IO.getStderr).putStr (String.ofList (CommandLine.printed (outcome.warnings ++ outcome.errors)))
  return UInt32.ofNat outcome.status

end Main

end StyleRules

def main (arguments : List String) : IO UInt32 := StyleRules.Main.run arguments
