import StyleRules.CommandLine
import StyleRules.CommandLine.Arguments

namespace StyleRules

namespace CommandLine

namespace Request

def helpForm : OptionForm := { long := "help".toList }

def verboseForm : OptionForm := { long := "verbose".toList, short := some 'v' }

def configForm : OptionForm :=
  { long := "config".toList, short := some 'c', takesValue := true }

def scratchForm : OptionForm := { long := "scratch-dir".toList, takesValue := true }

/-- The path that an argument means. -/
def place (s : Setting) (argument : Text) : Path := (s.directory.extend argument).resolve

/-- Reads the paths to work on and the configuration file, all of which have to be there. -/
def readPaths (s : Setting) (store : Store) (a : Arguments) :
    Option (List Path × Option Path) := do
  let paths := a.operands.map (place s)
  guard (!paths.isEmpty && paths.all fun p => (store.entryAt? p).isSome)
  match a.value? "config" with
  | none => return (paths, none)
  | some argument =>
    guard (store.isFile (place s argument))
    return (paths, some (place s argument))

/-- Reads the rules to verify and the directory of scratch files, which may not be a file. -/
def readVerification (s : Setting) (store : Store) (a : Arguments) :
    Option (List Text × Option Path) := do
  match (a.value? "scratch-dir").or s.namedScratch with
  | none => return (a.operands, none)
  | some argument =>
    guard (!store.isFile (place s argument))
    return (a.operands, some (place s argument))

/-- Reads the arguments of one command. Asking for help goes before all that they should hold. -/
def readCommand (forms : List OptionForm) (arguments : List Text)
    (read : Arguments → Option Request) : Option Request := do
  let a ← Arguments.read? (helpForm :: forms) arguments
  if a.has "help" then some .help else read a

/-- Reads the arguments of a command that has none. -/
def withoutOperands (r : Request) (a : Arguments) : Option Request :=
  if a.operands.isEmpty then some r else none

/-- Reads a command and its arguments. -/
def ofCommand (s : Setting) (store : Store) (command : Text) (arguments : List Text) :
    Option Request :=
  if command = "lint".toList then
    readCommand [configForm] arguments fun a =>
      (readPaths s store a).map fun (paths, file) => .lint paths file
  else if command = "autocorrect".toList then
    readCommand [configForm] arguments fun a =>
      (readPaths s store a).map fun (paths, file) => .autocorrect paths file
  else if command = "verify".toList then
    readCommand [scratchForm] arguments fun a =>
      (readVerification s store a).map fun (rules, scratch) => .verify rules scratch
  else if command = "rules".toList then readCommand [] arguments (withoutOperands .listRules)
  else if command = "version".toList then readCommand [] arguments (withoutOperands .version)
  else none

/-- Reads what a user asks for; none if the arguments make no sense. -/
def ofArguments (s : Setting) (store : Store) (arguments : List Text) : Option Request := do
  let a ← Arguments.read? [helpForm, verboseForm] arguments false
  if a.has "help" then some .help
  else match a.operands with
    | [] => none
    | command :: rest => ofCommand s store command rest

/-- Reads arguments as the usage of the commands has them. -/
scoped instance reader : ArgumentReader where
  request := ofArguments

end Request

end CommandLine

end StyleRules
