import StyleRules.Configuration.File
import StyleRules.Conformance
import StyleRules.Project

namespace StyleRules

namespace CommandLine

/-- What a run starts from. -/
structure Setting where
  /-- Where relative paths start. -/
  directory : Path
  /-- The directory of scratch files, if no other is named. -/
  scratch : Path
  /-- The directory of scratch files that counts as named when no argument names one. -/
  namedScratch : Option Text := none
  registry : Registry := .standard

/-- What a run leaves behind. -/
structure Outcome where
  status : Nat := 0
  output : List Text := []
  errors : List Text := []
  /-- Warnings about the configuration. -/
  warnings : List Text := []
  store : Store

/-- What a user asks for. -/
inductive Request where
  | help
  | version
  | listRules
  | lint (paths : List Path) (configuration : Option Path)
  | autocorrect (paths : List Path) (configuration : Option Path)
  | verify (rules : List Text) (scratch : Option Path)
  deriving DecidableEq, Repr

def version : Text := "0.1.0".toList

def usage : Text :=
  let head := "Usage: ".toList ++ Dialect.directivePrefix ++ " [-v | --verbose] COMMAND".toList
  let commands :=
    ["",
      "Commands:",
      "  lint PATHS... [-c | --config FILE]",
      "  autocorrect PATHS... [-c | --config FILE]",
      "  verify [RULES...] [--scratch-dir DIRECTORY]",
      "  rules",
      "  version"].map String.toList
  Text.join ['\n'] (head :: commands)

/-- Makes out what a user asks for from arguments; none if they make no sense. -/
class ArgumentReader where
  request : Setting → Store → List Text → Option Request

variable [Parser] [DocumentReader] [ArgumentReader]

/-- Whether a fault of reading a configuration is reported; others end the run without a word. -/
def isReported : Fault → Bool
  | .invalid .. | .ruleTaken _ | .impossibleValue _ | .noItems | .noSuchPath _ | .noDialect _ |
    .undecodable => false
  | _ => true

def configuration (s : Setting) (store : Store) (file : Option Path) :
    Except Fault (Configuration × List Text) :=
  match file with
  | none => .ok ({ registry := s.registry }, [])
  | some path => Configuration.ofFile store path s.registry

/-- The outcome of a run that a fault ended, if the fault is reported. -/
def failed (store : Store) (f : Fault) : Outcome := { status := 2, errors := [f.message], store }

def withConfiguration (s : Setting) (store : Store) (file : Option Path)
    (run : Configuration → Outcome) : Outcome :=
  match configuration s store file with
  | .error f => if isReported f then failed store f else { status := 1, store }
  | .ok (c, warnings) => { run c with warnings }

def lint (paths : List Path) (store : Store) (c : Configuration) : Outcome :=
  match Project.diagnose c store paths with
  | .error f => failed store f
  | .ok [] => { errors := ["No violations found".toList], store }
  | .ok found =>
    { status := 1
      output := found.map Diagnostic.toText
      errors := ["Found ".toList ++ Text.ofNat found.length ++ " violation(s)".toList]
      store }

/-- Corrects what paths lead to, and reports the corrections. -/
def autocorrect (paths : List Path) (store : Store) (c : Configuration) : Outcome :=
  match Project.correct c store paths with
  | (.error f, store) => failed store f
  | (.ok made, store) =>
    { output := made.map Correction.toText
      errors := ["Applied ".toList ++ Text.ofNat made.length ++ " correction(s)".toList]
      store }

/-- Verifies kinds of rules one after the other. A fault ends the run without a word. -/
def verifyKinds (scratch : Path) (store : Store) : List RuleKind → Outcome
  | [] => { store }
  | k :: rest =>
    match (Conformance.ofKind k scratch).verify { store } with
    | (.error _, bench) => { status := 1, store := bench.store }
    | (.ok report, bench) =>
      let later := verifyKinds scratch bench.store rest
      { later with
        status := if report.passed then later.status else 1
        output := report.summary :: later.output }

def listing (k : RuleKind) : Text :=
  k.identifier ++ " (".toList ++ k.dialect.name ++ "): ".toList ++ k.description.summary

/-- Verifies rules, every registered one if none is named. -/
def verify (s : Setting) (rules : List Text) (scratch : Option Path) (store : Store) : Outcome :=
  let prepared : Except StoreFault Store := match scratch with
    | none => .ok store
    | some directory => store.makeDirectories directory
  match prepared with
  | .error _ => { status := 1, store }
  | .ok store =>
    match rules.mapM s.registry.get with
    | .error f =>
      { status := 2
        errors :=
          [f.message ++ " (known rules: ".toList
            ++ Text.join ", ".toList s.registry.identifiers ++ [')']]
        store }
    | .ok kinds =>
      let kinds := if kinds.isEmpty then s.registry.sorted else kinds
      verifyKinds (scratch.getD s.scratch) store kinds

def perform (s : Setting) (store : Store) : Request → Outcome
  | .help => { output := [usage], store }
  | .version => { output := [version], store }
  | .listRules => { output := s.registry.sorted.map listing, store }
  | .lint paths file => withConfiguration s store file (lint paths store)
  | .autocorrect paths file => withConfiguration s store file (autocorrect paths store)
  | .verify rules scratch => verify s rules scratch store

def run (s : Setting) (store : Store) (arguments : List Text) : Outcome :=
  match ArgumentReader.request s store arguments with
  | none => { status := 2, errors := [usage], store }
  | some r => perform s store r

/-- A text without the sequences that style a terminal. The first `skip` characters belong to a
sequence already found. -/
def withoutStyles (skip : Nat) : Text → Text
  | [] => []
  | c :: rest =>
    match skip with
    | k + 1 => withoutStyles k rest
    | 0 =>
      match c, rest with
      | '\x1b', '[' :: body =>
        let parameters := body.takeWhile fun c => c.isDigit || c == ';' || c == '?'
        if (body.drop parameters.length).head?.any Char.isAlpha then
          withoutStyles (parameters.length + 2) rest
        else c :: withoutStyles 0 rest
      | _, _ => c :: withoutStyles 0 rest

def printed (lines : List Text) : Text :=
  lines.flatMap fun line => withoutStyles 0 line ++ ['\n']

end CommandLine

end StyleRules
