import StyleRules.Text.Basic

namespace StyleRules

namespace CommandLine

/-- An option that a command knows. -/
structure OptionForm where
  /-- The name after two dashes. -/
  long : Text
  /-- The letter after one dash, if there is one. -/
  short : Option Char := none
  takesValue : Bool := false

/-- Arguments that have been read: the options by their long names, each with its value if it
takes one, and the operands. -/
structure Arguments where
  options : List (Text × Text) := []
  operands : List Text := []
  deriving DecidableEq, Repr

namespace Arguments

def has (a : Arguments) (long : String) : Bool := a.options.any (·.1 = long.toList)

/-- The value of an option; of several the last one counts. -/
def value? (a : Arguments) (long : String) : Option Text :=
  (a.options.reverse.find? (·.1 = long.toList)).map (·.2)

def withOption (name value : Text) (a : Arguments) : Arguments :=
  { a with options := (name, value) :: a.options }

def withOperand (operand : Text) (a : Arguments) : Arguments :=
  { a with operands := operand :: a.operands }

/-- Reads letters after one dash: flags, up to an option that takes the remaining letters as its
value. The second result is an option whose value is still to come. -/
def readLetters (forms : List OptionForm) : Text → Option (List (Text × Text) × Option Text)
  | [] => some ([], none)
  | c :: rest =>
    match forms.find? (·.short = some c) with
    | none => none
    | some form =>
      if !form.takesValue then
        (readLetters forms rest).map fun (options, open_) => ((form.long, []) :: options, open_)
      else if rest = [] then some ([], some form.long)
      else some ([(form.long, rest)], none)

/-- Reads a long option, without its dashes. The second result is an option whose value is still
to come. -/
def readLong (forms : List OptionForm) (text : Text) :
    Option (List (Text × Text) × Option Text) :=
  let name := text.takeWhile (· ≠ '=')
  match forms.find? (·.long = name), text.drop name.length with
  | none, _ => none
  | some form, '=' :: value => if form.takesValue then some ([(name, value)], none) else none
  | some form, _ => if form.takesValue then some ([], some name) else some ([(name, [])], none)

/-- Reads one argument that starts with a dash. -/
def readOption (forms : List OptionForm) : Text → Option (List (Text × Text) × Option Text)
  | '-' :: '-' :: text => readLong forms text
  | '-' :: text => readLetters forms text
  | _ => none

/-- Reads arguments. Two dashes end the options; with `scattered` options may also come after
operands. `waiting` is an option whose value comes next. -/
def readFrom (forms : List OptionForm) (scattered : Bool) :
    Option Text → List Text → Option Arguments
  | some _, [] => none
  | some name, value :: rest =>
    (readFrom forms scattered none rest).map (withOption name value)
  | none, [] => some {}
  | none, argument :: rest =>
    if argument = ['-', '-'] then some { operands := rest }
    else if argument.head? = some '-' ∧ 1 < argument.length then
      match readOption forms argument with
      | none => none
      | some (options, waiting) =>
        (readFrom forms scattered waiting rest).map fun a =>
          { a with options := options ++ a.options }
    else if scattered then (readFrom forms scattered none rest).map (withOperand argument)
    else some { operands := argument :: rest }

/-- Reads the arguments of a command; none if there is an option that it does not know, one
without its value, or a value for one that takes none. -/
def read? (forms : List OptionForm) (arguments : List Text) (scattered : Bool := true) :
    Option Arguments :=
  readFrom forms scattered none arguments

end Arguments

end CommandLine

end StyleRules
