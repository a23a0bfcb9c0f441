import StyleRules.Store
import StyleRules.Value

namespace StyleRules

/-- A cause of failure. -/
inductive Fault where
  /-- A value is not fit to be what it should be. -/
  | invalid (subject : Text) (errors : List FieldError)
  /-- The options of a rule are not fit for it; `subject` names its kind. -/
  | ruleRejected (rule subject : Text) (errors : List FieldError)
  /-- The options of a rule are neither a severity nor a mapping. -/
  | ruleMisconfigured (rule found : Text)
  | unknownRule (rule : Text)
  | ruleTaken (rule : Text)
  | noGrammar (dialect : Text)
  | unparsable (dialect reason : Text)
  | configurationUnreadable (path : Path) (reason : Text)
  | configurationNoMapping (path : Path)
  /-- A document is well-formed, but a value that it writes cannot be made. -/
  | impossibleValue (reason : Text)
  /-- A list was expected where something that has no items was written. -/
  | noItems
  | noSuchPath (path : Path)
  | noDialect (suffix : Text)
  | store (fault : StoreFault) (path : Path)
  /-- The bytes of a file are not UTF-8. -/
  | undecodable
  deriving DecidableEq, Repr

namespace Fault

def countErrors (subject : Text) (errors : List FieldError) : Text :=
  Text.ofNat errors.length
    ++ (if errors.length = 1 then " validation error for " else " validation errors for ").toList
    ++ subject

def aboutRule (rule reason : Text) : Text :=
  "Invalid configuration for rule '".toList ++ rule ++ "': ".toList ++ reason

def message : Fault → Text
  | invalid subject errors => countErrors subject errors
  | ruleRejected rule subject errors => aboutRule rule (countErrors subject errors)
  | ruleMisconfigured rule found =>
    aboutRule rule ("expected a severity or a mapping, got ".toList ++ found)
  | unknownRule rule => "Unknown rule: ".toList ++ rule
  | ruleTaken rule => "Rule identifier already registered: ".toList ++ rule
  | noGrammar dialect =>
    "Dialect '".toList ++ dialect ++ "' has no grammar to parse with".toList
  | unparsable dialect reason =>
    "Failed to parse ".toList ++ dialect ++ " source: ".toList ++ reason
  | configurationUnreadable path reason =>
    "Failed to parse configuration ".toList ++ path.toText ++ ": ".toList ++ reason
  | configurationNoMapping path =>
    "Configuration ".toList ++ path.toText ++ " must be a mapping".toList
  | impossibleValue reason => "impossible value: ".toList ++ reason
  | noItems => "a list was expected".toList
  | noSuchPath path => "Path does not exist: ".toList ++ path.toText
  | noDialect suffix => "No dialect handles files with suffix '".toList ++ suffix ++ ['\'']
  | store fault path => fault.message ++ ": ".toList ++ path.toText
  | undecodable => "'utf-8' codec can't decode the bytes of the file".toList

end Fault

end StyleRules
