import StyleRules.Value

namespace StyleRules

/-- Why a document has no value: it is malformed, or a value that it writes cannot be made. -/
inductive DocumentFault where
  | malformed (reason : Text)
  | impossible (reason : Text)

/-- Reads the values that documents write. -/
class DocumentReader where
  read : Text → Except DocumentFault Value

end StyleRules
