import StyleRules.Configuration
import StyleRules.Document
import StyleRules.Text.Lines

namespace StyleRules

namespace Configuration

variable [DocumentReader]

/-- Reads a configuration from a stored document. One that says nothing is the same as an empty
mapping. -/
def ofFile (store : Store) (path : Path) (registry : Registry := .standard) :
    Except Fault (Configuration × List Text) := do
  let bytes ← (store.read path).mapError fun f => .store f path
  let text ← match Text.decode? bytes with
    | some text => pure text
    | none => throw .undecodable
  match DocumentReader.read (Text.withLineFeeds text) with
  | .error (.malformed reason) => throw (.configurationUnreadable path reason)
  | .error (.impossible reason) => throw (.impossibleValue reason)
  | .ok (.map entries) => ofMapping entries registry
  | .ok v => if v.isVoid then ofMapping [] registry else throw (.configurationNoMapping path)

end Configuration

end StyleRules
