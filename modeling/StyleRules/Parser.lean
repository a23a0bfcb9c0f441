import StyleRules.SyntaxTree

namespace StyleRules

/-- A language that there is a grammar of. -/
structure Language where
  name : Text
  deriving DecidableEq, Repr

def Language.python : Language := ⟨"python".toList⟩

/-- Reads texts by the grammars of languages: a text becomes a syntax tree, or there is a reason why
it does not. -/
class Parser where
  parse : Language → Text → Except Text SyntaxTree

end StyleRules
