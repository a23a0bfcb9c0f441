import StyleRules.Dialect
import StyleRules.Fault
import StyleRules.Text.Lines

namespace StyleRules

/-- A text with its line index. -/
structure IndexedText where
  text : Text
  index : LineIndex := .ofText text
  index_eq : index = .ofText text := by rfl

/-- What has been parsed so far. Clearing forgets trees, line indexes and counts, but not which
grammars have been loaded under which dialect name. -/
structure ParseCache where
  languages : List (Text × Language) := []
  trees : List ((Text × Text) × SyntaxTree) := []
  indexes : List IndexedText := []
  hits : Nat := 0
  misses : Nat := 0

namespace ParseCache

/-- A cache in which nothing has been parsed. -/
def empty : ParseCache := {}

def load (d : Dialect) : Except Fault Language :=
  match d.grammar with
  | .absent => .error (.noGrammar d.name)
  | .language l => .ok l
  | .broken reason => .error (.unparsable d.name reason)

/-- The grammar loaded under the name of a dialect, or else the dialect's own. -/
def languageFor (cache : ParseCache) (d : Dialect) : Except Fault Language :=
  match cache.languages.find? (·.1 = d.name) with
  | some (_, l) => .ok l
  | none => load d

/-- Parses a text of a dialect by a grammar. -/
def parse [Parser] (d : Dialect) (l : Language) (text : Text) : Except Fault SyntaxTree :=
  (Parser.parse l text).mapError (.unparsable d.name)

/-- A grammar loaded under the name of a dialect is kept there. -/
def keepLanguage (cache : ParseCache) (d : Dialect) (l : Language) : ParseCache :=
  if cache.languages.any (·.1 = d.name) then cache
  else { cache with languages := (d.name, l) :: cache.languages }

/-- The syntax tree of a text; it is parsed if the cache does not hold it yet. A text that cannot be
parsed counts as missed, and leaves the grammar loaded. -/
def tree [Parser] (cache : ParseCache) (d : Dialect) (text : Text) :
    Except Fault SyntaxTree × ParseCache :=
  match cache.trees.find? (·.1 = (d.name, text)) with
  | some (_, t) => (.ok t, { cache with hits := cache.hits + 1 })
  | none =>
    let cache := { cache with misses := cache.misses + 1 }
    match cache.languageFor d with
    | .error f => (.error f, cache)
    | .ok l =>
      let cache := cache.keepLanguage d l
      match parse d l text with
      | .error f => (.error f, cache)
      | .ok t => (.ok t, { cache with trees := ((d.name, text), t) :: cache.trees })

/-- The line index of a text, kept in the cache. -/
def lineIndex (cache : ParseCache) (text : Text) : LineIndex × ParseCache :=
  match cache.indexes.find? (·.text = text) with
  | some found => (found.index, cache)
  | none => (.ofText text, { cache with indexes := { text } :: cache.indexes })

/-- Whatever the cache holds, the line index of a text is the one that the text has. -/
theorem lineIndex_fst (cache : ParseCache) (text : Text) :
    (cache.lineIndex text).1 = .ofText text := by
  unfold lineIndex
  split
  next found h =>
    have ht := List.find?_some h
    simp only [decide_eq_true_eq] at ht
    rw [found.index_eq, ht]
  next => rfl

/-- Forgets every tree, every line index and the counts. -/
def clear (cache : ParseCache) : ParseCache := { languages := cache.languages }

def size (cache : ParseCache) : Nat := cache.trees.length

end ParseCache

end StyleRules
