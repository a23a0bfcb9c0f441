import StyleRules.Text.WordChar

namespace StyleRules

namespace Text

/-- The blank characters, as inclusive ranges of code points. -/
def blankRanges : List (Nat × Nat) :=
  [
    (9, 13), (28, 32), (133, 133), (160, 160), (5760, 5760), (8192, 8202), (8232, 8233),
    (8239, 8239), (8287, 8287), (12288, 12288)
  ]

/-- Whether a character is blank: a space, a tab, a line end or a separator. -/
def isBlank (c : Char) : Bool := inRanges blankRanges c

def isSpaceOrTab (c : Char) : Bool := c == ' ' || c == '\t'

/-- Whether a character ends a line in the wide sense, where form feeds, separators of records
and the line ends of Unicode count too. -/
def isLineBoundary (c : Char) : Bool :=
  inRanges [(10, 13), (28, 30), (133, 133), (8232, 8233)] c

end Text

end StyleRules
