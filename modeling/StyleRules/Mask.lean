import StyleRules.Dialect

namespace StyleRules

namespace Mask

/-- Where the scanner of a text is. A number counts the characters that are already known to
belong to a delimiter and are passed without a look. -/
inductive Region where
  | code
  | lineComment
  | blockComment (pending : Nat)
  | blockEnd (pending : Nat)
  | literal (quote : Text) (pending : Nat)
  | literalEnd (pending : Nat)
  deriving DecidableEq, Repr

/-- A space, but line breaks stay. -/
def blank (c : Char) : Char := if c = '\r' ∨ c = '\n' then c else ' '

/-- The quote that opens a literal at the start of a text: three times the character, or once. -/
def openingQuote (quotes : List Text) (c : Char) (rest : Text) : Option Text :=
  if [c] ∈ quotes then
    some (if Text.startsWith [c, c] rest then [c, c, c] else [c])
  else none

/-- The region that a text opens where code is expected. -/
def opens (d : Dialect) (c : Char) (rest : Text) : Region :=
  if Text.startsWith d.lineComment (c :: rest) then
    if c = '\n' then .code else .lineComment
  else
    match d.blockComment with
    | some (opening, closing) =>
      if Text.startsWith opening (c :: rest) then
        if closing = [] then .blockEnd opening.length
        else if opening = [] ∧ Text.startsWith closing (c :: rest) then .blockEnd closing.length
        else .blockComment opening.length
      else (openingQuote d.quotes c rest).elim .code fun quote => .literal quote quote.length
    | none => (openingQuote d.quotes c rest).elim .code fun quote => .literal quote quote.length

/-- The region that a character belongs to, given the region before it is looked at. -/
def enter (d : Dialect) (region : Region) (c : Char) (rest : Text) : Region :=
  match region with
  | .code => opens d c rest
  | .lineComment => if c = '\n' then opens d c rest else .lineComment
  | .blockComment 0 =>
    match d.blockComment with
    | some (_, closing) =>
      if Text.startsWith closing (c :: rest) then .blockEnd closing.length else .blockComment 0
    | none => .blockComment 0
  | .blockEnd 0 => opens d c rest
  | .literal quote 0 =>
    if Text.startsWith quote (c :: rest) then .literalEnd quote.length
    else if quote.length = 1 ∧ (c = '\r' ∨ c = '\n') then opens d c rest
    else .literal quote 0
  | .literalEnd 0 => opens d c rest
  | pending => pending

/-- The region after a character that belongs to the region given. -/
def leave (region : Region) (c : Char) : Region :=
  match region with
  | .blockComment (n + 1) => .blockComment n
  | .blockEnd (n + 1) => .blockEnd n
  | .literal quote 0 => if c = '\\' then .literal quote 1 else .literal quote 0
  | .literal quote (n + 1) => .literal quote n
  | .literalEnd (n + 1) => .literalEnd n
  | region => region

/-- What stands for a character of a region. -/
def shown (comments : Bool) (region : Region) (c : Char) : Char :=
  match region with
  | .code => c
  | .lineComment | .blockComment _ | .blockEnd _ => if comments then blank c else c
  | .literal .. | .literalEnd _ => blank c

/-- Masks a text from a region on. -/
def scan (d : Dialect) (comments : Bool) (region : Region) : Text → Text
  | [] => []
  | c :: rest =>
    let here := enter d region c rest
    shown comments here c :: scan d comments (leave here c) rest

end Mask

/-- The text with its literals blanked out, and its comments too if `comments` says so. A literal
of a single quote ends at the end of its line when nothing closes it. -/
def mask (text : Text) (d : Dialect) (comments : Bool := true) : Text :=
  Mask.scan d comments .code text

end StyleRules
