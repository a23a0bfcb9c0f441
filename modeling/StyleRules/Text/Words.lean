import StyleRules.Text.WordChar

namespace StyleRules

namespace Text

def words : Text → List Text
  | [] => []
  | c :: rest =>
    if isWordChar c then
      match words rest with
      | word :: further =>
        if rest.head?.any isWordChar then (c :: word) :: further else [c] :: word :: further
      | [] => [[c]]
    else words rest

end Text

end StyleRules
