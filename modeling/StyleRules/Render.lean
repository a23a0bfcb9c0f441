import StyleRules.Diagnostic
import StyleRules.Marked
import StyleRules.Text.Lines

namespace StyleRules

namespace Render

def fence : Text := "```".toList

/-- Lines between fences. -/
def fenced (lines : List Text) : Text := Text.join ['\n'] (fence :: lines ++ [fence])

/-- A text between fences. -/
def source (text : Text) : Text := fenced text.splitLines

/-- The line that points at a character of the line above it. -/
def caretLine (character : Nat) (d : Diagnostic) : Text :=
  List.replicate (character - 1) ' ' ++ "^ ".toList ++ d.headline

/-- Puts a line after the first `count` lines. -/
def insertLine (lines : List Text) (count : Nat) (line : Text) : List Text :=
  lines.take count ++ line :: lines.drop count

/-- Annotates lines with diagnostics one after the other; those without a place are set aside. -/
def annotate (lines : List Text) : List Diagnostic → List Text × List Diagnostic
  | [] => (lines, [])
  | d :: rest =>
    match d.location.line, d.location.character with
    | some line, some character => annotate (insertLine lines line (caretLine character d)) rest
    | _, _ =>
      let (lines, unplaced) := annotate lines rest
      (lines, d :: unplaced)

/-- A text with a line of its own below each diagnosed line. The diagnostics are taken from the last
to the first, so that no line moves before it is annotated; those without a place come last. -/
def diagnostics (ds : List Diagnostic) (text : Text) : Text :=
  let (lines, unplaced) := annotate text.splitLines (Location.sortDescendingOn (·.location) ds)
  fenced lines
    ++ (if unplaced = [] then []
      else "\nDiagnostics without a position:\n".toList
        ++ Text.join ['\n'] (unplaced.reverse.map fun d => ' ' :: ' ' :: d.toText))

/-- Puts a marker into a line before the given character, or at its end if it is shorter. -/
def markLine (marker : Text) (character : Nat) (line : Text) : Text :=
  line.take (character - 1) ++ marker ++ line.drop (character - 1)

/-- Puts a marker at a location; lines that are missing come into being. -/
def mark (marker : Text) (lines : List Text) (l : Location) : List Text :=
  match l.line, l.character with
  | some line, some character =>
    let lines := lines ++ List.replicate (line - lines.length) []
    lines.modify (line - 1) (markLine marker character)
  | _, _ => lines

/-- A text with markers at locations, put in from the last to the first. -/
def locations (ls : List Location) (text : Text) (marker : Text := Marked.violation) : Text :=
  fenced ((Location.sortDescendingOn id ls).foldl (mark marker) text.splitLines)

end Render

end StyleRules
