import Marshal.Text.Words

/-!
# Source texts

A source text is made of lines and of blocks: a line that opens, the lines
inside, indented by four spaces, and a line that closes.

* `Source.lines`: the lines of a piece of text at some depth;
* `Source.document`: the text of several sections, with an empty line between
  any two of them.
-/

namespace Marshal.Code

open Text

/-- A piece of a source text. -/
inductive Source
  | line (text : String)
  | blank
  | block (head : String) (body : List Source) (tail : String)

namespace Source

/-- A line at a depth. -/
def indented (depth : Nat) (text : String) : String :=
  String.ofList (List.replicate (4 * depth) ' ') ++ text

mutual

/-- The lines of a piece of text at a depth. -/
def lines (depth : Nat) : Source → List String
  | .line text => [indented depth text]
  | .blank => [""]
  | .block head body tail =>
    indented depth head :: (linesAll (depth + 1) body ++ [indented depth tail])

/-- The lines of pieces of text, one after the other. -/
def linesAll (depth : Nat) : List Source → List String
  | [] => []
  | piece :: pieces => lines depth piece ++ linesAll depth pieces

end

/-- A block in braces. -/
def braces (head : String) (body : List Source) : Source := .block (head ++ " \x7b") body "\x7d"

/-- A text of sections with empty lines between them. It ends with a line
    break. -/
def document (sections : List (List Source)) : String :=
  joinWith "\n\n" (sections.map fun pieces => joinWith "\n" (linesAll 0 pieces)) ++ "\n"

end Source

end Marshal.Code
