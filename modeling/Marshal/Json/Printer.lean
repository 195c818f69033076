import Marshal.Json.Basic
import Marshal.Text.Quoted
import Marshal.Text.Words

/-!
# Writing JSON

* `Json.compact` writes a document without blanks;
* `Json.pretty` writes every element and member on a line of its own, two
  spaces further in than what it stands in. Empty arrays and objects stay on
  one line.
-/

namespace Marshal.Json

/-- A number as it is spelt. -/
def Number.chars : Number → List Char
  | .integer negative magnitude => (if negative then ['-'] else []) ++ Nat.toDigits 10 magnitude
  | .decimal spelling => spelling.toList

/-- A string without text, spelt by a surrogate that has no partner. -/
def unpairedChars : List Char := "\"\\ud800\"".toList

mutual

/-- The characters of a document without blanks. -/
def chars : Json → List Char
  | .null => ['n', 'u', 'l', 'l']
  | .bool true => ['t', 'r', 'u', 'e']
  | .bool false => ['f', 'a', 'l', 's', 'e']
  | .number n => n.chars
  | .string text => Text.Quoted.encode text.toList
  | .array items => '[' :: (elementChars items ++ [']'])
  | .object members => '\x7b' :: (memberChars members ++ ['\x7d'])
  | .unpaired => unpairedChars

/-- The elements of an array, with commas between them. -/
def elementChars : List Json → List Char
  | [] => []
  | [v] => chars v
  | v :: vs => chars v ++ ',' :: elementChars vs

/-- The members of an object, with commas between them. -/
def memberChars : List (String × Json) → List Char
  | [] => []
  | [(name, v)] => Text.Quoted.encode name.toList ++ ':' :: chars v
  | (name, v) :: vs => Text.Quoted.encode name.toList ++ ':' :: (chars v ++ ',' :: memberChars vs)

end

/-- A document without blanks. -/
def compact (j : Json) : String := String.ofList (chars j)

/-- A new line that starts `depth` steps in. -/
def newline (depth : Nat) : String := "\n" ++ String.ofList (List.replicate (2 * depth) ' ')

mutual

/-- A document over several lines, as part of one that is `depth` steps in. -/
def prettyAt (depth : Nat) : Json → String
  | .array (v :: vs) =>
    "[" ++ newline (depth + 1) ++ Text.joinWith ("," ++ newline (depth + 1))
      (prettyItems (depth + 1) (v :: vs)) ++ newline depth ++ "]"
  | .object (m :: ms) =>
    "\x7b" ++ newline (depth + 1) ++ Text.joinWith ("," ++ newline (depth + 1))
      (prettyMembers (depth + 1) (m :: ms)) ++ newline depth ++ "\x7d"
  | .array [] => "[]"
  | .object [] => "\x7b\x7d"
  | .null => compact .null
  | .bool b => compact (.bool b)
  | .number n => compact (.number n)
  | .string text => compact (.string text)
  | .unpaired => compact .unpaired

/-- The elements of an array, each for a line of its own. -/
def prettyItems (depth : Nat) : List Json → List String
  | [] => []
  | v :: vs => prettyAt depth v :: prettyItems depth vs

/-- The members of an object, each for a line of its own. -/
def prettyMembers (depth : Nat) : List (String × Json) → List String
  | [] => []
  | (name, v) :: vs => (Text.quote name ++ ": " ++ prettyAt depth v) :: prettyMembers depth vs

end

/-- A document over several lines. -/
def pretty (j : Json) : String := prettyAt 0 j

end Marshal.Json
