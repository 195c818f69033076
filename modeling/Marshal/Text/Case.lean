import Marshal.Text.Words

/-!
# Letter case of names

Names of declarations are ASCII (see `isIdentifier`), and so are the names
converted here: only ASCII letters have a case.

* `pascalCase`: `COLOR_RED` becomes `ColorRed`, `SIGNAL` becomes `Signal` and
  `httpRequest` becomes `HttpRequest`;
* `snakeCase`: `sessionID` becomes `session_id` and `userName` becomes
  `user_name`.
-/

namespace Marshal.Text

/-- A word with its first letter in upper case. -/
def capitalize : List Char → List Char
  | [] => []
  | c :: cs => c.toUpper :: cs

/-- A word with its first letter in upper case and the others in lower case. -/
def capitalizeOnly : List Char → List Char
  | [] => []
  | c :: cs => c.toUpper :: cs.map Char.toLower

/-- The name as one word made of capitalized words. The words of a name with
    underscores stand between these, and a word in upper case throughout keeps
    only its first capital; any other name keeps its letters but the first. -/
def pascalCase (s : List Char) : List Char :=
  if s.contains '_' then (s.splitOn '_').flatMap capitalizeOnly
  else if s.map Char.toUpper = s then capitalizeOnly s
  else capitalize s

/-- Whether a new word starts at a capital, given the characters around it:
    after a character that is neither a capital nor an underscore, and after a
    capital where a small letter follows. -/
def startsWord (before : Option Char) (following : List Char) : Bool :=
  match before with
  | none => false
  | some b => b != '_' && (!b.isUpper || (match following with | [] => false | n :: _ => n.isLower))

/-- `snakeCase` from the middle of a name, after the character `before`. -/
def snakeAfter (before : Option Char) : List Char → List Char
  | [] => []
  | c :: cs =>
    if c.isUpper then
      if startsWord before cs then '_' :: c.toLower :: snakeAfter (some c) cs
      else c.toLower :: snakeAfter (some c) cs
    else c :: snakeAfter (some c) cs

/-- The name in lower case, with an underscore in front of every capital that
    starts a word. A run of capitals is one word. -/
def snakeCase (s : List Char) : List Char := snakeAfter none s

end Marshal.Text
