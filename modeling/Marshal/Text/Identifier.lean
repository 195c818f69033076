import Marshal.Text.Words

/-!
# Identifiers

An identifier is a letter or underscore followed by letters, digits and
underscores, all of them ASCII. A package is a list of identifiers with dots
between them, and a type is referred to by such a list, with at most one dot
in front of it.
-/

namespace Marshal.Text

/-- The characters an identifier may start with. -/
def isIdentStart (c : Char) : Bool := c.isAlpha || c = '_'

/-- The characters an identifier may go on with. -/
def isIdentRest (c : Char) : Bool := c.isAlphanum || c = '_'

/-- The whole text is an identifier. -/
def isIdentifier : List Char → Bool
  | [] => false
  | c :: cs => isIdentStart c && cs.all isIdentRest

/-- The whole text is a list of identifiers with dots between them. -/
def isDotted (s : List Char) : Bool := (s.splitOn '.').all isIdentifier

/-- A text without the dot in front of it, if it has one. -/
def withoutDot : List Char → List Char
  | '.' :: s => s
  | s => s

/-- The whole text can stand for a type: identifiers with dots between them,
    and possibly one dot in front. -/
def isReference (s : List Char) : Bool := isDotted (withoutDot s)

end Marshal.Text
