import Marshal.Plan.Compiled
import Marshal.Text.Case

/-!
# Names in generated code

Types, symbols and services are named in capitalized words, fields and methods
in lower case with underscores. A name that would be a keyword of Rust gets an
underscore after it.

A schema becomes a module, at a path made of its package, or else of the stem
of its own name.
-/

namespace Marshal

namespace Code

open Text

/-- The keywords of Rust, with the words reserved for later use. -/
def keywords : List String :=
  ["as", "async", "await", "break", "const", "continue", "crate", "dyn", "else", "enum", "extern",
    "false", "fn", "for", "if", "impl", "in", "let", "loop", "match", "mod", "move", "mut", "pub",
    "ref", "return", "self", "Self", "static", "struct", "super", "trait", "true", "type",
    "unsafe", "use", "where", "while", "yield", "abstract", "become", "box", "do", "final", "gen",
    "macro", "override", "priv", "try", "typeof", "unsized", "virtual"]

/-- The name itself, or with an underscore after it if it is a keyword. -/
def escapeKeyword (name : String) : String :=
  if name ∈ keywords then name ++ "_" else name

/-- The name of a type, a symbol or a service. -/
def typeIdent (name : String) : String :=
  escapeKeyword (String.ofList (pascalCase name.toList))

/-- The name of a field, a method or a module. -/
def fieldIdent (name : String) : String :=
  escapeKeyword (String.ofList (snakeCase name.toList))

/-- What follows the last slash of a path, up to the first dot of that. -/
def fileStem (path : List Char) : List Char :=
  ((path.splitOn '/').getLastD []).takeWhile (· != '.')

/-- A text with an underscore for everything that is not an ASCII letter or
    digit. -/
def underscored (s : List Char) : List Char :=
  s.map fun c => if c.isAlphanum then c else '_'

end Code

namespace CompiledSchema

open Code Text

/-- The path of the module of a schema: the words of its package, or the stem
    of its name if it has none. -/
def modulePath (s : CompiledSchema) : List String :=
  match s.package with
  | some package => (words '.' package).map fieldIdent
  | none => [fieldIdent (String.ofList (underscored (fileStem s.name.toList)))]

/-- The name under which another module refers to that of a schema. -/
def importAlias (s : CompiledSchema) : String := joinWith "_" s.modulePath

/-- The file that the module of a schema is kept in. -/
def moduleFile (s : CompiledSchema) : String := joinWith "/" s.modulePath ++ ".rs"

end CompiledSchema

end Marshal
