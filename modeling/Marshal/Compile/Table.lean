import Marshal.Ascending
import Marshal.Compile.Error
import Marshal.Plan.Compiled

/-!
# The import table

The compiled schemas that others may import, by their names. What has been
published stays as it is.
-/

namespace Marshal

/-- The schemas published so far, in ascending order of their names. -/
structure ImportTable where
  entries : List (String × CompiledSchema) := []

namespace ImportTable

/-- Nothing published yet. -/
def empty : ImportTable := {}

/-- The schema published under a name. -/
def get? (t : ImportTable) (name : String) : Option CompiledSchema := Ascending.get? name t.entries

/-- The number of schemas published. -/
def size (t : ImportTable) : Nat := t.entries.length

/-- The table with one more schema, under its name. -/
def publish (t : ImportTable) (s : CompiledSchema) : Except CompileError ImportTable :=
  match t.get? s.name with
  | some _ => .error (.inconsistent .imports (.alreadyPublished s.name))
  | none => .ok ⟨Ascending.insert s.name s t.entries⟩

end ImportTable

end Marshal
