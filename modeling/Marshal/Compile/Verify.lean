import Marshal.Compile.Table
import Marshal.Text.Identifier

/-!
# Well-formed schemas

What has to hold of a schema before its types are looked up: its names are
identifiers and differ where they have to, its enums have symbols, its field
numbers are positive and differ, its imports are published, and what its fields
refer to has the form of a reference.

`Schema.verify` finds the first violation, in this order: the package, the
imports, the names of enums and then messages, the enums, the messages, the
services.
-/

namespace Marshal

open Text

/-- Checks every element of a list, given those before it, the last one first. -/
def checkEach {ε α : Type} (check : (earlier : List α) → α → Except ε Unit) :
    (earlier : List α) → List α → Except ε Unit
  | _, [] => .ok ()
  | earlier, a :: rest =>
    match check earlier a with
    | .error e => .error e
    | .ok () => checkEach check (a :: earlier) rest

/-- A name has to be an identifier that none before it has. -/
def checkName (place : Place) (role : Role) (earlier : List String) (name : String) :
    Except CompileError Unit :=
  if !isIdentifier name.toList then .error (.inconsistent place (.notIdentifier role name))
  else if name ∈ earlier then .error (.inconsistent place (.repeatedName role name))
  else .ok ()

/-- A package has to be made of identifiers. -/
def Schema.checkPackage (s : Schema) : Except CompileError Unit :=
  match s.package with
  | none => .ok ()
  | some package =>
    if isDotted package.toList then .ok ()
    else .error (.inconsistent (.schema s.name) (.package package))

/-- An import has to be another schema, named only once, and published. -/
def Schema.checkImport (s : Schema) (t : ImportTable) (earlier : List String) (name : String) :
    Except CompileError Unit :=
  if name = s.name then .error (.inconsistent (.schema s.name) .selfImport)
  else if name ∈ earlier then .error (.inconsistent (.schema s.name) (.repeatedImport name))
  else match t.get? name with
    | some _ => .ok ()
    | none => .error (.unresolvedImport s.name name)

/-- A symbol has to have a name and a number of its own. -/
def Enum.checkSymbol (e : Enum) (earlier : List EnumSymbol) (v : EnumSymbol) :
    Except CompileError Unit :=
  match checkName (.enum e.name) .symbol (earlier.map (·.name)) v.name with
  | .error err => .error err
  | .ok () =>
    if v.value ∈ earlier.map (·.value) then
      .error (.inconsistent (.enum e.name) (.repeatedValue v.value))
    else .ok ()

/-- An enum has to have symbols, with names and numbers of their own. -/
def Enum.check (e : Enum) : Except CompileError Unit :=
  if e.values.isEmpty then .error (.inconsistent (.enum e.name) .noSymbols)
  else checkEach e.checkSymbol [] e.values

/-- Every name in a type has to have the form of a reference. -/
def FieldType.checkReferences (place : Place) : FieldType → Except CompileError Unit
  | .scalar _ => .ok ()
  | .named name =>
    if isReference name.toList then .ok () else .error (.inconsistent place (.notReference name))
  | .optional inner | .repeated inner => inner.checkReferences place
  | .map key value =>
    match key.checkReferences place with
    | .error err => .error err
    | .ok () => value.checkReferences place

/-- A field has to have a name and a positive number of its own, and a type
    that refers to others in the right form. -/
def Message.checkField (m : Message) (earlier : List Field) (f : Field) :
    Except CompileError Unit :=
  match checkName (.message m.name) .field (earlier.map (·.name)) f.name with
  | .error err => .error err
  | .ok () =>
    if f.number = 0 then .error (.inconsistent (.message m.name) (.zeroNumber f.name))
    else if f.number ∈ earlier.map (·.number) then
      .error (.inconsistent (.message m.name) (.repeatedNumber f.name))
    else f.type.checkReferences (.message m.name)

/-- The fields of a message have to be in order. -/
def Message.check (m : Message) : Except CompileError Unit := checkEach m.checkField [] m.fields

/-- A service has to have a name of its own, and so do its methods. -/
def Schema.checkService (s : Schema) (earlier : List Service) (service : Service) :
    Except CompileError Unit :=
  match checkName (.schema s.name) .service (earlier.map (·.name)) service.name with
  | .error err => .error err
  | .ok () =>
    checkEach (checkName (.service service.name) .method) [] (service.methods.map (·.name))

/-- The names of the enums and messages of a schema. -/
def Schema.typeNames (s : Schema) : List String :=
  s.enums.map (·.name) ++ s.messages.map (·.name)

/-- Checks that a schema is well formed, with its imports among those published. -/
def Schema.verify (s : Schema) (t : ImportTable) : Except CompileError Unit := do
  s.checkPackage
  checkEach (s.checkImport t) [] s.imports
  checkEach (checkName (.schema s.name) .type) [] s.typeNames
  checkEach (fun _ e => e.check) [] s.enums
  checkEach (fun _ m => m.check) [] s.messages
  checkEach s.checkService [] s.services

end Marshal
