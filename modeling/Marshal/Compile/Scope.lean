import Marshal.Compile.Table
import Marshal.Text.Identifier

/-!
# Names in scope

What the names in a schema refer to: its own declarations and those of its
imports. A name may carry the package of what it refers to, or leave it out,
and may start with a dot. Own declarations come first, then imported ones named
with their package, and then imported ones named without it, of which there
must be only one.

* `Scope.resolve?` looks a name up;
* `Scope.mapField` and `Scope.mapService` resolve all names of a field and of a
  service.
-/

namespace Marshal

open Text

/-- What the names in a schema can refer to. -/
structure Scope where
  schema : Schema
  imports : List CompiledSchema

/-- The position of the last element with a property. -/
def lastIndex? {α : Type} (p : α → Bool) : List α → Option Nat
  | [] => none
  | a :: rest =>
    match lastIndex? p rest with
    | some i => some (i + 1)
    | none => if p a then some 0 else none

/-- A name without the package and the dot in front of it, if it has these. -/
def unqualified? (package name : String) : Option String :=
  match after? package.toList name.toList with
  | some ('.' :: rest) => some (String.ofList rest)
  | _ => none

/-- Several imports declare what a name could stand for. -/
structure Ambiguity where
  name : String
  /-- The imports that declare it. -/
  imports : List String
  deriving DecidableEq

namespace Scope

/-- The own message or enum of a name. Of several the last one counts. -/
def findOwn? (c : Scope) (name : String) : Option ElementType :=
  match lastIndex? (·.name = name) c.schema.messages with
  | some i => some (.message ⟨.own, i⟩)
  | none => (lastIndex? (·.name = name) c.schema.enums).map fun i => .enum ⟨.own, i⟩

/-- A name without the own package, if it has it. -/
def withoutPackage (c : Scope) (name : String) : String :=
  (c.schema.package.bind (unqualified? · name)).getD name

/-- The first imported declaration that a name means together with its package. -/
def findQualified? (c : Scope) (name : String) : Option ElementType :=
  c.imports.zipIdx.findSome? fun (schema, i) => do
    let package ← schema.package
    let rest ← unqualified? package name
    schema.findType? rest (.imported i)

/-- The imported declarations of a name, each with the schema that declares it. -/
def findUnqualified (c : Scope) (name : String) : List (CompiledSchema × ElementType) :=
  c.imports.zipIdx.filterMap fun (schema, i) =>
    (schema.findType? name (.imported i)).map (schema, ·)

/-- The message or enum that a name refers to, if there is one. -/
def resolve? (c : Scope) (name : String) : Except Ambiguity (Option ElementType) :=
  let name := String.ofList (withoutDot name.toList)
  match c.findOwn? (c.withoutPackage name) with
  | some found => .ok (some found)
  | none =>
    match c.findQualified? name with
    | some found => .ok (some found)
    | none =>
      match c.findUnqualified name with
      | [] => .ok none
      | [(_, found)] => .ok (some found)
      | many => .error ⟨name, many.map (·.1.name)⟩

/-- The message or enum that a member refers to. -/
def resolveName (c : Scope) (owner member name : String) : Except CompileError ElementType :=
  match c.resolve? name with
  | .ok (some found) => .ok found
  | .ok none => .error (.unresolvedType owner member name)
  | .error a => .error (.inconsistent (.field owner member) (.ambiguous a.name a.imports))

/-- The type of a value that stands by itself or in a container. -/
def element (c : Scope) (owner member : String) : FieldType → Except CompileError ElementType
  | .scalar s => .ok (.scalar s)
  | .named name => c.resolveName owner member name
  | container => .error (.inconsistent (.field owner member) (.nestedContainer container))

/-- Whether the keys of a map may have the type. -/
def isMapKey (key : ElementType) : Bool :=
  key.kind.isMapKey && !(match key with | .scalar s => s.isFloat | _ => false)

/-- The type of a field. -/
def fieldType (c : Scope) (message field : String) : FieldType → Except CompileError ResolvedType
  | .optional inner => .optional <$> c.element message field inner
  | .repeated inner => .repeated <$> c.element message field inner
  | .map key value => do
    let keyType ← c.element message field key
    let valueType ← c.element message field value
    if isMapKey keyType then return .map keyType valueType
    else throw (.mapKey message field key)
  | inner => .single <$> c.element message field inner

/-- The mapping of a field. -/
def mapField (c : Scope) (m : Message) (f : Field) : Except CompileError FieldMapping :=
  FieldMapping.ofType f <$> c.fieldType m.name f.name f.type

/-- The mappings of the fields of a message. -/
def mapMessage (c : Scope) (m : Message) : Except CompileError (List FieldMapping) :=
  m.fields.mapM (c.mapField m)

/-- The message that a method takes or gives. -/
def resolveMessage (c : Scope) (service method name : String) : Except CompileError MessageId := do
  match ← c.resolveName service method name with
  | .message id => return id
  | _ => throw (.inconsistent (.method service method) (.notMessage name))

/-- The plan of a method. -/
def mapMethod (c : Scope) (service : String) (m : Method) : Except CompileError MethodPlan := do
  let input ← c.resolveMessage service m.name m.input
  let output ← c.resolveMessage service m.name m.output
  return ⟨m.name, input, output⟩

/-- The plan of a service. -/
def mapService (c : Scope) (s : Service) : Except CompileError ServicePlan := do
  let methods ← s.methods.mapM (c.mapMethod s.name)
  return ⟨s.name, methods⟩

end Scope

end Marshal
