import Marshal.Compile.Order
import Marshal.Compile.Scope
import Marshal.Compile.Verify

/-!
# Compilation

A schema is compiled against those published before: it is verified, its names
are resolved, its plans are made, and its declarations are put in order.
-/

namespace Marshal

namespace Schema

/-- The compiled schemas that a schema imports. -/
def importsFrom (s : Schema) (t : ImportTable) : Except CompileError (List CompiledSchema) :=
  s.imports.mapM fun name =>
    match t.get? name with
    | some found => .ok found
    | none => .error (.unresolvedImport s.name name)

/-- The plans of the enums of a schema. -/
def enumPlans (s : Schema) : List EnumPlan :=
  s.enums.zipIdx.map fun (e, i) => .ofEnum i e

/-- The plans of the messages of a schema, from the mappings of their fields. -/
def messagePlans (s : Schema) (mappings : List (List FieldMapping)) : List MessagePlan :=
  (s.messages.zip mappings).zipIdx.map fun ((m, fields), i) => .ofMappings i m fields

/-- Compiles a schema against those published. -/
def compile (s : Schema) (t : ImportTable) : Except CompileError CompiledSchema := do
  s.verify t
  let imports ← s.importsFrom t
  let scope : Scope := ⟨s, imports⟩
  let mappings ← s.messages.mapM scope.mapMessage
  let services ← s.services.mapM scope.mapService
  let messages := s.messagePlans mappings
  checkValueRecursion messages
  return {
    name := s.name
    package := s.package
    imports := imports
    enums := s.enumPlans
    messages := messages
    mappings := mappings
    services := services
    order := emissionOrder s.enumPlans messages services }

end Schema

/-- What came of a schema of a batch. -/
structure BatchResult where
  name : String
  result : Except CompileError CompiledSchema

/-- Compiles a schema and publishes it, if it compiles. -/
def ImportTable.compileNext (t : ImportTable) (s : Schema) : BatchResult × ImportTable :=
  match s.compile t with
  | .error e => (⟨s.name, .error e⟩, t)
  | .ok c =>
    match t.publish c with
    | .error e => (⟨s.name, .error e⟩, t)
    | .ok t => (⟨s.name, .ok c⟩, t)

/-- Compiles schemas one after the other and publishes those that compile. -/
def ImportTable.compileEach (t : ImportTable) : List Schema → List BatchResult × ImportTable
  | [] => ([], t)
  | s :: rest =>
    let (result, t) := t.compileNext s
    let (results, t) := t.compileEach rest
    (result :: results, t)

/-- Compiles a batch, each schema after those it imports, and publishes those
    that compile. One that does not compile does not stop the others, but those
    that import it do not find it. -/
def ImportTable.compileBatch (t : ImportTable) (batch : List Schema) :
    Except CompileError (List BatchResult × ImportTable) := do
  let order ← orderSchemas batch t
  return t.compileEach (order.filterMap (batch[·]?))

end Marshal
