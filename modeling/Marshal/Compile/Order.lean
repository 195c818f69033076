import Marshal.Compile.Table
import Marshal.Graph

/-!
# Orders of declarations and schemas

* A message that holds another one by value, in a field that is neither
  optional nor repeated nor a map, comes after it, and none holds itself so,
  directly or through others: `checkValueRecursion`, `declarationOrder`.
* A schema comes after those it imports: `orderSchemas`.
-/

namespace Marshal

/-- The messages of the schema itself that a message holds by value, with the
    fields that hold them. -/
def MessagePlan.valueEdges (p : MessagePlan) : List (String × Nat) :=
  p.steps.filterMap fun step =>
    match step.shape with
    | .single (.nested ⟨.own, index⟩) => some (step.field, index)
    | _ => none

/-- The edges from the message at a position. -/
def valueEdgesAt (plans : List MessagePlan) (i : Nat) : List (String × Nat) :=
  match plans[i]? with
  | some p => p.valueEdges
  | none => []

/-- The search of messages by what they hold by value. -/
def valueSearch (plans : List MessagePlan) : Graph.Search String :=
  Graph.search (valueEdgesAt plans) plans.length

/-- The name of the message at a position. -/
def planName (plans : List MessagePlan) (i : Nat) : String :=
  match plans[i]? with
  | some p => p.name
  | none => ""

/-- Finds a message that holds itself by value. -/
def checkValueRecursion (plans : List MessagePlan) : Except CompileError Unit :=
  match (valueSearch plans).cycle with
  | some ((first, field) :: path) =>
    let name := planName plans first
    .error (.valueRecursion name field (name :: path.map (planName plans ·.1) ++ [name]))
  | _ => .ok ()

/-- The enums in the order of their declaration, and then the messages, each
    after those it holds by value. -/
def declarationOrder (enums : List EnumPlan) (plans : List MessagePlan) : List Declaration :=
  (List.range enums.length).map .enum ++ (valueSearch plans).order.map .message

/-- The position of an import in an origin. -/
def Origin.position? : Origin → Option Nat
  | .own => none
  | .imported i => some i

/-- The origin of what a value step refers to. -/
def ValueStep.origin? : ValueStep → Option Origin
  | .scalar _ => none
  | .enum id => some id.origin
  | .nested id => some id.origin

/-- The origins of everything that plans and services refer to. -/
def referredOrigins (plans : List MessagePlan) (services : List ServicePlan) : List Origin :=
  plans.flatMap (fun p => p.steps.flatMap fun step => step.shape.values.filterMap ValueStep.origin?)
    ++ services.flatMap (fun s => s.methods.flatMap fun m => [m.input.origin, m.output.origin])

/-- The positions of the imports that plans and services refer to, ascending. -/
def usedImports (plans : List MessagePlan) (services : List ServicePlan) : List Nat :=
  Ascending.keysOf ((referredOrigins plans services).filterMap Origin.position?)

/-- The order in which a schema is emitted. -/
def emissionOrder (enums : List EnumPlan) (plans : List MessagePlan)
    (services : List ServicePlan) : EmissionOrder where
  imports := usedImports plans services
  declarations := declarationOrder enums plans

/-! ## Schemas -/

/-- Finds a schema of a batch whose name another one has, in the batch before
    it or among those published. -/
def checkDistinct (t : ImportTable) :
    (earlier : List String) → List Schema → Except CompileError Unit
  | _, [] => .ok ()
  | earlier, s :: rest =>
    if s.name ∈ earlier ∨ (t.get? s.name).isSome then
      .error (.inconsistent .imports (.repeatedSchema s.name))
    else checkDistinct t (s.name :: earlier) rest

/-- The first import of a schema that is neither in the batch nor published. -/
def missingImport? (batch : List Schema) (t : ImportTable) (s : Schema) : Option String :=
  s.imports.find? fun name => !(batch.any (·.name = name)) && (t.get? name).isNone

/-- Finds an import that is neither in the batch nor published. -/
def checkImported (batch : List Schema) (t : ImportTable) : List Schema → Except CompileError Unit
  | [] => .ok ()
  | s :: rest =>
    match missingImport? batch t s with
    | some name => .error (.unresolvedImport s.name name)
    | none => checkImported batch t rest

/-- The edges from the schema at a position: its imports from the batch. -/
def importEdges (batch : List Schema) (i : Nat) : List (Unit × Nat) :=
  match batch[i]? with
  | some s => s.imports.filterMap fun name =>
      (batch.findIdx? (·.name = name)).map fun target => ((), target)
  | none => []

/-- The search of a batch by what its schemas import from it. -/
def importSearch (batch : List Schema) : Graph.Search Unit :=
  Graph.search (importEdges batch) batch.length

/-- The name of the schema at a position. -/
def schemaName (batch : List Schema) (i : Nat) : String :=
  match batch[i]? with
  | some s => s.name
  | none => ""

/-- The positions of the schemas of a batch, each after those it imports. All
    imports have to be in the batch or published, and all names new. -/
def orderSchemas (batch : List Schema) (t : ImportTable) : Except CompileError (List Nat) := do
  checkDistinct t [] batch
  checkImported batch t batch
  match (importSearch batch).cycle with
  | some (first :: path) =>
    throw (.inconsistent .imports (.importCycle
      ((first :: path ++ [first]).map (schemaName batch ·.1))))
  | _ => return (importSearch batch).order

end Marshal
