import Marshal.Compile.Basic

/-!
# The log of a compilation

What is logged while a schema or a batch is compiled: an event after each stage
that was completed, a warning for every import that nothing refers to, and an
event for every schema of a batch that did not compile.
-/

namespace Marshal

/-- An event of a compilation. -/
inductive Event
  | verified (imports : Nat)
  | mapped (messages services : Nat)
  | synthesized (enums plans : Nat)
  | unusedImport (schema name : String)
  | ordered (declarations : Nat)
  | failed (schema : String) (error : CompileError)
  deriving DecidableEq

/-- An event as a line: its level, its wording and its data. -/
def Event.line : Event → String
  | .verified imports => s!"DEBUG verified imports={imports}"
  | .mapped messages services => s!"DEBUG mapped types messages={messages} services={services}"
  | .synthesized enums plans => s!"DEBUG synthesized codecs enums={enums} plans={plans}"
  | .unusedImport schema name => s!"WARN import is never used import={name} schema={schema}"
  | .ordered declarations => s!"DEBUG resolved emission order decls={declarations}"
  | .failed schema error => s!"DEBUG schema failed to compile error={error.message} schema={schema}"

/-- Whether an event is a warning. -/
def Event.isWarning : Event → Bool
  | .unusedImport .. => true
  | _ => false

namespace Schema

/-- The imports that nothing refers to. -/
def unusedImports (s : Schema) (plans : List MessagePlan) (services : List ServicePlan) :
    List String :=
  s.imports.zipIdx.filterMap fun (name, i) =>
    if i ∈ usedImports plans services then none else some name

/-- The events after the plans have been made. -/
def orderEvents (s : Schema) (plans : List MessagePlan) (services : List ServicePlan) :
    List Event :=
  match checkValueRecursion plans with
  | .error _ => []
  | .ok () =>
    (s.unusedImports plans services).map (.unusedImport s.name) ++
      [.ordered (declarationOrder s.enumPlans plans).length]

/-- The events after the imports have been found. -/
def mapEvents (s : Schema) (imports : List CompiledSchema) : List Event :=
  let scope : Scope := ⟨s, imports⟩
  match s.messages.mapM scope.mapMessage, s.services.mapM scope.mapService with
  | .ok mappings, .ok services =>
    let plans := s.messagePlans mappings
    [.mapped mappings.length services.length, .synthesized s.enums.length plans.length] ++
      s.orderEvents plans services
  | _, _ => []

/-- The events of compiling a schema. -/
def compileEvents (s : Schema) (t : ImportTable) : List Event :=
  match s.verify t, s.importsFrom t with
  | .ok (), .ok imports => .verified imports.length :: s.mapEvents imports
  | _, _ => []

end Schema

/-- The events of compiling schemas one after the other. -/
def ImportTable.eachEvents (t : ImportTable) : List Schema → List Event
  | [] => []
  | s :: rest =>
    let (outcome, next) := t.compileNext s
    let failure := match outcome.result with
      | .error e => [Event.failed s.name e]
      | .ok _ => []
    s.compileEvents t ++ failure ++ next.eachEvents rest

/-- The events of compiling a batch. -/
def ImportTable.batchEvents (t : ImportTable) (batch : List Schema) : List Event :=
  match orderSchemas batch t with
  | .error _ => []
  | .ok order => t.eachEvents (order.filterMap (batch[·]?))

end Marshal
