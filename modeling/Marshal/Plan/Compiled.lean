import Marshal.Plan.Basic

/-!
# Compiled schemas

A compiled schema holds the plans of its messages and enums, the compiled
schemas that it imports, and an order in which its declarations can be emitted.
Since it holds its imports, an identity can be followed from schema to schema
without anything else at hand.
-/

namespace Marshal

/-- A declaration of a schema, by its position. -/
inductive Declaration
  | enum (index : Nat)
  | message (index : Nat)
  deriving DecidableEq

/-- The order in which the parts of a schema are emitted. -/
structure EmissionOrder where
  /-- The positions of the imports that are referred to. -/
  imports : List Nat
  declarations : List Declaration
  deriving DecidableEq

/-- A compiled schema. -/
structure CompiledSchema where
  name : String
  package : Option String
  imports : List CompiledSchema
  enums : List EnumPlan
  messages : List MessagePlan
  /-- The mappings of the fields of every message. -/
  mappings : List (List FieldMapping)
  services : List ServicePlan
  order : EmissionOrder

namespace CompiledSchema

/-- The message of a name. -/
def message? (s : CompiledSchema) (name : String) : Option MessagePlan :=
  s.messages.find? (·.name = name)

/-- The enum of a name. -/
def enum? (s : CompiledSchema) (name : String) : Option EnumPlan :=
  s.enums.find? (·.name = name)

/-- The message or enum of a name, as seen from where this schema has the
    origin `origin`. -/
def findType? (s : CompiledSchema) (name : String) (origin : Origin) : Option ElementType :=
  match s.messages.findIdx? (·.name = name) with
  | some index => some (.message ⟨origin, index⟩)
  | none => (s.enums.findIdx? (·.name = name)).map fun index => .enum ⟨origin, index⟩

/-- The schema that an identity of this origin points into. -/
def owner? (s : CompiledSchema) : Origin → Option CompiledSchema
  | .own => some s
  | .imported i => s.imports[i]?

/-- The plan of a message, with the schema that the identities in it are
    relative to. -/
def messagePlan? (s : CompiledSchema) (id : MessageId) : Option (CompiledSchema × MessagePlan) := do
  let owner ← s.owner? id.origin
  let plan ← owner.messages[id.index]?
  return (owner, plan)

/-- The plan of an enum. -/
def enumPlan? (s : CompiledSchema) (id : EnumId) : Option EnumPlan := do
  let owner ← s.owner? id.origin
  owner.enums[id.index]?

end CompiledSchema

end Marshal
