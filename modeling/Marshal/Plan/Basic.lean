import Marshal.Schema.Basic
import Marshal.Wire.Reader

/-!
# Plans

A plan tells, step by step, how the values of a message are written and read:
one step for each field, in the order of their declaration. Types are referred
to by identities, relative to the schema that a plan belongs to.

Next to the plans stand the *mappings*, which record for every field the type
it was resolved to and each decision about its encoding.
-/

namespace Marshal

/-- The schema that an identity points into. -/
inductive Origin
  /-- The schema itself. -/
  | own
  /-- The schema at a position among its imports. -/
  | imported (position : Nat)
  deriving DecidableEq

/-- A message: the schema that declares it, and its position there. -/
structure MessageId where
  origin : Origin
  index : Nat
  deriving DecidableEq

/-- An enum: the schema that declares it, and its position there. -/
structure EnumId where
  origin : Origin
  index : Nat
  deriving DecidableEq

/-- The origin as error messages show it. -/
def Origin.display : Origin → String
  | .own => "Local"
  | .imported i => s!"Import({i})"

/-- The identity as error messages show it. -/
def MessageId.display (id : MessageId) : String :=
  "MessageId \x7b origin: " ++ id.origin.display ++ s!", index: {id.index} \x7d"

/-- The identity as error messages show it. -/
def EnumId.display (id : EnumId) : String :=
  "EnumId \x7b origin: " ++ id.origin.display ++ s!", index: {id.index} \x7d"

/-! ## Mappings -/

/-- A type that a container can hold. -/
inductive ElementType
  | scalar (s : Wire.Scalar)
  | enum (id : EnumId)
  | message (id : MessageId)
  deriving DecidableEq

/-- The kind of what is written for the values of a type. -/
def ElementType.kind : ElementType → Wire.Kind
  | .scalar s => s.kind
  | .enum _ => Wire.Primitive.ofEnum.kind
  | .message _ => .nested

/-- The type of a field, with its names resolved. -/
inductive ResolvedType
  | single (element : ElementType)
  | optional (element : ElementType)
  | repeated (element : ElementType)
  | map (key value : ElementType)
  deriving DecidableEq

/-- How many values a field holds. -/
inductive Presence
  | required
  | optional
  | repeated
  | map
  deriving DecidableEq

namespace ResolvedType

/-- How many values a field of the type holds. -/
def presence : ResolvedType → Presence
  | .single _ => .required
  | .optional _ => .optional
  | .repeated _ => .repeated
  | .map _ _ => .map

/-- The kind of the value, of the elements, or of the values of a map. -/
def kind : ResolvedType → Wire.Kind
  | .single e | .optional e | .repeated e => e.kind
  | .map _ value => value.kind

/-- The kind of the keys of a map. -/
def keyKind? : ResolvedType → Option Wire.Kind
  | .map key _ => some key.kind
  | _ => none

/-- What the number in front of a sequence counts. -/
def extent? : ResolvedType → Option Wire.Extent
  | .repeated e => some (.ofKind e.kind)
  | .map _ value => some (.ofKind value.kind)
  | _ => none

end ResolvedType

/-- The type of a field and the decisions about its encoding. -/
structure FieldMapping where
  name : String
  number : UInt32
  type : ResolvedType
  presence : Presence
  kind : Wire.Kind
  keyKind : Option Wire.Kind
  extent : Option Wire.Extent
  deprecated : Bool
  deriving DecidableEq

/-- The mapping of a field to a type. -/
def FieldMapping.ofType (f : Field) (t : ResolvedType) : FieldMapping where
  name := f.name
  number := f.number
  type := t
  presence := t.presence
  kind := t.kind
  keyKind := t.keyKind?
  extent := t.extent?
  deprecated := f.deprecated

/-! ## Steps -/

/-- How a single value is written and read. -/
inductive ValueStep
  | scalar (p : Wire.Primitive)
  | enum (id : EnumId)
  /-- By the plan of a message. -/
  | nested (id : MessageId)
  deriving DecidableEq

/-- The kind of what is written for a value. -/
def ValueStep.kind : ValueStep → Wire.Kind
  | .scalar p => p.kind
  | .enum _ => Wire.Primitive.ofEnum.kind
  | .nested _ => .nested

/-- How the values of a field are laid out. -/
inductive Shape
  | single (value : ValueStep)
  /-- A truth value, and after a true one the value. -/
  | optional (value : ValueStep)
  /-- The elements after their extent. -/
  | repeated (element : ValueStep) (extent : Wire.Extent)
  /-- Keys and values in turn, after their extent. -/
  | map (key value : ValueStep) (extent : Wire.Extent)
  deriving DecidableEq

namespace Shape

/-- The value steps in a shape, keys first. -/
def values : Shape → List ValueStep
  | .single v | .optional v | .repeated v _ => [v]
  | .map key value _ => [key, value]

/-- Whether nothing but a truth value is written when the field is absent. -/
def isSkippable : Shape → Bool
  | .optional _ => true
  | _ => false

/-- Goes past what is written for a field, without making values of it. -/
def skip : Shape → Wire.WireReading Unit
  | .single v => Wire.skip v.kind
  | .optional v => do if ← Wire.readBool then Wire.skip v.kind
  | .repeated _ .bytes | .map _ _ .bytes => Wire.skip .bytes
  | .repeated element .elements => do
    let count ← Wire.readLength
    discard (Wire.readTimes (Wire.skip element.kind) count)
  | .map key value .elements => do
    let count ← Wire.readLength
    discard (Wire.readTimes (do Wire.skip key.kind; Wire.skip value.kind) count)

end Shape

/-- How a field is written and read. -/
structure Step where
  field : String
  number : UInt32
  presence : Presence
  shape : Shape
  /-- Whether nothing but a truth value is written when the field is absent. -/
  skippable : Bool
  /-- Whether the field is still written, but skipped when reading. -/
  deprecated : Bool
  deriving DecidableEq

/-- The steps of a message, in the order of writing. -/
structure MessagePlan where
  id : MessageId
  name : String
  steps : List Step
  deriving DecidableEq

/-- The step of a field. -/
def MessagePlan.step? (p : MessagePlan) (field : String) : Option Step :=
  p.steps.find? (·.field = field)

/-- The symbols of an enum. -/
structure EnumPlan where
  id : EnumId
  name : String
  values : List EnumSymbol
  deriving DecidableEq

namespace EnumPlan

/-- The symbol of a number. -/
def symbol? (p : EnumPlan) (value : Int32) : Option String :=
  (p.values.find? (·.value = value)).map (·.name)

/-- The number of a symbol. -/
def valueOf? (p : EnumPlan) (symbol : String) : Option Int32 :=
  (p.values.find? (·.name = symbol)).map (·.value)

/-- The number that stands in for one that is missing: that of the symbol
    declared first. -/
def default (p : EnumPlan) : Int32 :=
  match p.values with
  | [] => 0
  | v :: _ => v.value

end EnumPlan

/-- A method, from one message to another. -/
structure MethodPlan where
  name : String
  input : MessageId
  output : MessageId
  deriving DecidableEq

/-- The methods of a service. -/
structure ServicePlan where
  name : String
  methods : List MethodPlan
  deriving DecidableEq

/-! ## From mappings to steps -/

/-- How the values of a type are written and read. -/
def ElementType.step : ElementType → ValueStep
  | .scalar s => .scalar s.primitive
  | .enum id => .enum id
  | .message id => .nested id

namespace FieldMapping

/-- What the number in front of the sequence counts: what has been recorded, or
    else what the kind asks for. -/
def extentOrRule (m : FieldMapping) : Wire.Extent := m.extent.getD (.ofKind m.kind)

/-- The layout of a field. -/
def shape (m : FieldMapping) : Shape :=
  match m.type with
  | .single e => .single e.step
  | .optional e => .optional e.step
  | .repeated e => .repeated e.step m.extentOrRule
  | .map key value => .map key.step value.step m.extentOrRule

/-- The step of a field. -/
def step (m : FieldMapping) : Step where
  field := m.name
  number := m.number
  presence := m.presence
  shape := m.shape
  skippable := m.shape.isSkippable
  deprecated := m.deprecated

end FieldMapping

/-- The plan of a message from the mappings of its fields. -/
def MessagePlan.ofMappings (index : Nat) (m : Message) (fields : List FieldMapping) :
    MessagePlan where
  id := ⟨.own, index⟩
  name := m.name
  steps := fields.map FieldMapping.step

/-- The plan of an enum. -/
def EnumPlan.ofEnum (index : Nat) (e : Enum) : EnumPlan where
  id := ⟨.own, index⟩
  name := e.name
  values := e.values

end Marshal
