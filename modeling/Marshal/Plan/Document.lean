import Marshal.Plan.Compiled
import Marshal.Schema.Document

/-!
# Compiled schemas as documents

The JSON form in which compiled schemas are shown. An import is shown by its
name only.
-/

namespace Marshal

open Document

/-- The document of an origin. -/
def Origin.toJson : Origin → Json
  | .own => .string "local"
  | .imported i => .object [("import", .nat i)]

/-- The document of an identity. -/
def MessageId.toJson (id : MessageId) : Json :=
  .object [("origin", id.origin.toJson), ("index", .nat id.index)]

/-- The document of an identity. -/
def EnumId.toJson (id : EnumId) : Json :=
  .object [("origin", id.origin.toJson), ("index", .nat id.index)]

/-- The document of a type. -/
def ElementType.toJson : ElementType → Json
  | .scalar s => .object [("primitive", .string s.name)]
  | .enum id => .object [("enum", id.toJson)]
  | .message id => .object [("message", id.toJson)]

/-- The document of a type. -/
def ResolvedType.toJson : ResolvedType → Json
  | .single e => e.toJson
  | .optional e => .object [("optional", e.toJson)]
  | .repeated e => .object [("repeated", e.toJson)]
  | .map key value => .object [("map", .object [("key", key.toJson), ("value", value.toJson)])]

/-- The name of a presence in documents. -/
def Presence.name : Presence → String
  | .required => "required"
  | .optional => "optional"
  | .repeated => "repeated"
  | .map => "map"

/-- The document of a mapping. -/
def FieldMapping.toJson (m : FieldMapping) : Json :=
  .object [("name", .string m.name), ("number", .nat m.number.toNat), ("ty", m.type.toJson),
    ("presence", .string m.presence.name), ("wire_kind", .string m.kind.name),
    ("key_wire_kind", orNull (fun k => .string k.name) m.keyKind),
    ("sequence", orNull (fun e => .string e.name) m.extent), ("deprecated", .bool m.deprecated)]

/-- The document of a value step. -/
def ValueStep.toJson : ValueStep → Json
  | .scalar p => .object [("scalar", .string p.name)]
  | .enum id => .object [("enum", id.toJson)]
  | .nested id => .object [("nested", id.toJson)]

/-- The document of a layout. -/
def Shape.toJson : Shape → Json
  | .single v => .object [("single", v.toJson)]
  | .optional v => .object [("optional", v.toJson)]
  | .repeated element extent =>
    .object [("repeated", .object [("element", element.toJson), ("length", .string extent.name)])]
  | .map key value extent =>
    .object [("map", .object [("key", key.toJson), ("value", value.toJson),
      ("length", .string extent.name)])]

/-- The document of a step. -/
def Step.toJson (s : Step) : Json :=
  .object [("field", .string s.field), ("number", .nat s.number.toNat),
    ("presence", .string s.presence.name), ("shape", s.shape.toJson),
    ("skippable", .bool s.skippable), ("deprecated", .bool s.deprecated)]

/-- The document of the plan of a message. -/
def MessagePlan.toJson (p : MessagePlan) : Json :=
  .object [("id", p.id.toJson), ("name", .string p.name),
    ("steps", .array (p.steps.map Step.toJson))]

/-- The document of the plan of an enum. -/
def EnumPlan.toJson (p : EnumPlan) : Json :=
  .object [("id", p.id.toJson), ("name", .string p.name),
    ("values", .array (p.values.map EnumSymbol.toJson))]

/-- The document of a method. -/
def MethodPlan.toJson (m : MethodPlan) : Json :=
  .object [("name", .string m.name), ("input", m.input.toJson), ("output", m.output.toJson)]

/-- The document of a service. -/
def ServicePlan.toJson (s : ServicePlan) : Json :=
  .object [("name", .string s.name), ("methods", .array (s.methods.map MethodPlan.toJson))]

/-- The document of a declaration. -/
def Declaration.toJson : Declaration → Json
  | .enum i => .object [("enum", .nat i)]
  | .message i => .object [("message", .nat i)]

/-- The document of an order. -/
def EmissionOrder.toJson (o : EmissionOrder) : Json :=
  .object [("imports", .array (o.imports.map .nat)),
    ("decls", .array (o.declarations.map Declaration.toJson))]

namespace CompiledSchema

/-- The document of a compiled schema. -/
def toJson (s : CompiledSchema) : Json :=
  .object [("name", .string s.name), ("package", orNull .string s.package),
    ("imports", .array (s.imports.map fun i => .string i.name)),
    ("enums", .array (s.enums.map EnumPlan.toJson)),
    ("messages", .array (s.messages.map MessagePlan.toJson)),
    ("mappings", .array (s.mappings.map fun fields => .array (fields.map FieldMapping.toJson))),
    ("services", .array (s.services.map ServicePlan.toJson)), ("order", s.order.toJson)]

/-- The plans and decisions of a compiled schema, over several lines. -/
def planText (s : CompiledSchema) : String := s.toJson.pretty

end CompiledSchema

end Marshal
