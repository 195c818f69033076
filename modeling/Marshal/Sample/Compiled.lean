import Marshal.Compile.Basic
import Marshal.Sample.Schema

/-!
# The sample schemas, compiled

What the schemas `geo` and `shapes` compile to, one after the other.
-/

namespace Marshal.Sample

/-- The mappings of the fields of a point. -/
def pointMappings : List FieldMapping :=
  List.zipWith .ofType
    [ { name := "x", number := 1, type := .scalar .sint32 },
      { name := "y", number := 2, type := .scalar .sint32 } ]
    [ .single (.scalar .sint32), .single (.scalar .sint32) ]

/-- The schema `geo`, compiled. -/
def compiledGeo : CompiledSchema where
  name := "geo.proto"
  package := some "geo"
  imports := []
  enums := geo.enumPlans
  messages := geo.messagePlans [pointMappings]
  mappings := [pointMappings]
  services := []
  order := ⟨[], [.enum 0, .message 0]⟩

/-- The mappings of the fields of a shape. -/
def shapeMappings : List FieldMapping :=
  List.zipWith .ofType shapeFields
    [ .single (.enum ⟨.own, 0⟩),
      .optional (.scalar .string),
      .single (.message ⟨.imported 0, 0⟩),
      .repeated (.message ⟨.imported 0, 0⟩),
      .single (.enum ⟨.imported 0, 0⟩),
      .map (.scalar .uint32) (.scalar .double),
      .map (.scalar .sint64) (.scalar .string),
      .repeated (.scalar .string),
      .repeated (.scalar .fixed64),
      .single (.scalar .bytes),
      .single (.scalar .int32),
      .optional (.message ⟨.own, 0⟩),
      .single (.message ⟨.own, 1⟩),
      .optional (.message ⟨.own, 2⟩) ]

/-- The mappings of the fields of a result. -/
def resultMappings : List FieldMapping :=
  List.zipWith .ofType resultFields
    [ .single (.scalar .bool),
      .single (.scalar .bool),
      .single (.scalar .bool),
      .single (.scalar .string),
      .single (.scalar .uint64),
      .single (.scalar .sfixed32),
      .single (.scalar .float) ]

/-- The mappings of the fields of an option. -/
def optionMappings : List FieldMapping :=
  List.zipWith .ofType optionFields
    [ .optional (.message ⟨.own, 1⟩),
      .repeated (.message ⟨.own, 2⟩),
      .optional (.message ⟨.own, 3⟩) ]

/-- The mappings of the fields of a text. -/
def stringMappings : List FieldMapping :=
  [.ofType { name := "value", number := 1, type := .scalar .string } (.single (.scalar .string))]

/-- The mappings of the fields of a vector. -/
def vecMappings : List FieldMapping :=
  List.zipWith .ofType vecFields
    [ .repeated (.scalar .uint32), .repeated (.message ⟨.own, 5⟩) ]

/-- The mappings of the fields of a box. -/
def boxMappings : List FieldMapping :=
  List.zipWith .ofType boxFields
    [ .optional (.message ⟨.own, 5⟩), .single (.scalar .bool) ]

/-- The mappings of the fields of a default. -/
def defaultMappings : List FieldMapping :=
  [.ofType { name := "kind", number := 1, type := .named "Kind" } (.single (.enum ⟨.own, 0⟩))]

/-- The mappings of the fields of every message of `shapes`. -/
def shapesMappings : List (List FieldMapping) :=
  [ shapeMappings, resultMappings, optionMappings, stringMappings, vecMappings, boxMappings,
    defaultMappings, [] ]

/-- The schema `shapes`, compiled. -/
def compiledShapes : CompiledSchema where
  name := "shapes.proto"
  package := some "shapes"
  imports := [compiledGeo]
  enums := shapes.enumPlans
  messages := shapes.messagePlans shapesMappings
  mappings := shapesMappings
  services := [⟨"Shapes", [⟨"Measure", ⟨.own, 0⟩, ⟨.own, 1⟩⟩]⟩]
  order := ⟨[0], [.enum 0, .message 1, .message 0, .message 2, .message 3, .message 4, .message 5,
    .message 6, .message 7]⟩

theorem compile_geo : geo.compile .empty = .ok compiledGeo := rfl

theorem publish_compiledGeo :
    ImportTable.empty.publish compiledGeo = .ok ⟨[("geo.proto", compiledGeo)]⟩ := rfl

theorem compile_shapes :
    shapes.compile ⟨[("geo.proto", compiledGeo)]⟩ = .ok compiledShapes := rfl

end Marshal.Sample
