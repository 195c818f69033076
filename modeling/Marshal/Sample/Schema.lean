import Marshal.Schema.Basic

/-!
# Two sample schemas

Points in a plane, and shapes that are made of them. Between them the two
schemas have a field of every layout, an import, a message that is nested in
itself and a field that is deprecated. Some of their names are those of types
of the standard library, or keywords, in the languages that code may be
generated for.
-/

namespace Marshal.Sample

/-- Points, and the units that they can be measured in. -/
def geo : Schema where
  name := "geo.proto"
  package := some "geo"
  enums := [⟨"Unit", [⟨"METER", 0⟩, ⟨"FOOT", 1⟩]⟩]
  messages := [⟨"Point", [{ name := "x", number := 1, type := .scalar .sint32 },
    { name := "y", number := 2, type := .scalar .sint32 }]⟩]

/-- The fields of a shape. -/
def shapeFields : List Field :=
  [ { name := "kind", number := 1, type := .named "Kind" },
    { name := "name", number := 2, type := .optional (.scalar .string) },
    { name := "origin", number := 3, type := .named "geo.Point" },
    { name := "path", number := 4, type := .repeated (.named "geo.Point") },
    { name := "unit", number := 5, type := .named "geo.Unit" },
    { name := "weights", number := 6, type := .map (.scalar .uint32) (.scalar .double) },
    { name := "labels", number := 7, type := .map (.scalar .sint64) (.scalar .string) },
    { name := "tags", number := 8, type := .repeated (.scalar .string) },
    { name := "ids", number := 9, type := .repeated (.scalar .fixed64) },
    { name := "blob", number := 10, type := .scalar .bytes },
    { name := "legacy", number := 11, type := .scalar .int32, deprecated := true },
    { name := "parent", number := 12, type := .optional (.named "Shape") },
    { name := "result", number := 13, type := .named "Result" },
    { name := "option", number := 14, type := .optional (.named "Option") } ]

/-- The fields of a result. -/
def resultFields : List Field :=
  [ { name := "final", number := 1, type := .scalar .bool },
    { name := "try", number := 2, type := .scalar .bool },
    { name := "box", number := 3, type := .scalar .bool },
    { name := "type", number := 4, type := .scalar .string },
    { name := "gen", number := 5, type := .scalar .uint64 },
    { name := "match", number := 6, type := .scalar .sfixed32 },
    { name := "self", number := 7, type := .scalar .float } ]

/-- The fields of an option. -/
def optionFields : List Field :=
  [ { name := "value", number := 1, type := .optional (.named "Result") },
    { name := "items", number := 2, type := .repeated (.named "Option") },
    { name := "text", number := 3, type := .optional (.named "String") } ]

/-- The fields of a vector. -/
def vecFields : List Field :=
  [ { name := "items", number := 1, type := .repeated (.scalar .uint32) },
    { name := "boxes", number := 2, type := .repeated (.named "Box") } ]

/-- The fields of a box. -/
def boxFields : List Field :=
  [ { name := "inner", number := 1, type := .optional (.named "Box") },
    { name := "flag", number := 2, type := .scalar .bool } ]

/-- Shapes, and the messages that they hold. -/
def shapes : Schema where
  name := "shapes.proto"
  package := some "shapes"
  imports := ["geo.proto"]
  enums := [⟨"Kind", [⟨"LEAF", 0⟩, ⟨"BRANCH", 1⟩]⟩]
  messages :=
    [ ⟨"Shape", shapeFields⟩,
      ⟨"Result", resultFields⟩,
      ⟨"Option", optionFields⟩,
      ⟨"String", [{ name := "value", number := 1, type := .scalar .string }]⟩,
      ⟨"Vec", vecFields⟩,
      ⟨"Box", boxFields⟩,
      ⟨"Default", [{ name := "kind", number := 1, type := .named "Kind" }]⟩,
      ⟨"Empty", []⟩ ]
  services := [⟨"Shapes", [⟨"Measure", "Shape", "Result"⟩]⟩]

end Marshal.Sample
