import Marshal.Json.Reader
import Marshal.Json.Printer
import Marshal.Schema.Basic

/-!
# Schemas as documents

The JSON form of a schema. Every record is an object by the names of its
fields, and is read from an array of its fields in their order just as well.
Fields that have a default may be missing, members with other names are ignored
whatever they hold, but no field may be given twice. A type is an object with a
single member.

What is read may nest at most `Document.nestingLimit` arrays and objects; what
is ignored may nest as it likes.

* `Schema.toJson` writes a schema, with every default spelt out;
* `Schema.ofText?` reads one.
-/

namespace Marshal

namespace Document

/-- How deep a document may nest arrays and objects. -/
def nestingLimit : Nat := 127

/-- The fields of a record that is given as an object: for each name the member
    of that name, if there is one. A name given twice is an error. -/
def membersOf (names : List String) (members : List (String × Json)) :
    Option (List (Option Json)) :=
  names.mapM fun name =>
    match members.filter (·.1 = name) with
    | [] => some none
    | [(_, value)] => some (some value)
    | _ => none

/-- The fields of a record that is given as an array: for each name the element
    in its place, if the array is that long. A longer array is an error. -/
def elementsOf (names : List String) (items : List Json) : Option (List (Option Json)) :=
  if items.length ≤ names.length then
    some (items.map some ++ List.replicate (names.length - items.length) none)
  else none

/-- The fields of a record, by their names. -/
def fieldsOf (names : List String) : Json → Option (List (Option Json))
  | .object members => membersOf names members
  | .array items => elementsOf names items
  | _ => none

/-- A field that may be missing. -/
def orElse {α : Type} (default : α) (read : Json → Option α) : Option Json → Option α
  | none => some default
  | some j => read j

/-- The elements of an array. -/
def listOf {α : Type} (read : Json → Option α) (j : Json) : Option (List α) := do
  (← j.items?).mapM read

end Document

open Document

/-! ## Reading -/

/-- An unsigned number of 32 bits. -/
def Document.uint32? (j : Json) : Option UInt32 := do
  let n ← j.int?
  if 0 ≤ n ∧ n < UInt32.size then some (UInt32.ofNat n.toNat) else none

/-- A signed number of 32 bits. -/
def Document.int32? (j : Json) : Option Int32 := do
  let n ← j.int?
  if Int32.minValue.toInt ≤ n ∧ n ≤ Int32.maxValue.toInt then some (Int32.ofInt n) else none

/-- A scalar: its name, or an object with nothing under its name. At most
    `levels` arrays and objects may be nested. -/
def Wire.Scalar.ofJson? (levels : Nat) : Json → Option Scalar
  | .string name => Scalar.ofName? name
  | .object [(name, .null)] => if levels = 0 then none else Scalar.ofName? name
  | _ => none

/-- A type. At most `levels` arrays and objects may be nested. -/
def FieldType.ofJson? : (levels : Nat) → Json → Option FieldType
  | levels + 1, .object [(tag, body)] =>
    if tag = "scalar" then .scalar <$> Wire.Scalar.ofJson? levels body
    else if tag = "named" then .named <$> body.text?
    else if tag = "optional" then .optional <$> FieldType.ofJson? levels body
    else if tag = "repeated" then .repeated <$> FieldType.ofJson? levels body
    else if tag = "map" then
      match levels, fieldsOf ["key", "value"] body with
      | levels + 1, some [some key, some value] => do
        let key ← FieldType.ofJson? levels key
        let value ← FieldType.ofJson? levels value
        return .map key value
      | _, _ => none
    else none
  | _, _ => none

/-- A field, in a document of which `levels` are left for its type. -/
def Field.ofJson? (levels : Nat) (j : Json) : Option Field := do
  match ← fieldsOf ["name", "number", "type", "deprecated"] j with
  | [some name, some number, some type, deprecated] =>
    return {
      name := ← name.text?
      number := ← uint32? number
      type := ← FieldType.ofJson? levels type
      deprecated := ← orElse false Json.bool? deprecated }
  | _ => none

/-- A message. -/
def Message.ofJson? (levels : Nat) (j : Json) : Option Message := do
  match ← fieldsOf ["name", "fields"] j with
  | [some name, fields] =>
    return {
      name := ← name.text?
      fields := ← orElse [] (listOf (Field.ofJson? levels)) fields }
  | _ => none

/-- A symbol of an enum. -/
def EnumSymbol.ofJson? (j : Json) : Option EnumSymbol := do
  match ← fieldsOf ["name", "value"] j with
  | [some name, some value] => return { name := ← name.text?, value := ← int32? value }
  | _ => none

/-- An enum. -/
def Enum.ofJson? (j : Json) : Option Enum := do
  match ← fieldsOf ["name", "values"] j with
  | [some name, some values] =>
    return { name := ← name.text?, values := ← listOf EnumSymbol.ofJson? values }
  | _ => none

/-- A method. -/
def Method.ofJson? (j : Json) : Option Method := do
  match ← fieldsOf ["name", "input", "output"] j with
  | [some name, some input, some output] =>
    return { name := ← name.text?, input := ← input.text?, output := ← output.text? }
  | _ => none

/-- A service. -/
def Service.ofJson? (j : Json) : Option Service := do
  match ← fieldsOf ["name", "methods"] j with
  | [some name, methods] =>
    return { name := ← name.text?, methods := ← orElse [] (listOf Method.ofJson?) methods }
  | _ => none

/-- A package, which may be spelt out as missing. -/
def Document.package? : Json → Option (Option String)
  | .null => some none
  | j => some <$> j.text?

/-- A schema. Five levels are around every type: the schema, its messages, a
    message, its fields and a field. -/
def Schema.ofJson? (j : Json) : Option Schema := do
  match ← fieldsOf ["name", "package", "imports", "enums", "messages", "services"] j with
  | [some name, package, imports, enums, messages, services] =>
    return {
      name := ← name.text?
      package := ← orElse none package? package
      imports := ← orElse [] (listOf Json.text?) imports
      enums := ← orElse [] (listOf Enum.ofJson?) enums
      messages := ← orElse [] (listOf (Message.ofJson? (nestingLimit - 5))) messages
      services := ← orElse [] (listOf Service.ofJson?) services }
  | _ => none

/-- The schema of a document, given by its text. -/
def Schema.ofText? (text : String) : Option Schema := Json.parse? text >>= Schema.ofJson?

/-! ## Writing -/

/-- The document of a type. -/
def FieldType.toJson : FieldType → Json
  | .scalar s => .object [("scalar", .string s.name)]
  | .named name => .object [("named", .string name)]
  | .optional inner => .object [("optional", inner.toJson)]
  | .repeated inner => .object [("repeated", inner.toJson)]
  | .map key value => .object [("map", .object [("key", key.toJson), ("value", value.toJson)])]

/-- The document of a field. -/
def Field.toJson (f : Field) : Json :=
  .object [("name", .string f.name), ("number", .nat f.number.toNat), ("type", f.type.toJson),
    ("deprecated", .bool f.deprecated)]

/-- The document of a message. -/
def Message.toJson (m : Message) : Json :=
  .object [("name", .string m.name), ("fields", .array (m.fields.map Field.toJson))]

/-- The document of a symbol. -/
def EnumSymbol.toJson (v : EnumSymbol) : Json :=
  .object [("name", .string v.name), ("value", .int v.value.toInt)]

/-- The document of an enum. -/
def Enum.toJson (e : Enum) : Json :=
  .object [("name", .string e.name), ("values", .array (e.values.map EnumSymbol.toJson))]

/-- The document of a method. -/
def Method.toJson (m : Method) : Json :=
  .object [("name", .string m.name), ("input", .string m.input), ("output", .string m.output)]

/-- The document of a service. -/
def Service.toJson (s : Service) : Json :=
  .object [("name", .string s.name), ("methods", .array (s.methods.map Method.toJson))]

/-- The document of something that may be missing. -/
def Document.orNull {α : Type} (write : α → Json) : Option α → Json
  | none => .null
  | some a => write a

/-- The document of a schema, with every default spelt out. -/
def Schema.toJson (s : Schema) : Json :=
  .object [("name", .string s.name), ("package", orNull .string s.package),
    ("imports", .array (s.imports.map .string)), ("enums", .array (s.enums.map Enum.toJson)),
    ("messages", .array (s.messages.map Message.toJson)),
    ("services", .array (s.services.map Service.toJson))]

end Marshal
