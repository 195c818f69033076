import Marshal.Wire.Primitive

/-!
# Schemas

A schema declares enums, messages and services under names of its own, and may
refer to declarations of the schemas it imports. The fields of a message are
written in the order of their declaration; their numbers only have to differ.
-/

namespace Marshal

/-- The type that a field is declared with. -/
inductive FieldType
  | scalar (s : Wire.Scalar)
  /-- An enum or a message, referred to by its name. -/
  | named (name : String)
  | optional (inner : FieldType)
  | repeated (inner : FieldType)
  | map (key value : FieldType)
  deriving DecidableEq

namespace FieldType

/-- Whether the type holds values of other types. -/
def isContainer : FieldType → Bool
  | .scalar _ | .named _ => false
  | _ => true

/-- The type as error messages show it. -/
def display : FieldType → String
  | .scalar s => s.name
  | .named name => name
  | .optional inner => "optional " ++ inner.display
  | .repeated inner => "repeated " ++ inner.display
  | .map key value => "map<" ++ key.display ++ ", " ++ value.display ++ ">"

end FieldType

/-- A field of a message. -/
structure Field where
  name : String
  number : UInt32
  type : FieldType
  /-- Whether the field is still written but no longer read. -/
  deprecated : Bool := false
  deriving DecidableEq

/-- A message: its fields are written in this order. -/
structure Message where
  name : String
  fields : List Field := []
  deriving DecidableEq

/-- A symbol of an enum, with its number. -/
structure EnumSymbol where
  name : String
  value : Int32
  deriving DecidableEq

/-- An enum. -/
structure Enum where
  name : String
  values : List EnumSymbol
  deriving DecidableEq

/-- A method of a service, from one message to another. -/
structure Method where
  name : String
  input : String
  output : String
  deriving DecidableEq

/-- A service. -/
structure Service where
  name : String
  methods : List Method := []
  deriving DecidableEq

/-- A schema. -/
structure Schema where
  /-- The name that others import it by. -/
  name : String
  package : Option String := none
  /-- The names of the schemas it refers to. -/
  imports : List String := []
  enums : List Enum := []
  messages : List Message := []
  services : List Service := []
  deriving DecidableEq

end Marshal
