import Marshal.Wire.Kind

/-!
# Primitives and scalars

A primitive is a pair of a writer and a reader (`Marshal.Wire.Writer`,
`Marshal.Wire.Reader`) for one type of values, its *carrier*. A schema declares
its fields with scalars, which leave it open how integers of either sign are
written; every scalar has one primitive.

Floats are carried as their bits: all that is ever done with one is to move
it, and its bits are what has to arrive.
-/

namespace Marshal.Wire

/-- A byte string. -/
abbrev Bytes := List UInt8

/-- A way to write and read values of one type. -/
inductive Primitive
  | bool
  | varU32
  | varU64
  | varI32
  | varI64
  | fixedU32
  | fixedI32
  | fixedU64
  | fixedI64
  | f32
  | f64
  | string
  | bytes
  deriving DecidableEq

namespace Primitive

/-- The type of the values that a primitive writes and reads. -/
abbrev Carrier : Primitive → Type
  | .bool => Bool
  | .varU32 | .fixedU32 => UInt32
  | .varU64 | .fixedU64 => UInt64
  | .varI32 | .fixedI32 => Int32
  | .varI64 | .fixedI64 => Int64
  | .f32 => UInt32
  | .f64 => UInt64
  | .string => String
  | .bytes => Bytes

/-- The value that stands in for one that is missing. -/
def zero : (p : Primitive) → p.Carrier
  | .bool => false
  | .varU32 | .fixedU32 => (0 : UInt32)
  | .varU64 | .fixedU64 => (0 : UInt64)
  | .varI32 | .fixedI32 => (0 : Int32)
  | .varI64 | .fixedI64 => (0 : Int64)
  | .f32 => (0 : UInt32)
  | .f64 => (0 : UInt64)
  | .string => ""
  | .bytes => []

/-- The kind of what a primitive writes. -/
def kind : Primitive → Kind
  | .bool | .varU32 | .varU64 => .unsignedVarint
  | .varI32 | .varI64 => .signedVarint
  | .fixedU32 | .fixedI32 | .f32 => .fixed32
  | .fixedU64 | .fixedI64 | .f64 => .fixed64
  | .string | .bytes => .bytes

/-- The name of the primitive in documents. -/
def name : Primitive → String
  | .bool => "bool"
  | .varU32 => "var_u32"
  | .varU64 => "var_u64"
  | .varI32 => "var_i32"
  | .varI64 => "var_i64"
  | .fixedU32 => "fixed_u32"
  | .fixedI32 => "fixed_i32"
  | .fixedU64 => "fixed_u64"
  | .fixedI64 => "fixed_i64"
  | .f32 => "f32"
  | .f64 => "f64"
  | .string => "string"
  | .bytes => "bytes"

/-- The name of the carrier in error messages and in generated code. -/
def typeName : Primitive → String
  | .bool => "bool"
  | .varU32 | .fixedU32 => "u32"
  | .varU64 | .fixedU64 => "u64"
  | .varI32 | .fixedI32 => "i32"
  | .varI64 | .fixedI64 => "i64"
  | .f32 => "f32"
  | .f64 => "f64"
  | .string => "String"
  | .bytes => "Vec<u8>"

/-- All primitives. -/
def all : List Primitive :=
  [.bool, .varU32, .varU64, .varI32, .varI64, .fixedU32, .fixedI32, .fixedU64, .fixedI64,
    .f32, .f64, .string, .bytes]

/-- Enums are written as their number with this primitive. -/
def ofEnum : Primitive := .varU32

end Primitive

/-- The scalar types that a field can be declared with. -/
inductive Scalar
  | double
  | float
  | int32
  | int64
  | uint32
  | uint64
  | sint32
  | sint64
  | fixed32
  | fixed64
  | sfixed32
  | sfixed64
  | bool
  | string
  | bytes
  deriving DecidableEq

namespace Scalar

/-- The name of the scalar in schemas. -/
def name : Scalar → String
  | .double => "double"
  | .float => "float"
  | .int32 => "int32"
  | .int64 => "int64"
  | .uint32 => "uint32"
  | .uint64 => "uint64"
  | .sint32 => "sint32"
  | .sint64 => "sint64"
  | .fixed32 => "fixed32"
  | .fixed64 => "fixed64"
  | .sfixed32 => "sfixed32"
  | .sfixed64 => "sfixed64"
  | .bool => "bool"
  | .string => "string"
  | .bytes => "bytes"

/-- All scalars. -/
def all : List Scalar :=
  [.double, .float, .int32, .int64, .uint32, .uint64, .sint32, .sint64, .fixed32, .fixed64,
    .sfixed32, .sfixed64, .bool, .string, .bytes]

/-- The scalar of a name. -/
def ofName? (name : String) : Option Scalar := all.find? (·.name = name)

/-- The primitive of a scalar, by its width and sign. -/
def primitive : Scalar → Primitive
  | .int32 | .sint32 => .varI32
  | .int64 | .sint64 => .varI64
  | .uint32 => .varU32
  | .uint64 => .varU64
  | .fixed32 => .fixedU32
  | .sfixed32 => .fixedI32
  | .fixed64 => .fixedU64
  | .sfixed64 => .fixedI64
  | .float => .f32
  | .double => .f64
  | .bool => .bool
  | .string => .string
  | .bytes => .bytes

/-- The kind of what is written for a scalar. -/
def kind (s : Scalar) : Kind := s.primitive.kind

/-- Whether the scalar is a float of either width. -/
def isFloat : Scalar → Bool
  | .float | .double => true
  | _ => false

end Scalar

end Marshal.Wire
