import Marshal.Wire.Primitive

/-!
# Calls of generated code

Generated code writes and reads values through a buffer, by one pair of methods
for each primitive.
-/

namespace Marshal.Code

open Wire

/-- The buffer method that writes a value. -/
def writeCall : Primitive → String
  | .bool => "write_bool"
  | .varU32 => "write_var_uint"
  | .varU64 => "write_var_uint64"
  | .varI32 => "write_var_int"
  | .varI64 => "write_var_int64"
  | .fixedU32 => "write_fixed32"
  | .fixedI32 => "write_sfixed32"
  | .fixedU64 => "write_fixed64"
  | .fixedI64 => "write_sfixed64"
  | .f32 => "write_float"
  | .f64 => "write_double"
  | .string => "write_string"
  | .bytes => "write_byte_array"

/-- The buffer method that reads a value. -/
def readCall : Primitive → String
  | .bool => "read_bool"
  | .varU32 => "read_var_uint"
  | .varU64 => "read_var_uint64"
  | .varI32 => "read_var_int"
  | .varI64 => "read_var_int64"
  | .fixedU32 => "read_fixed32"
  | .fixedI32 => "read_sfixed32"
  | .fixedU64 => "read_fixed64"
  | .fixedI64 => "read_sfixed64"
  | .f32 => "read_float"
  | .f64 => "read_double"
  | .string => "read_string"
  | .bytes => "read_byte_array"

/-- Whether the writing method borrows its argument. -/
def writesByRef : Primitive → Bool
  | .string | .bytes => true
  | _ => false

end Marshal.Code
