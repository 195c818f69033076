import Marshal.Ascending
import Marshal.Plan.Compiled
import Marshal.Wire.Writer

/-!
# Values

Values that can be written and read by the plans of any compiled schema. An
object is a value of a message: the name of the message and the fields that are
present, in ascending order of their names.

Floats are held as their bits. `Value.same` compares them as numbers: no NaN is
the same as anything, and the two zeros are the same.
-/

namespace Marshal

open Wire

/-- A value. -/
inductive Value
  | bool (b : Bool)
  | u32 (n : UInt32)
  | u64 (n : UInt64)
  | i32 (n : Int32)
  | i64 (n : Int64)
  | f32 (bits : UInt32)
  | f64 (bits : UInt64)
  | string (s : String)
  | bytes (b : Bytes)
  /-- The number of a symbol, whether or not one is declared for it. -/
  | enum (n : Int32)
  | array (items : List Value)
  /-- Pairs of keys and values, in the order of writing. -/
  | map (entries : List (Value × Value))
  /-- A message and those of its fields that are present. -/
  | object (name : String) (fields : List (String × Value))

namespace Value

/-- The kinds of values. -/
inductive Kind
  | bool
  | u32
  | u64
  | i32
  | i64
  | f32
  | f64
  | string
  | bytes
  | enum
  | array
  | map
  | object
  deriving DecidableEq

/-- The name of the kind in error messages. -/
def Kind.name : Kind → String
  | .bool => "bool"
  | .u32 => "u32"
  | .u64 => "u64"
  | .i32 => "i32"
  | .i64 => "i64"
  | .f32 => "f32"
  | .f64 => "f64"
  | .string => "string"
  | .bytes => "bytes"
  | .enum => "enum"
  | .array => "array"
  | .map => "map"
  | .object => "object"

/-- The kind of a value. -/
def kind : Value → Kind
  | .bool _ => .bool
  | .u32 _ => .u32
  | .u64 _ => .u64
  | .i32 _ => .i32
  | .i64 _ => .i64
  | .f32 _ => .f32
  | .f64 _ => .f64
  | .string _ => .string
  | .bytes _ => .bytes
  | .enum _ => .enum
  | .array _ => .array
  | .map _ => .map
  | .object _ _ => .object

/-- The object of a message with these fields, of which later ones replace
    earlier ones of the same name. -/
def record (name : String) (fields : List (String × Value)) : Value :=
  .object name (Ascending.ofPairs fields)

/-- The field of an object. -/
def get? (field : String) : Value → Option Value
  | .object _ fields => Ascending.get? field fields
  | _ => none

/-- The place of a key in the order of keys, which are numbers or truth values. -/
def ordinal : Value → Int
  | .bool b => if b then 1 else 0
  | .u32 n => n.toNat
  | .u64 n => n.toNat
  | .i32 n => n.toInt
  | .i64 n => n.toInt
  | .enum n => n.toInt
  | _ => 0

/-! ## Sameness -/

/-- Whether floats are the same number, given the bits of infinity and the sign
    bit. What lies above infinity is not a number, and zero has two signs. -/
def sameFloat (infinity sign : Nat) (a b : Nat) : Bool :=
  let magnitude (n : Nat) := n % sign
  let isNaN (n : Nat) := infinity < magnitude n
  !isNaN a && !isNaN b && (a == b || magnitude a == 0 && magnitude b == 0)

mutual

/-- Whether values are the same, floats compared as numbers. -/
def same : Value → Value → Bool
  | .bool a, .bool b => a == b
  | .u32 a, .u32 b => a == b
  | .u64 a, .u64 b => a == b
  | .i32 a, .i32 b => a == b
  | .i64 a, .i64 b => a == b
  | .f32 a, .f32 b => sameFloat 0x7f800000 0x80000000 a.toNat b.toNat
  | .f64 a, .f64 b => sameFloat 0x7ff0000000000000 0x8000000000000000 a.toNat b.toNat
  | .string a, .string b => a == b
  | .bytes a, .bytes b => a == b
  | .enum a, .enum b => a == b
  | .array a, .array b => sameItems a b
  | .map a, .map b => sameEntries a b
  | .object a x, .object b y => a == b && sameFields x y
  | _, _ => false

/-- Whether elements are the same one by one. -/
def sameItems : List Value → List Value → Bool
  | [], [] => true
  | a :: x, b :: y => same a b && sameItems x y
  | _, _ => false

/-- Whether entries of maps are the same one by one. -/
def sameEntries : List (Value × Value) → List (Value × Value) → Bool
  | [], [] => true
  | (a, a') :: x, (b, b') :: y => same a b && same a' b' && sameEntries x y
  | _, _ => false

/-- Whether fields are the same one by one. -/
def sameFields : List (String × Value) → List (String × Value) → Bool
  | [], [] => true
  | (m, a) :: x, (n, b) :: y => m == n && same a b && sameFields x y
  | _, _ => false

end

/-! ## Errors -/

/-- What a value is expected to be. -/
inductive Expected
  | primitive (p : Primitive)
  | enum
  | array
  | map
  | object
  /-- An object of a message. -/
  | message (name : String)
  /-- A field of a message. -/
  | fieldOf (message : String)
  deriving DecidableEq

/-- What is found instead. -/
inductive Found
  | value (k : Kind)
  /-- An object of another message. -/
  | message (name : String)
  | unknownField
  deriving DecidableEq

/-- Why a value was not written or read. -/
inductive Error
  | wire (e : Wire.Error)
  | mismatch (field : String) (expected : Expected) (found : Found)
  /-- No message has the name. -/
  | unknownName (name : String)
  /-- No message has the identity. -/
  | unknownId (id : MessageId)
  deriving DecidableEq

/-- The wording of what is expected. -/
def Expected.display : Expected → String
  | .primitive p => p.typeName
  | .enum => "enum"
  | .array => "array"
  | .map => "map"
  | .object => "object"
  | .message name => name
  | .fieldOf name => "a field of " ++ name

/-- The wording of what is found. -/
def Found.display : Found → String
  | .value k => k.name
  | .message name => name
  | .unknownField => "unknown field"

/-- The wording of an error. -/
def Error.message : Error → String
  | .wire e => "Wire error: " ++ e.message
  | .mismatch field expected found =>
    s!"Field \"{field}\" expects {expected.display} but got {found.display}"
  | .unknownName name => "Unknown message " ++ name
  | .unknownId id => "Unknown message " ++ id.display

end Value

/-! ## Values of primitives -/

/-- A value of a primitive. -/
def Wire.Primitive.toValue : (p : Primitive) → p.Carrier → Value
  | .bool, b => .bool b
  | .varU32, n | .fixedU32, n => .u32 n
  | .varU64, n | .fixedU64, n => .u64 n
  | .varI32, n | .fixedI32, n => .i32 n
  | .varI64, n | .fixedI64, n => .i64 n
  | .f32, bits => .f32 bits
  | .f64, bits => .f64 bits
  | .string, s => .string s
  | .bytes, b => .bytes b

/-- What a value carries for a primitive, if it is one of its values. -/
def Wire.Primitive.ofValue? : (p : Primitive) → Value → Option p.Carrier
  | .bool, .bool b => some b
  | .varU32, .u32 n | .fixedU32, .u32 n => some n
  | .varU64, .u64 n | .fixedU64, .u64 n => some n
  | .varI32, .i32 n | .fixedI32, .i32 n => some n
  | .varI64, .i64 n | .fixedI64, .i64 n => some n
  | .f32, .f32 bits => some bits
  | .f64, .f64 bits => some bits
  | .string, .string s => some s
  | .bytes, .bytes b => some b
  | _, _ => none

/-- The plan of a message that a value is to be written or read by. -/
def CompiledSchema.find (s : CompiledSchema) (id : MessageId) :
    Except Value.Error (CompiledSchema × MessagePlan) :=
  match s.messagePlan? id with
  | some found => .ok found
  | none => .error (.unknownId id)

end Marshal
