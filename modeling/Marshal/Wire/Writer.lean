import Marshal.Wire.Number

/-!
# Writing

What is written for a value of each primitive, and for a *frame*, a payload
after its length. A program of writes (`Write`) puts such pieces one after the
other; the payloads of frames are programs of their own.
-/

namespace Marshal.Wire

/-- A payload after its length in bytes. -/
def framed (payload : Bytes) : Bytes := varint payload.length ++ payload

namespace Primitive

/-- The bytes of a value. -/
def write : (p : Primitive) → p.Carrier → Bytes
  | .bool, b => [if b then 1 else 0]
  | .varU32, n => varint (UInt32.toNat n)
  | .varU64, n => varint (UInt64.toNat n)
  | .varI32, n => varint (zigzag (Int32.toInt n))
  | .varI64, n => varint (zigzag (Int64.toInt n))
  | .fixedU32, n => bigEndian 4 (UInt32.toNat n)
  | .fixedI32, n => bigEndian 4 (UInt32.toNat (Int32.toUInt32 n))
  | .fixedU64, n => bigEndian 8 (UInt64.toNat n)
  | .fixedI64, n => bigEndian 8 (UInt64.toNat (Int64.toUInt64 n))
  | .f32, bits => bigEndian 4 (UInt32.toNat bits)
  | .f64, bits => bigEndian 8 (UInt64.toNat bits)
  | .string, s => framed (utf8 s)
  | .bytes, b => framed b

end Primitive

/-- A write: a value, raw bytes, or a frame holding further writes. A message
    is a frame one level deeper than what it stands in; on the wire they are
    alike. -/
inductive Write
  | value (p : Primitive) (x : p.Carrier)
  | raw (bytes : Bytes)
  | frame (body : List Write)
  | message (body : List Write)

mutual

/-- The bytes of a write. -/
def Write.bytes : Write → Bytes
  | .value p x => p.write x
  | .raw bytes => bytes
  | .frame body => framed (Write.bytesAll body)
  | .message body => framed (Write.bytesAll body)

/-- The bytes of writes one after the other. -/
def Write.bytesAll : List Write → Bytes
  | [] => []
  | w :: ws => w.bytes ++ Write.bytesAll ws

end

end Marshal.Wire
