import Marshal.Wire.Error
import Marshal.Wire.Number

/-!
# Reading

A reader is a position in a byte string, together with the number of messages
it is nested inside. Reading takes a reader to the value and the next reader
or, where it fails, to the error and the reader as the failure left it: what
was read before it is gone.

A length-delimited payload is read as a *frame*, a reader of its own over just
the payload. Messages may be nested `nestingLimit` deep.

* `Primitive.read` reads a value of each primitive, and `skip` goes past one;
* `readLength` reads a length or a count, at most what is left: every element
  takes a byte at least, so a larger count could not be met;
* `readFrame` and `readMessageFrame` read frames, `within` reads inside one;
* `readTimes` and `readToEnd` read sequences.
-/

namespace Marshal.Wire

/-- A position in a byte string. -/
structure Reader where
  data : Bytes
  /-- The number of bytes read. -/
  index : Nat
  /-- The number of messages around this reader. -/
  depth : Nat
  deriving DecidableEq

namespace Reader

/-- A reader at the start of a byte string. -/
def ofBytes (data : Bytes) : Reader := ⟨data, 0, 0⟩

/-- The number of bytes left. -/
def remaining (r : Reader) : Nat := r.data.length - r.index

/-- Whether no bytes are left. -/
def atEnd (r : Reader) : Bool := r.remaining = 0

/-- The bytes left. -/
def rest (r : Reader) : Bytes := r.data.drop r.index

/-- The error of reading `wanted` bytes where fewer are left. -/
def shortOf (r : Reader) (wanted : Nat) : Error :=
  .unexpectedEnd r.index (wanted - r.remaining)

end Reader

/-- Readings that fail with `ε`. A failed one keeps the reader it failed at. -/
abbrev Reading (ε α : Type) := EStateM ε Reader α

/-- Readings of the wire alone. -/
abbrev WireReading (α : Type) := Reading Error α

/-- The position in the byte string. -/
def position {ε : Type} : Reading ε Nat := fun r => .ok r.index r

/-- Reads one byte. -/
def readByte : WireReading UInt8 := fun r =>
  match r.data[r.index]? with
  | some b => .ok b { r with index := r.index + 1 }
  | none => .error (r.shortOf 1) r

/-- Reads as many bytes as it says, or none at all. -/
def readRaw (length : Nat) : WireReading Bytes := fun r =>
  if length ≤ r.remaining then .ok (r.rest.take length) { r with index := r.index + length }
  else .error (r.shortOf length) r

/-- Reads a truth value, written as zero or one. -/
def readBool : WireReading Bool := do
  let start ← position
  let b ← readByte
  if b = 0 then return false
  else if b = 1 then return true
  else throw (.invalidBool start b)

/-- Reads what is left of a varint starting at `start`, in at most `groups`
    bytes, the last possible one of which is below `limit`. -/
def readGroups (start bits limit : Nat) : (groups : Nat) → WireReading Nat
  | 0 => throw (.varintOverflow start bits)
  | groups + 1 => do
    let b ← readByte
    if groups = 0 ∧ limit ≤ b.toNat then throw (.varintOverflow start bits)
    else if b.toNat < 128 then return b.toNat
    else
      let high ← readGroups start bits limit groups
      return b.toNat % 128 + 128 * high

/-- Reads a varint of at most `bits` bits, in at most as many bytes as these
    take. Whatever does not fit is an error, and so is a varint that is spelt
    with more bytes. -/
def readVarint (bits : Nat) : WireReading Nat := do
  let start ← position
  readGroups start bits (1 <<< (bits % 7)) (bits / 7 + 1)

/-- Reads a number of `width` bytes. -/
def readBigEndian (width : Nat) : WireReading Nat := do
  let bytes ← readRaw width
  return ofBigEndian bytes

/-- Reads a length in bytes or a number of elements, at most the bytes left. -/
def readLength : WireReading Nat := do
  let start ← position
  let length ← readVarint 64
  let remaining := (← get).remaining
  if length ≤ remaining then return length
  else throw (.lengthOutOfBounds start length remaining)

/-- Reads a byte string after its length. -/
def readBytes : WireReading Bytes := do
  let length ← readLength
  readRaw length

/-- Reads a text after its length in bytes. -/
def readString : WireReading String := do
  let start ← position
  let bytes ← readBytes
  match ofUtf8? bytes with
  | some s => return s
  | none => throw (.invalidUtf8 start)

/-- Reads a value. -/
def Primitive.read : (p : Primitive) → WireReading p.Carrier
  | .bool => readBool
  | .varU32 => UInt32.ofNat <$> readVarint 32
  | .varU64 => UInt64.ofNat <$> readVarint 64
  | .varI32 => (fun n => Int32.ofInt (unzigzag n)) <$> readVarint 32
  | .varI64 => (fun n => Int64.ofInt (unzigzag n)) <$> readVarint 64
  | .fixedU32 => UInt32.ofNat <$> readBigEndian 4
  | .fixedI32 => (fun n => (UInt32.ofNat n).toInt32) <$> readBigEndian 4
  | .fixedU64 => UInt64.ofNat <$> readBigEndian 8
  | .fixedI64 => (fun n => (UInt64.ofNat n).toInt64) <$> readBigEndian 8
  | .f32 => UInt32.ofNat <$> readBigEndian 4
  | .f64 => UInt64.ofNat <$> readBigEndian 8
  | .string => readString
  | .bytes => readBytes

/-- How deep messages may be nested. -/
def nestingLimit : Nat := 100

/-- Reads a payload after its length, as a reader of its own. -/
def readFrame : WireReading Reader := do
  let payload ← readBytes
  return ⟨payload, 0, (← get).depth⟩

/-- Reads the payload of a message, as a reader one level deeper. -/
def readMessageFrame : WireReading Reader := do
  let r ← get
  if nestingLimit ≤ r.depth then throw (.nestingLimit r.index nestingLimit)
  else
    let frame ← readFrame
    return { frame with depth := r.depth + 1 }

/-- Reads inside a frame. The outer reader stays where it is, past the frame,
    whether or not the frame is read to its end. -/
def within {ε α : Type} (frame : Reader) (body : Reading ε α) : Reading ε α := fun outer =>
  match body frame with
  | .ok a _ => .ok a outer
  | .error e _ => .error e outer

/-- Reads a message. Bytes left in its frame are skipped. -/
def readMessage {α : Type} (body : WireReading α) : WireReading α := do
  let frame ← readMessageFrame
  within frame body

/-- Goes past one value of the kind. -/
def skip : Kind → WireReading Unit
  | .signedVarint | .unsignedVarint => do let _ ← readVarint 64
  | .fixed32 => do let _ ← readRaw 4
  | .fixed64 => do let _ ← readRaw 8
  | .bytes | .nested => do let _ ← readBytes

/-- Reads an element as many times as it says. -/
def readTimes {ε α : Type} (element : Reading ε α) : Nat → Reading ε (List α)
  | 0 => return []
  | n + 1 => do
    let x ← element
    let xs ← readTimes element n
    return x :: xs

/-- Reads elements until no bytes are left, at most `bound` of them. -/
def readBounded {ε α : Type} (element : Reading ε α) : (bound : Nat) → Reading ε (List α)
  | 0 => return []
  | bound + 1 => do
    if (← get).atEnd then return []
    else
      let x ← element
      let xs ← readBounded element bound
      return x :: xs

/-- Reads elements until no bytes are left. An element takes at least one byte,
    so there are at most as many of them as bytes. -/
def readToEnd {ε α : Type} (element : Reading ε α) : Reading ε (List α) := fun r =>
  readBounded element r.remaining r

end Marshal.Wire
