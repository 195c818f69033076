import Marshal.Wire.Reader

/-!
# Stacks of readers

Reading call by call: a frame that is read is put on top of the reader it was
read from, every call reads from the topmost reader, and dropping a frame goes
back to the reader below. A call that fails changes the topmost reader only.
-/

namespace Marshal.Wire

/-- A reader with the readers below it, of which one is always left. -/
structure Stack where
  top : Reader
  below : List Reader

/-- What can be asked of a stack of readers. -/
inductive Call
  /-- Reads a value. -/
  | value (p : Primitive)
  | byte
  | length
  | raw (length : Nat)
  | skip (k : Kind)
  /-- Reads a frame and puts it on top. -/
  | frame
  /-- Reads the frame of a message and puts it on top. -/
  | messageFrame
  /-- Reads a message of which only the first bytes are taken. -/
  | message (take : Nat)
  /-- Drops the frame on top. -/
  | drop
  /-- The whole byte string of the topmost reader. -/
  | data

/-- The answer to a call. -/
inductive Reply
  | done
  | value (p : Primitive) (x : p.Carrier)
  | byte (b : UInt8)
  | length (n : Nat)
  | bytes (b : Bytes)
  /-- The bytes taken from a message, and the depth of its frame. -/
  | message (taken : Bytes) (depth : Nat)

namespace Stack

/-- The stack of a single reader, at the start of a byte string. -/
def ofBytes (data : Bytes) : Stack := ⟨.ofBytes data, []⟩

/-- A reading of the topmost reader. -/
def reading {α : Type} (s : Stack) (read : WireReading α) (reply : α → Reply) :
    Except Error Reply × Stack :=
  match read s.top with
  | .ok a r => (.ok (reply a), { s with top := r })
  | .error e r => (.error e, { s with top := r })

/-- A reading whose result is put on top. -/
def entering (s : Stack) (read : WireReading Reader) : Except Error Reply × Stack :=
  match read s.top with
  | .ok frame r => (.ok .done, ⟨frame, r :: s.below⟩)
  | .error e r => (.error e, { s with top := r })

/-- The stack without its topmost reader, unless that is the last one. -/
def dropTop (s : Stack) : Stack :=
  match s.below with
  | [] => s
  | r :: below => ⟨r, below⟩

/-- The answer to a call, and the stack after it. -/
def call (s : Stack) : Call → Except Error Reply × Stack
  | .value p => s.reading p.read (.value p)
  | .byte => s.reading readByte .byte
  | .length => s.reading readLength .length
  | .raw length => s.reading (readRaw length) .bytes
  | .skip k => s.reading (Wire.skip k) fun _ => .done
  | .frame => s.entering readFrame
  | .messageFrame => s.entering readMessageFrame
  | .message take =>
    s.reading (readMessage do return (← readRaw take, (← get).depth)) fun (b, d) => .message b d
  | .drop => (.ok .done, s.dropTop)
  | .data => (.ok (.bytes s.top.data), s)

/-- The answers to calls one after the other, each with the stack after it. -/
def run (s : Stack) : List Call → List (Except Error Reply × Stack)
  | [] => []
  | c :: cs => let result := s.call c; result :: result.2.run cs

end Stack

end Marshal.Wire
