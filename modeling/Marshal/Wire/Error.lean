import Marshal.Text.Hex

/-!
# Reading errors

Why bytes could not be read. Offsets count from the start of the buffer that
was read from, which for a nested value is its own frame.
-/

namespace Marshal.Wire

/-- Why bytes could not be read. -/
inductive Error
  /-- The buffer ends, and `needed` more bytes would have been read. -/
  | unexpectedEnd (offset needed : Nat)
  /-- A byte other than zero and one stands for a truth value. -/
  | invalidBool (offset : Nat) (value : UInt8)
  /-- The varint starting at the offset does not fit. -/
  | varintOverflow (offset bits : Nat)
  /-- The string whose length starts at the offset is no text. -/
  | invalidUtf8 (offset : Nat)
  /-- The message starting at the offset is nested too deeply. -/
  | nestingLimit (offset limit : Nat)
  /-- The length starting at the offset is more than what is left after it. -/
  | lengthOutOfBounds (offset length remaining : Nat)
  deriving DecidableEq

/-- The wording of an error. -/
def Error.message : Error → String
  | .unexpectedEnd offset needed =>
    s!"unexpected end of buffer at offset {offset}: needed {needed} more byte(s)"
  | .invalidBool offset value =>
    s!"invalid boolean byte 0x{String.ofList (Text.hexByte value)} at offset {offset}"
  | .varintOverflow offset bits => s!"varint at offset {offset} overflows {bits} bits"
  | .invalidUtf8 offset => s!"string at offset {offset} is not valid UTF-8"
  | .nestingLimit offset limit =>
    s!"message at offset {offset} is nested deeper than {limit} levels"
  | .lengthOutOfBounds offset length remaining =>
    s!"length {length} at offset {offset} exceeds the {remaining} remaining byte(s)"

end Marshal.Wire
