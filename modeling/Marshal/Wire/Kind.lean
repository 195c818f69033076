/-!
# Wire kinds

How much of its own shape a value shows on the wire, which is all a reader
needs to know to skip it. A value of a length-delimited kind starts with the
number of its bytes; the others show where they end by themselves, or are as
wide as their kind says.
-/

namespace Marshal.Wire

/-- The encoding of a value, as far as skipping it goes. -/
inductive Kind
  | signedVarint
  | unsignedVarint
  | fixed32
  | fixed64
  /-- A text or a byte string, after its length. -/
  | bytes
  /-- A message, after its length. -/
  | nested
  deriving DecidableEq

namespace Kind

/-- Whether values of the kind start with their length in bytes. -/
def isLengthDelimited : Kind → Bool
  | .bytes | .nested => true
  | _ => false

/-- Whether keys of a map may be of the kind. -/
def isMapKey (k : Kind) : Bool := !k.isLengthDelimited

/-- The number of bytes of every value of the kind, where it is the same for all. -/
def width? : Kind → Option Nat
  | .fixed32 => some 4
  | .fixed64 => some 8
  | _ => none

/-- The name of the kind in documents. -/
def name : Kind → String
  | .signedVarint => "signed_varint"
  | .unsignedVarint => "unsigned_varint"
  | .fixed32 => "fixed32"
  | .fixed64 => "fixed64"
  | .bytes => "length_delimited_bytes"
  | .nested => "length_delimited_nested"

/-- All kinds. -/
def all : List Kind := [.signedVarint, .unsignedVarint, .fixed32, .fixed64, .bytes, .nested]

/-- The kind of a name. -/
def ofName? (name : String) : Option Kind := all.find? (·.name = name)

end Kind

/-- What the number in front of a sequence counts. -/
inductive Extent
  /-- The elements, or the pairs of a map. -/
  | elements
  /-- The bytes of all elements together. -/
  | bytes
  deriving DecidableEq

namespace Extent

/-- A sequence of length-delimited elements goes by its bytes, and any other by
    its elements. For a map the kind is that of its values. -/
def ofKind (k : Kind) : Extent := if k.isLengthDelimited then .bytes else .elements

/-- The name of the extent in documents. -/
def name : Extent → String
  | .elements => "elements"
  | .bytes => "bytes"

end Extent

end Marshal.Wire
