import Marshal.Wire.Primitive

/-!
# Numbers as bytes

* `varint`: a number as bytes of seven bits each, the lowest first, every byte
  but the last with its high bit set;
* `zigzag`: an integer as a natural number, in the order `0, -1, 1, -2, 2, …`,
  so that small integers of either sign take few bytes;
* `bigEndian`: a number as a fixed number of bytes, the highest first;
* `utf8`: a text as bytes.
-/

namespace Marshal.Wire

/-- The bytes of a number, seven bits each, the lowest first. -/
def varint (n : Nat) : Bytes :=
  if n < 128 then [n.toUInt8] else (n % 128 + 128).toUInt8 :: varint (n / 128)
termination_by n

/-- An integer as a natural number, alternating between the signs. -/
def zigzag : Int → Nat
  | .ofNat n => 2 * n
  | .negSucc n => 2 * n + 1

/-- The integer that a natural number stands for. -/
def unzigzag (n : Nat) : Int :=
  if n % 2 = 0 then .ofNat (n / 2) else .negSucc (n / 2)

theorem unzigzag_zigzag (i : Int) : unzigzag (zigzag i) = i := by
  cases i with
  | ofNat n => simp [zigzag, unzigzag]
  | negSucc n =>
    have h₁ : (2 * n + 1) % 2 = 1 := by omega
    have h₂ : (2 * n + 1) / 2 = n := by omega
    simp [zigzag, unzigzag, h₁, h₂]

/-- The lowest `width` bytes of a number, the highest of them first. -/
def bigEndian : (width n : Nat) → Bytes
  | 0, _ => []
  | width + 1, n => bigEndian width (n / 256) ++ [n.toUInt8]

/-- The number that bytes spell, the highest first. -/
def ofBigEndian (bytes : Bytes) : Nat :=
  bytes.foldl (fun n b => 256 * n + b.toNat) 0

/-- The bytes of a text. -/
def utf8 (s : String) : Bytes := s.toUTF8.data.toList

/-- The text of bytes, if they are those of one. -/
def ofUtf8? (bytes : Bytes) : Option String := String.fromUTF8? ⟨bytes.toArray⟩

theorem ofUtf8?_utf8 (s : String) : ofUtf8? (utf8 s) = some s := by
  simp only [ofUtf8?, utf8, Array.toArray_toList, String.fromUTF8?]
  exact dif_pos s.isValidUTF8

end Marshal.Wire
