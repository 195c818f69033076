import Marshal.Wire.Reader
import Marshal.Wire.Writer
import Mathlib.Algebra.Group.Nat.Defs

/-!
# Reading what was written

A reading *takes* some bytes if, wherever they come next, it goes past just
these and gives the same value, whatever comes after them (`Reads`). Taking is
closed under sequencing, so that what is written piece by piece is read piece by
piece.

* `Primitive.reads`: the reader of a primitive takes what its writer writes;
* `Primitive.skips`: so does skipping a value of its kind, which gives nothing;
* `readFrame_apply`, `readMessageFrame_apply`: the frame of a payload is a
  reader over the payload alone.

Lengths are 64-bit words, so this holds for payloads shorter than `2 ^ 64`.
-/

namespace Marshal.Wire

variable {ε σ α β : Type}

/-! ## Readers -/

namespace Reader

variable {r : Reader} {a b : Bytes}

/-- The reader past the next `n` bytes. -/
def advance (r : Reader) (n : Nat) : Reader := { r with index := r.index + n }

theorem advance_advance (r : Reader) (m n : Nat) : (r.advance m).advance n = r.advance (m + n) := by
  simp only [advance, Nat.add_assoc]

/-- What is left is as long as the rest. -/
theorem remaining_eq (r : Reader) : r.remaining = r.rest.length := by
  rw [remaining, rest, List.length_drop]

theorem atEnd_eq (r : Reader) : r.atEnd = r.rest.isEmpty := by
  rw [atEnd, remaining_eq]
  cases r.rest <;> simp

/-- A reader with a byte to read is not at the end. -/
theorem atEnd_eq_false (ha : 0 < a.length) (h : r.rest = a ++ b) : r.atEnd = false := by
  rw [atEnd_eq, h, List.isEmpty_eq_false_iff]
  exact List.append_ne_nil_of_left_ne_nil (List.ne_nil_of_length_pos ha) b

/-- Going past some bytes leaves those that come after them. -/
theorem rest_advance (h : r.rest = a ++ b) : (r.advance a.length).rest = b := by
  rw [rest, advance, ← List.drop_drop, ← rest, h, List.drop_left]

@[simp] theorem rest_ofBytes (data : Bytes) (depth : Nat) : (Reader.mk data 0 depth).rest = data :=
  rfl

end Reader

/-! ## Taking bytes -/

/-- The reading goes past just these bytes, and gives `a`. -/
def Reads (m : Reading ε α) (bytes : Bytes) (a : α) : Prop :=
  ∀ r tail, r.rest = bytes ++ tail → m r = .ok a (r.advance bytes.length)

theorem bind_of_ok {m : EStateM ε σ α} {f : α → EStateM ε σ β} {r r' : σ} {a : α}
    (h : m r = .ok a r') : (m >>= f) r = f a r' := by
  change EStateM.bind m f r = f a r'
  rw [EStateM.bind, h]

theorem bind_of_error {m : EStateM ε σ α} {f : α → EStateM ε σ β} {r r' : σ} {e : ε}
    (h : m r = .error e r') : (m >>= f) r = .error e r' := by
  change EStateM.bind m f r = .error e r'
  rw [EStateM.bind, h]

theorem map_of_ok {m : EStateM ε σ α} {f : α → β} {r r' : σ} {a : α}
    (h : m r = .ok a r') : (f <$> m) r = .ok (f a) r' := by
  change EStateM.map f m r = .ok (f a) r'
  rw [EStateM.map, h]

theorem map_of_error {m : EStateM ε σ α} {f : α → β} {r r' : σ} {e : ε}
    (h : m r = .error e r') : (f <$> m) r = .error e r' := by
  change EStateM.map f m r = .error e r'
  rw [EStateM.map, h]

namespace Reads

variable {m : Reading ε α} {f : α → Reading ε β} {b₁ b₂ : Bytes} {a : α} {c : β}

theorem pure (a : α) : Reads (Pure.pure a : Reading ε α) [] a := fun _ _ _ => rfl

/-- Readings in a row take their bytes in a row. -/
theorem bind (hm : Reads m b₁ a) (hf : Reads (f a) b₂ c) : Reads (m >>= f) (b₁ ++ b₂) c := by
  intro r tail hr
  rw [List.append_assoc] at hr
  rw [bind_of_ok (hm r _ hr), hf _ tail (Reader.rest_advance hr), Reader.advance_advance,
    List.length_append]

/-- What comes after the bytes may depend on them without reading any more. -/
theorem bind_nil (hm : Reads m b₁ a) (hf : Reads (f a) [] c) : Reads (m >>= f) b₁ c := by
  have := hm.bind hf
  rwa [List.append_nil] at this

theorem map {g : α → β} (hm : Reads m b₁ a) : Reads (g <$> m) b₁ (g a) :=
  fun r tail hr => map_of_ok (hm r tail hr)

/-- The position may be looked at before reading. -/
theorem position {f : Nat → Reading ε α} (h : ∀ start, Reads (f start) b₁ a) :
    Reads (position >>= f) b₁ a := fun r tail hr => h r.index r tail hr

end Reads

/-! ## Bytes and numbers -/

/-- A byte is read from itself. -/
theorem reads_byte (b : UInt8) : Reads readByte [b] b := by
  intro r tail hr
  have hb : r.data[r.index]? = some b := by
    rw [← List.head?_drop, ← Reader.rest, hr]
    rfl
  rw [readByte, hb]
  rfl

/-- Bytes are read from themselves, given their number. -/
theorem reads_raw (bytes : Bytes) : Reads (readRaw bytes.length) bytes bytes := by
  intro r tail hr
  have hle : bytes.length ≤ r.remaining := by
    rw [Reader.remaining_eq, hr, List.length_append]
    exact Nat.le_add_right _ _
  rw [readRaw, if_pos hle, hr, List.take_left]
  rfl

/-- A truth value is read from the byte that is written for it. -/
theorem reads_bool (b : Bool) : Reads readBool (Primitive.bool.write b) b := by
  refine .position fun start => ?_
  cases b with
  | false => exact (reads_byte 0).bind_nil (.pure false)
  | true => exact (reads_byte 1).bind_nil (.pure true)

theorem varint_of_lt {n : Nat} (h : n < 128) : varint n = [n.toUInt8] := by
  rw [varint, if_pos h]

/-- The bytes of a large number are its lowest seven bits, with a high bit, and those of the
    rest. -/
theorem varint_of_le {n : Nat} (h : 128 ≤ n) :
    varint n = (n % 128 + 128).toUInt8 :: varint (n / 128) := by
  rw [varint, if_neg (Nat.not_lt.2 h)]

theorem toNat_toUInt8 {n : Nat} (h : n < 256) : n.toUInt8.toNat = n := by
  rw [Nat.toUInt8_eq, UInt8.toNat_ofNat', Nat.mod_eq_of_lt h]

/-- Every varint takes a byte at least. -/
theorem length_varint_pos (n : Nat) : 0 < (varint n).length := by
  rw [varint]
  split <;> exact Nat.succ_pos _

/-- A number that fits into the groups is read from its varint: the last group
    possible holds what is below `limit`, and each one before it seven bits. -/
theorem reads_groups {start bits limit : Nat} (hlimit : limit ≤ 128) :
    ∀ {groups n : Nat}, n < limit * 128 ^ groups →
      Reads (readGroups start bits limit (groups + 1)) (varint n) n
  | 0, n, hn => by
    -- In the last group possible, the number is below the limit itself.
    rw [Nat.pow_zero, Nat.mul_one] at hn
    rw [varint_of_lt (by omega)]
    refine (reads_byte _).bind_nil ?_
    rw [toNat_toUInt8 (by omega), if_neg (by omega), if_pos (by omega)]
    exact .pure n
  | groups + 1, n, hn => by
    by_cases h : n < 128
    · rw [varint_of_lt h]
      refine (reads_byte _).bind_nil ?_
      rw [toNat_toUInt8 (by omega), if_neg (by omega), if_pos h]
      exact .pure n
    · -- The lowest seven bits stand in the first byte, and the rest is a
      -- varint in its turn, with one group less.
      have hdiv : n / 128 < limit * 128 ^ groups := by
        rw [Nat.div_lt_iff_lt_mul (by decide), Nat.mul_assoc, ← Nat.pow_succ]
        exact hn
      have hsum : (n % 128 + 128) % 128 + 128 * (n / 128) = n := by omega
      rw [varint_of_le (by omega)]
      refine (reads_byte _).bind ?_
      rw [toNat_toUInt8 (by omega), if_neg (by omega), if_neg (by omega)]
      have := (@reads_groups start bits _ hlimit _ _ hdiv).map
        (g := fun high => (n % 128 + 128) % 128 + 128 * high)
      rwa [hsum] at this

/-- A number is read from its bytes, if it is within range. -/
theorem reads_varint {bits n : Nat} (hn : n < 2 ^ bits) : Reads (readVarint bits) (varint n) n := by
  refine .position fun start => reads_groups ?_ ?_
  · rw [Nat.one_shiftLeft]
    exact Nat.pow_le_pow_right (by decide) (by omega : bits % 7 ≤ 7)
  · rw [Nat.one_shiftLeft, show (128 : Nat) = 2 ^ 7 from rfl, ← Nat.pow_mul, ← Nat.pow_add,
      Nat.mod_add_div]
    exact hn

theorem length_bigEndian (width n : Nat) : (bigEndian width n).length = width := by
  induction width generalizing n with
  | zero => rfl
  | succ width ih => rw [bigEndian, List.length_append, ih, List.length_singleton]

/-- The lowest bytes of a number make up the number up to a power. -/
theorem ofBigEndian_bigEndian (width n : Nat) :
    ofBigEndian (bigEndian width n) = n % 256 ^ width := by
  induction width generalizing n with
  | zero => rw [Nat.pow_zero, Nat.mod_one, bigEndian, ofBigEndian, List.foldl_nil]
  | succ width ih =>
    have hlast : n.toUInt8.toNat = n % 256 := by rw [Nat.toUInt8_eq, UInt8.toNat_ofNat']
    have ih := ih (n / 256)
    rw [ofBigEndian] at ih
    rw [bigEndian, ofBigEndian, List.foldl_append, ih, List.foldl_cons, List.foldl_nil, hlast,
      Nat.pow_succ', Nat.mod_mul, Nat.add_comm]

/-- A number of a fixed width is read from its bytes. -/
theorem reads_bigEndian {width n : Nat} (hn : n < 256 ^ width) :
    Reads (readBigEndian width) (bigEndian width n) n := by
  have hraw := reads_raw (bigEndian width n)
  rw [length_bigEndian] at hraw
  refine hraw.bind_nil ?_
  rw [ofBigEndian_bigEndian, Nat.mod_eq_of_lt hn]
  exact .pure n

/-! ## Lengths and frames -/

/-- What is framed is shorter than its frame. -/
theorem lt_of_length_framed {payload : Bytes} {n : Nat} (h : (framed payload).length < n) :
    payload.length < n := by
  rw [framed, List.length_append] at h
  omega

/-- A length or count is read where as many bytes come after it. -/
theorem readLength_apply {r : Reader} {n : Nat} {tail : Bytes} (hn : n < 2 ^ 64)
    (hr : r.rest = varint n ++ tail) (htail : n ≤ tail.length) :
    readLength r = .ok n (r.advance (varint n).length) := by
  have hrest := Reader.rest_advance hr
  have hle : n ≤ (r.advance (varint n).length).remaining := by
    rwa [Reader.remaining_eq, hrest]
  change (readVarint 64 >>= _) r = _
  rw [bind_of_ok (reads_varint hn r tail hr)]
  -- The length is held against what is left after its own bytes.
  change (if n ≤ (r.advance (varint n).length).remaining then _ else _ : WireReading Nat) _ = _
  rw [if_pos hle]
  rfl

/-- A count may be read before what is counted, if that takes a byte each. -/
theorem Reads.counted {f : Nat → WireReading α} {n : Nat} {payload : Bytes} {a : α}
    (hn : n ≤ payload.length) (hlen : payload.length < 2 ^ 64) (hf : Reads (f n) payload a) :
    Reads (readLength >>= f) (varint n ++ payload) a := by
  intro r tail hr
  rw [List.append_assoc] at hr
  have htail : n ≤ (payload ++ tail).length := by
    rw [List.length_append]
    omega
  rw [bind_of_ok (readLength_apply (by omega) hr htail), hf _ tail (Reader.rest_advance hr),
    Reader.advance_advance, List.length_append]

/-- A byte string is read from its frame. -/
theorem reads_bytes {payload : Bytes} (h : payload.length < 2 ^ 64) :
    Reads readBytes (framed payload) payload :=
  .counted (Nat.le_refl _) h (reads_raw payload)

/-- A reader goes past a frame, and another one is at the start of it. -/
theorem readFrame_apply {r : Reader} {payload tail : Bytes} (h : payload.length < 2 ^ 64)
    (hr : r.rest = framed payload ++ tail) :
    readFrame r = .ok ⟨payload, 0, r.depth⟩ (r.advance (framed payload).length) := by
  rw [readFrame, bind_of_ok (reads_bytes h r tail hr)]
  rfl

/-- The reader inside the frame of a message is one level deeper. -/
theorem readMessageFrame_apply {r : Reader} {payload tail : Bytes} (h : payload.length < 2 ^ 64)
    (hr : r.rest = framed payload ++ tail) (hd : r.depth < nestingLimit) :
    readMessageFrame r = .ok ⟨payload, 0, r.depth + 1⟩ (r.advance (framed payload).length) := by
  change (if nestingLimit ≤ r.depth then _ else _ : WireReading Reader) r = _
  rw [if_neg (Nat.not_le.2 hd), bind_of_ok (readFrame_apply h hr)]
  rfl

/-- Too deep inside messages, no further one is entered. -/
theorem readMessageFrame_of_le {r : Reader} (hd : nestingLimit ≤ r.depth) :
    readMessageFrame r = .error (.nestingLimit r.index nestingLimit) r := by
  change (if nestingLimit ≤ r.depth then _ else _ : WireReading Reader) r = _
  rw [if_pos hd]
  rfl

/-! ## Primitives -/

/-- Integers between two bounds take twice as many numbers. -/
theorem zigzag_lt {i : Int} {n : Nat} (h : -(n : Int) ≤ i) (h' : i < n) : zigzag i < 2 * n := by
  cases i with
  | ofNat m =>
    rw [zigzag]
    rw [Int.ofNat_eq_natCast] at h'
    omega
  | negSucc m =>
    rw [zigzag]
    omega

theorem zigzag_int32_lt (n : Int32) : zigzag n.toInt < 2 ^ 32 :=
  zigzag_lt (n := 2 ^ 31) n.le_toInt n.toInt_lt

theorem zigzag_int64_lt (n : Int64) : zigzag n.toInt < 2 ^ 64 :=
  zigzag_lt (n := 2 ^ 63) n.le_toInt n.toInt_lt

namespace Primitive

/-- The reader of a primitive takes what its writer writes. -/
theorem reads (p : Primitive) (x : p.Carrier) (h : (p.write x).length < 2 ^ 64) :
    Reads p.read (p.write x) x := by
  cases p with
  | bool => exact reads_bool x
  | varU32 =>
    have := (reads_varint (UInt32.toNat_lt x)).map (g := UInt32.ofNat)
    rwa [UInt32.ofNat_toNat] at this
  | varU64 =>
    have := (reads_varint (UInt64.toNat_lt x)).map (g := UInt64.ofNat)
    rwa [UInt64.ofNat_toNat] at this
  | varI32 =>
    -- Signed numbers are written as their codes, which fit into as many bits.
    have := (reads_varint (zigzag_int32_lt x)).map (g := fun n => Int32.ofInt (unzigzag n))
    rwa [unzigzag_zigzag, Int32.ofInt_toInt] at this
  | varI64 =>
    have := (reads_varint (zigzag_int64_lt x)).map (g := fun n => Int64.ofInt (unzigzag n))
    rwa [unzigzag_zigzag, Int64.ofInt_toInt] at this
  | fixedU32 | f32 =>
    have := (@reads_bigEndian 4 _ (UInt32.toNat_lt x)).map (g := UInt32.ofNat)
    rwa [UInt32.ofNat_toNat] at this
  | fixedI32 =>
    -- Signed words are written as the unsigned ones with the same bits.
    have := (@reads_bigEndian 4 _ (UInt32.toNat_lt (Int32.toUInt32 x))).map
      (g := fun n => (UInt32.ofNat n).toInt32)
    rwa [UInt32.ofNat_toNat, Int32.toInt32_toUInt32] at this
  | fixedU64 | f64 =>
    have := (@reads_bigEndian 8 _ (UInt64.toNat_lt x)).map (g := UInt64.ofNat)
    rwa [UInt64.ofNat_toNat] at this
  | fixedI64 =>
    have := (@reads_bigEndian 8 _ (UInt64.toNat_lt (Int64.toUInt64 x))).map
      (g := fun n => (UInt64.ofNat n).toInt64)
    rwa [UInt64.ofNat_toNat, Int64.toInt64_toUInt64] at this
  | string =>
    refine .position fun start => (reads_bytes (lt_of_length_framed h)).bind_nil ?_
    rw [ofUtf8?_utf8]
    exact .pure x
  | bytes => exact reads_bytes (lt_of_length_framed h)

/-- Every value takes a byte at least. -/
theorem length_write_pos (p : Primitive) (x : p.Carrier) : 0 < (p.write x).length := by
  cases p with
  | bool => exact Nat.one_pos
  | varU32 | varU64 | varI32 | varI64 => exact length_varint_pos _
  | fixedU32 | fixedI32 | fixedU64 | fixedI64 | f32 | f64 =>
    rw [write, length_bigEndian]
    decide
  | string | bytes =>
    rw [write, framed, List.length_append]
    exact Nat.add_pos_left (length_varint_pos _) _

end Primitive

/-! ## Skipping -/

/-- A number is gone past as any number of 64 bits. -/
theorem skips_varint {n : Nat} (h : n < 2 ^ 64) :
    Reads (do let _ ← readVarint 64) (varint n) () :=
  (reads_varint h).bind_nil (.pure ())

/-- Bytes of a fixed width are gone past by their number. -/
theorem skips_raw {bytes : Bytes} {width : Nat} (h : bytes.length = width) :
    Reads (do let _ ← readRaw width) bytes () :=
  h ▸ (reads_raw bytes).bind_nil (.pure ())

/-- Skipping goes past a frame without a look at what is in it. -/
theorem skips_frame {payload : Bytes} (h : (framed payload).length < 2 ^ 64) :
    Reads (do let _ ← readBytes) (framed payload) () :=
  (reads_bytes (lt_of_length_framed h)).bind_nil (.pure ())

/-- What is written for a value is skipped by the kind of its primitive. A truth
    value is a varint in its own right, and varints of any width are skipped as
    the widest. -/
theorem Primitive.skips (p : Primitive) (x : p.Carrier) (h : (p.write x).length < 2 ^ 64) :
    Reads (skip p.kind) (p.write x) () := by
  cases p with
  | bool =>
    -- A truth value is gone past as the number of one byte that it is.
    have hx : Primitive.bool.write x = varint (Bool.toNat x) := by
      rw [varint_of_lt (Nat.lt_of_lt_of_le (Bool.toNat_lt x) (by decide))]
      cases x <;> rfl
    rw [hx]
    exact skips_varint (Nat.lt_of_lt_of_le (Bool.toNat_lt x) (by decide))
  | varU32 => exact skips_varint (Nat.lt_of_lt_of_le (UInt32.toNat_lt x) (by decide))
  | varU64 => exact skips_varint (UInt64.toNat_lt x)
  | varI32 => exact skips_varint (Nat.lt_of_lt_of_le (zigzag_int32_lt x) (by decide))
  | varI64 => exact skips_varint (zigzag_int64_lt x)
  | fixedU32 | fixedI32 | f32 | fixedU64 | fixedI64 | f64 => exact skips_raw (length_bigEndian _ _)
  | string | bytes => exact skips_frame h

end Marshal.Wire
