import Marshal.Proofs.Varints
import Mathlib.Data.Nat.Bitwise

/-!
# Numbers in words

Varints and zigzags are defined by arithmetic on numbers without bounds. On a machine they are
made of shifts, masks and exclusive ors in words of 32 and 64 bits, where bits are lost at both
ends. Here these operations are stated for words, and proved to give the same bytes and numbers:

* `Word.varint_eq`, `Word.readGroups_eq`: the loops that take seven bits off a word, and put seven
  bits to it;
* `Word.toNat_zigzag`, `Word.toInt_unzigzag`: the sign as a mask that is 0 or all ones.

So all primitives that are varints are written and read by words (`write_by_words`,
`read_by_words`).
-/

namespace Marshal.Wire

namespace Word

/-! ## Writing -/

theorem toNat_shiftRight_seven (v : BitVec 64) : (v >>> 7).toNat = v.toNat / 128 := by
  rw [BitVec.toNat_ushiftRight, Nat.shiftRight_eq_div_pow]

/-- The bytes of a word: its lowest seven bits with the high bit of the byte set, as long as there
    are others, and then those that are left. -/
def varint (v : BitVec 64) : Bytes :=
  if 0x80 ≤ v then
    ((UInt8.ofBitVec (v.setWidth 8) &&& 0x7F) ||| 0x80) :: varint (v >>> 7)
  else [UInt8.ofBitVec (v.setWidth 8)]
termination_by v.toNat
decreasing_by
  rename_i h
  rw [toNat_shiftRight_seven]
  have hpos : 128 ≤ v.toNat := h
  omega

/-- The lowest seven bits of a byte. -/
theorem toNat_lowest (b : UInt8) : (b &&& 0x7F).toNat = b.toNat % 128 := by
  rw [UInt8.toNat_and]
  exact Nat.and_two_pow_sub_one_eq_mod b.toNat 7

/-- A byte with its high bit set, made of seven bits. -/
theorem toNat_continued (b : UInt8) : ((b &&& 0x7F) ||| 0x80).toNat = b.toNat % 128 + 128 := by
  have hlt : b.toNat % 128 < 2 ^ 7 := Nat.mod_lt _ (by decide)
  have hor := Nat.two_pow_add_eq_or_of_lt hlt 1
  rw [UInt8.toNat_or, toNat_lowest, Nat.or_comm]
  exact hor.symm.trans (Nat.add_comm _ _)

/-- The high bit of a byte is not set. -/
theorem and_high_eq_zero_iff (b : UInt8) : b &&& 0x80 = 0 ↔ b.toNat < 128 := by
  have hbit : (b &&& 0x80).toNat = (b.toNat.testBit 7).toNat * 2 ^ 7 := by
    rw [UInt8.toNat_and]
    exact Nat.and_two_pow b.toNat 7
  have hlt := b.toNat_lt
  rw [← UInt8.toNat_inj, hbit, Nat.testBit_eq_decide_div_mod_eq]
  by_cases hset : b.toNat / 2 ^ 7 % 2 = 1
  · simp only [hset, decide_true, Bool.toNat_true, UInt8.toNat_zero]
    omega
  · simp only [hset, decide_false, Bool.toNat_false, UInt8.toNat_zero]
    omega

/-- The loop on words writes the bytes of the number. -/
theorem varint_eq (v : BitVec 64) : varint v = Wire.varint v.toNat := by
  have hbyte (v : BitVec 64) : (UInt8.ofBitVec (v.setWidth 8)).toNat = v.toNat % 256 := rfl
  fun_induction varint v with
  | case1 v hv ih =>
    have hle : 128 ≤ v.toNat := hv
    rw [Wire.varint, if_neg (by omega), ih, toNat_shiftRight_seven]
    congr 1
    rw [← UInt8.toNat_inj, toNat_continued, hbyte, UInt8.toNat_ofNat']
    omega
  | case2 v hv =>
    have hlt : v.toNat < 128 := Nat.lt_of_not_le hv
    rw [Wire.varint, if_pos hlt]
    congr 1

/-! ## Reading -/

/-- Reads what is left of a varint of `w` bits starting at `start`, in at most `groups` bytes, the
    last possible one of which is at most `top`. The bits before are in `result`, and the next
    ones go to `shift`. -/
def readGroups (start w : Nat) (top : UInt8) :
    (groups shift : Nat) → (result : BitVec w) → WireReading (BitVec w)
  | 0, _, _ => throw (.varintOverflow start w)
  | groups + 1, shift, result => do
    let b ← readByte
    if groups = 0 ∧ top < b then throw (.varintOverflow start w)
    else
      let result := result ||| (b &&& 0x7F).toBitVec.setWidth w <<< shift
      if b &&& 0x80 = 0 then return result
      else readGroups start w top groups (shift + 7) result

/-- Reads a varint of `w` bits, in at most `groups` bytes. -/
def readVarint (w : Nat) (top : UInt8) (groups : Nat) : WireReading (BitVec w) := do
  let start ← position
  readGroups start w top groups 0 0#w

/-- Seven bits and those above them, at their places in a word. -/
theorem ofNat_group (w n high shift : Nat) :
    BitVec.ofNat w (n % 128 + 128 * high) <<< shift =
      BitVec.ofNat w (n % 128) <<< shift ||| BitVec.ofNat w high <<< (shift + 7) := by
  have hlt : n % 128 < 2 ^ 7 := Nat.mod_lt _ (by decide)
  have hshift : BitVec.ofNat w (2 ^ 7 * high) = BitVec.ofNat w high <<< 7 := by
    rw [← BitVec.toNat_inj]
    simp [Nat.shiftLeft_eq, Nat.mul_comm]
  have hor : n % 128 + 128 * high = 2 ^ 7 * high ||| n % 128 := by
    rw [← Nat.two_pow_add_eq_or_of_lt hlt, Nat.add_comm]
  rw [hor, BitVec.ofNat_or, BitVec.shiftLeft_or_distrib, hshift, ← BitVec.shiftLeft_add,
    BitVec.or_comm, Nat.add_comm 7]

theorem setWidth_lowest (w : Nat) (b : UInt8) :
    (b &&& 0x7F).toBitVec.setWidth w = BitVec.ofNat w (b.toNat % 128) := by
  rw [← toNat_lowest, ← BitVec.toNat_inj, BitVec.toNat_setWidth, BitVec.toNat_ofNat,
    UInt8.toNat_toBitVec]

/-- The loop on words reads the number, as far as there is room for its bits. -/
theorem readGroups_eq (start w : Nat) (top : UInt8) (groups shift : Nat) (result : BitVec w) :
    readGroups start w top groups shift result =
      (fun n => result ||| BitVec.ofNat w n <<< shift) <$>
        Wire.readGroups start w (top.toNat + 1) groups := by
  induction groups generalizing shift result with
  | zero => rfl
  | succ groups ih =>
    rw [readGroups, Wire.readGroups, map_bind]
    refine congrArg (readByte >>= ·) (funext fun b => ?_)
    have htop : top < b ↔ top.toNat + 1 ≤ b.toNat := UInt8.lt_iff_toNat_lt
    by_cases hover : groups = 0 ∧ top.toNat + 1 ≤ b.toNat
    · rw [if_pos hover, if_pos (by rwa [htop])]
      rfl
    · rw [if_neg hover, if_neg (by rwa [htop])]
      by_cases hb : b.toNat < 128
      · rw [if_pos hb, map_pure]
        simp only [and_high_eq_zero_iff, hb, if_true, setWidth_lowest, Nat.mod_eq_of_lt hb]
      · -- The other bits are put above the seven of this byte.
        rw [if_neg hb, map_bind]
        simp only [and_high_eq_zero_iff, hb, if_false, setWidth_lowest, ih, BitVec.or_assoc,
          map_eq_pure_bind, pure_bind, ofNat_group]

/-- A varint of a word of `w` bits is the number that is read, in that many bits. -/
theorem readVarint_eq {w : Nat} {top : UInt8} (htop : top.toNat + 1 = 1 <<< (w % 7)) :
    readVarint w top (w / 7 + 1) = BitVec.ofNat w <$> Wire.readVarint w := by
  rw [Wire.readVarint, map_bind, readVarint]
  refine congrArg (position >>= ·) (funext fun start => ?_)
  rw [readGroups_eq, htop]
  refine congrArg (· <$> _) (funext fun n => ?_)
  rw [BitVec.shiftLeft_zero, BitVec.zero_or]

/-- There is room for all numbers that are read. So what is made of a number can be made of the
    word that holds it. -/
theorem map_readVarint {α : Type} {w : Nat} {top : UInt8} (htop : top.toNat + 1 = 1 <<< (w % 7))
    {f : Nat → α} {g : BitVec w → α} (h : ∀ v : BitVec w, g v = f v.toNat) :
    f <$> Wire.readVarint w = g <$> readVarint w top (w / 7 + 1) := by
  rw [readVarint_eq htop]
  funext r
  cases hread : Wire.readVarint w r with
  | ok n r' =>
    obtain ⟨bytes, tail, -, hspells, -⟩ := ((decides_readVarint w r).ok_iff n r').1 hread
    have hlt : n < 2 ^ w := hspells.lt
    have hn : (BitVec.ofNat w n).toNat = n := by rw [BitVec.toNat_ofNat, Nat.mod_eq_of_lt hlt]
    rw [map_of_ok hread, map_of_ok (map_of_ok hread), h, hn]
  | error e r' => rw [map_of_error hread, map_of_error (map_of_error hread)]

/-! ## Signs -/

/-- The word for an integer: shifted by one bit, and inverted by the sign. -/
def zigzag {w : Nat} (x : BitVec w) : BitVec w := (x <<< 1) ^^^ x.sshiftRight (w - 1)

/-- The integer that a word stands for. -/
def unzigzag {w : Nat} (v : BitVec w) : BitVec w := (v >>> 1) ^^^ -(v &&& 1#w)

theorem lt_of_msb_eq_false {w : Nat} {x : BitVec w} (h : x.msb = false) :
    x.toNat < 2 ^ (w - 1) := by
  simpa [BitVec.msb_eq_decide] using h

/-- Shifting all bits out but the sign leaves a mask that is 0 or all ones. -/
theorem sshiftRight_sign {w : Nat} (hw : 0 < w) (x : BitVec w) :
    x.sshiftRight (w - 1) = if x.msb then BitVec.allOnes w else 0#w := by
  have hzero {x : BitVec w} (h : x.msb = false) : x >>> (w - 1) = 0#w := by
    rw [← BitVec.toNat_inj, BitVec.toNat_ushiftRight, Nat.shiftRight_eq_div_pow,
      Nat.div_eq_of_lt (lt_of_msb_eq_false h), BitVec.toNat_zero]
  cases hmsb : x.msb with
  | false => rw [BitVec.sshiftRight_eq_of_msb_false hmsb, hzero hmsb, if_neg Bool.false_ne_true]
  | true =>
    have hnot : (~~~x).msb = false := by simp [BitVec.msb_not, hw, hmsb]
    rw [BitVec.sshiftRight_eq_of_msb_true hmsb, hzero hnot, BitVec.not_zero, if_pos rfl]

/-- The word for an integer is the number that it is written as. -/
theorem toNat_zigzag {w : Nat} (hw : 0 < w) (x : BitVec w) :
    (zigzag x).toNat = Wire.zigzag x.toInt := by
  have hlt := x.isLt
  have hpow := Nat.two_pow_pred_mul_two hw
  have hshift : (x <<< 1).toNat = 2 * x.toNat % 2 ^ w := by
    rw [BitVec.toNat_shiftLeft, Nat.shiftLeft_eq, Nat.mul_comm]
  rw [zigzag, sshiftRight_sign hw]
  cases hmsb : x.msb with
  | false =>
    have hsmall := lt_of_msb_eq_false hmsb
    have hint : x.toInt = .ofNat x.toNat := by
      rw [BitVec.toInt_eq_msb_cond, hmsb]
      rfl
    rw [if_neg Bool.false_ne_true, BitVec.xor_zero, hshift, hint, Wire.zigzag,
      Nat.mod_eq_of_lt (by omega)]
  | true =>
    have hlarge : 2 ^ (w - 1) ≤ x.toNat := by simpa [BitVec.msb_eq_decide] using hmsb
    have hint : x.toInt = .negSucc (2 ^ w - 1 - x.toNat) := by
      rw [BitVec.toInt_eq_msb_cond, hmsb, if_pos rfl, Int.negSucc_eq]
      omega
    have hmod : 2 * x.toNat % 2 ^ w = 2 * x.toNat - 2 ^ w := by
      rw [Nat.mod_eq_sub_mod (by omega), Nat.mod_eq_of_lt (by omega)]
    rw [if_pos rfl, BitVec.xor_allOnes, BitVec.toNat_not, hshift, hint, Wire.zigzag, hmod]
    omega

/-- The integer of a word is the one that its number stands for. -/
theorem toInt_unzigzag {w : Nat} (hw : 0 < w) (v : BitVec w) :
    (unzigzag v).toInt = Wire.unzigzag v.toNat := by
  have hlt := v.isLt
  have hpow := Nat.two_pow_pred_mul_two hw
  have hshift : (v >>> 1).toNat = v.toNat / 2 := by
    rw [BitVec.toNat_ushiftRight, Nat.shiftRight_eq_div_pow]
  have hone : 1 % 2 ^ w = 1 := Nat.mod_eq_of_lt (by omega)
  have hbit : v &&& 1#w = BitVec.ofNat w (v.toNat % 2) := by
    rw [← BitVec.toNat_inj, BitVec.toNat_and, BitVec.toNat_ofNat, BitVec.toNat_ofNat, hone,
      Nat.and_one_is_mod]
    exact (Nat.mod_eq_of_lt (by omega)).symm
  rw [unzigzag, Wire.unzigzag, hbit]
  by_cases heven : v.toNat % 2 = 0
  · rw [if_pos heven, heven, BitVec.neg_zero, BitVec.xor_zero,
      BitVec.toInt_eq_toNat_of_lt (by omega), hshift]
    rfl
  · have hodd : v.toNat % 2 = 1 := by omega
    rw [if_neg heven, hodd, BitVec.neg_one_eq_allOnes, BitVec.xor_allOnes,
      BitVec.toInt_eq_toNat_cond, BitVec.toNat_not, hshift, if_neg (by omega), Int.negSucc_eq]
    omega

end Word

/-! ## Primitives -/

/-- Varints of both widths, with a sign and without, are written by words. -/
theorem write_by_words :
    (∀ n : UInt32, Primitive.varU32.write n = Word.varint (n.toBitVec.setWidth 64)) ∧
      (∀ n : UInt64, Primitive.varU64.write n = Word.varint n.toBitVec) ∧
      (∀ n : Int32, Primitive.varI32.write n =
        Word.varint ((Word.zigzag n.toBitVec).setWidth 64)) ∧
      ∀ n : Int64, Primitive.varI64.write n = Word.varint (Word.zigzag n.toBitVec) := by
  have hwide (v : BitVec 32) : (v.setWidth 64).toNat = v.toNat := by
    rw [BitVec.toNat_setWidth, Nat.mod_eq_of_lt (by omega)]
  refine ⟨fun n => ?_, fun n => ?_, fun n => ?_, fun n => ?_⟩
  · rw [Word.varint_eq, hwide]
    rfl
  · rw [Word.varint_eq]
    rfl
  · rw [Word.varint_eq, hwide, Word.toNat_zigzag (by decide)]
    rfl
  · rw [Word.varint_eq, Word.toNat_zigzag (by decide)]
    rfl

/-- They are read by words, in at most five or ten bytes. The last of these has room for four bits
    or for one. -/
theorem read_by_words :
    Primitive.varU32.read = UInt32.ofBitVec <$> Word.readVarint 32 0x0F 5 ∧
      Primitive.varU64.read = UInt64.ofBitVec <$> Word.readVarint 64 0x01 10 ∧
      Primitive.varI32.read =
        (fun v => .ofBitVec (Word.unzigzag v)) <$> Word.readVarint 32 0x0F 5 ∧
      Primitive.varI64.read =
        (fun v => .ofBitVec (Word.unzigzag v)) <$> Word.readVarint 64 0x01 10 := by
  refine ⟨Word.map_readVarint rfl fun v => ?_, Word.map_readVarint rfl fun v => ?_,
    Word.map_readVarint rfl fun v => ?_, Word.map_readVarint rfl fun v => ?_⟩
  · rw [← UInt32.toBitVec_inj, UInt32.toBitVec_ofNat', BitVec.ofNat_toNat, BitVec.setWidth_eq]
  · rw [← UInt64.toBitVec_inj, UInt64.toBitVec_ofNat', BitVec.ofNat_toNat, BitVec.setWidth_eq]
  · rw [← Word.toInt_unzigzag (by decide)]
    exact (Int32.ofInt_toInt (.ofBitVec (Word.unzigzag v))).symm
  · rw [← Word.toInt_unzigzag (by decide)]
    exact (Int64.ofInt_toInt (.ofBitVec (Word.unzigzag v))).symm

end Marshal.Wire
