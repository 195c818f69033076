import Marshal.Proofs.Tracking
import Mathlib.Data.Nat.Digits.Defs

/-!
# Which bytes are varints

A varint is some bytes with their high bit set and then one without it (`IsVarint`), which
spell a number in groups of seven bits, the lowest first (`SpellsVarint`). A number has a
varint for each number of zero groups after its highest one, as long as there are not too
many of them.

* `reads_spelling`: what is spelled is read;
* `readGroups_cases`: whatever is not read ends before the last group possible, or does not
  fit when that is reached;
* `length_varint_le`, `varint_ofGroups_iff`: of all spellings, the one that is written is the
  shortest, and the only one without a group of zeros at its end;
* `varints_decide`: what the readers of both widths do with any bytes.
-/

namespace Marshal.Wire

variable {α : Type}

/-! ## Spellings -/

/-- Bytes with their high bit set, and then one without it. -/
inductive IsVarint : Bytes → Prop
  | last {b : UInt8} : b.toNat < 128 → IsVarint [b]
  | cons {b : UInt8} {bytes : Bytes} : 128 ≤ b.toNat → IsVarint bytes → IsVarint (b :: bytes)

/-- The number that bytes spell by their lowest seven bits, the lowest group first. -/
def ofGroups (bytes : Bytes) : Nat := Nat.ofDigits 128 (bytes.map fun b => b.toNat % 128)

/-- The bytes are a varint for the number, which is below `bound`, and there are at most
    `limit` of them. -/
structure SpellsVarint (bound limit : Nat) (bytes : Bytes) (n : Nat) : Prop where
  isVarint : IsVarint bytes
  length_le : bytes.length ≤ limit
  value : ofGroups bytes = n
  lt : n < bound

/-- The bytes end inside a varint, which could still go on. -/
structure EndsEarly (limit : Nat) (bytes : Bytes) : Prop where
  length_lt : bytes.length < limit
  continued : ∀ b ∈ bytes, 128 ≤ b.toNat

theorem ofGroups_cons (b : UInt8) (bytes : Bytes) :
    ofGroups (b :: bytes) = b.toNat % 128 + 128 * ofGroups bytes := by
  rw [ofGroups, List.map_cons, Nat.ofDigits_cons, ofGroups]

theorem ofGroups_singleton {b : UInt8} (hb : b.toNat < 128) : ofGroups [b] = b.toNat := by
  rw [ofGroups_cons, ofGroups, List.map_nil, Nat.ofDigits_nil, Nat.mod_eq_of_lt hb, Nat.mul_zero,
    Nat.add_zero]

theorem IsVarint.ne_nil {bytes : Bytes} (h : IsVarint bytes) : bytes ≠ [] := by
  rcases h with _ | _ <;> exact List.cons_ne_nil _ _

/-- Bytes that spell a varint do not end early. -/
theorem IsVarint.exists_lt {bytes : Bytes} (h : IsVarint bytes) : ∃ b ∈ bytes, b.toNat < 128 := by
  induction h with
  | last hb => exact ⟨_, List.mem_singleton_self _, hb⟩
  | cons _ _ ih =>
    obtain ⟨b, hmem, hb⟩ := ih
    exact ⟨b, List.mem_cons_of_mem _ hmem, hb⟩

/-! ## Reading -/

/-- The bytes are at their end, or there is a next one, which is read. -/
theorem readByte_cases (r : Reader) :
    r.rest = [] ∧ readByte r = .error (.unexpectedEnd r.index 1) r ∨
      ∃ b, r.rest = b :: (r.advance 1).rest ∧ readByte r = .ok b (r.advance 1) := by
  cases hrest : r.rest with
  | nil =>
    have hleft : r.remaining = 0 := by rw [Reader.remaining_eq, hrest, List.length_nil]
    have hnone : r.data[r.index]? = none := by
      rw [← List.head?_drop, ← Reader.rest, hrest, List.head?_nil]
    refine .inl ⟨rfl, ?_⟩
    rw [readByte, hnone, Reader.shortOf, hleft]
  | cons b tail =>
    have htail : (r.advance 1).rest = tail := @Reader.rest_advance r [b] tail hrest
    exact .inr ⟨b, by rw [htail], reads_byte b r tail hrest⟩

section Groups

variable {start bits limit : Nat}

/-- What is spelled in as many groups as there are is read, if it fits into them. -/
theorem reads_spelling {bytes : Bytes} {groups n : Nat}
    (h : SpellsVarint (limit * 128 ^ groups) (groups + 1) bytes n) :
    Reads (readGroups start bits limit (groups + 1)) bytes n := by
  obtain ⟨hvarint, hlength, rfl, hfits⟩ := h
  induction hvarint generalizing groups with
  | @last b hb =>
    rw [ofGroups_singleton hb] at hfits ⊢
    have hlast : ¬(groups = 0 ∧ limit ≤ b.toNat) := by
      rintro ⟨rfl, hle⟩
      rw [Nat.pow_zero, Nat.mul_one] at hfits
      omega
    refine (reads_byte b).bind_nil ?_
    rw [if_neg hlast, if_pos hb]
    exact .pure _
  | @cons b bytes hb hvarint ih =>
    have hmore := List.length_pos_iff.2 hvarint.ne_nil
    rw [List.length_cons] at hlength
    obtain ⟨groups, rfl⟩ := Nat.exists_eq_add_one_of_ne_zero (n := groups) (by omega)
    rw [ofGroups_cons] at hfits ⊢
    -- The groups after the first one have to hold what is left without its seven bits.
    have hrest : ofGroups bytes < limit * 128 ^ groups := by
      rw [Nat.pow_succ, ← Nat.mul_assoc] at hfits
      omega
    refine (reads_byte b).bind ?_
    rw [if_neg (by omega), if_neg (by omega)]
    exact (ih (by omega) hrest).map (g := fun high => b.toNat % 128 + 128 * high)

/-- Where no bytes are left, a varint ends early. -/
theorem readGroups_nil {r : Reader} (hrest : r.rest = [])
    (hbyte : readByte r = .error (.unexpectedEnd r.index 1) r) (groups : Nat) :
    EndsEarly (groups + 1) r.rest ∧ readGroups start bits limit (groups + 1) r =
      .error (.unexpectedEnd (r.index + r.rest.length) 1) (r.advance r.rest.length) := by
  rw [hrest]
  exact ⟨⟨Nat.succ_pos _, by simp⟩, bind_of_error hbyte⟩

/-- After a byte with its high bit set, the rest of a varint is read. -/
theorem readGroups_continued {b : UInt8} (hb : 128 ≤ b.toNat) {r : Reader}
    (hbyte : readByte r = .ok b (r.advance 1)) (groups : Nat) :
    readGroups start bits limit (groups + 1 + 1) r =
      ((fun high => b.toNat % 128 + 128 * high) <$> readGroups start bits limit (groups + 1))
        (r.advance 1) := by
  rw [readGroups, bind_of_ok hbyte, if_neg (by omega), if_neg (by omega)]
  rfl

/-- What can become of a varint: it is spelled by the next bytes, or it is cut short, or all
    groups possible are read in vain. -/
theorem readGroups_cases (hpos : 0 < limit) (hlimit : limit ≤ 128) (groups : Nat) (r : Reader) :
    (∃ bytes tail n, r.rest = bytes ++ tail ∧
        SpellsVarint (limit * 128 ^ groups) (groups + 1) bytes n) ∨
      (EndsEarly (groups + 1) r.rest ∧ readGroups start bits limit (groups + 1) r =
        .error (.unexpectedEnd (r.index + r.rest.length) 1) (r.advance r.rest.length)) ∨
      (groups < r.rest.length ∧ readGroups start bits limit (groups + 1) r =
        .error (.varintOverflow start bits) (r.advance (groups + 1))) := by
  induction groups generalizing r with
  | zero =>
    rcases readByte_cases r with ⟨hrest, hbyte⟩ | ⟨b, hrest, hbyte⟩
    · exact .inr (.inl (readGroups_nil hrest hbyte _))
    · by_cases hb : limit ≤ b.toNat
      · refine .inr (.inr ⟨by rw [hrest]; exact Nat.succ_pos _, ?_⟩)
        rw [readGroups, bind_of_ok hbyte, if_pos ⟨rfl, hb⟩]
        rfl
      · have hlast : b.toNat < 128 := by omega
        exact .inl ⟨[b], _, b.toNat, hrest, .last hlast, Nat.le_refl _, ofGroups_singleton hlast,
          by omega⟩
  | succ groups ih =>
    have hbound : limit * 128 ^ (groups + 1) = 128 * (limit * 128 ^ groups) := by
      rw [Nat.pow_succ, ← Nat.mul_assoc, Nat.mul_comm]
    have hroom : 0 < limit * 128 ^ groups := Nat.mul_pos hpos (Nat.pow_pos (by decide))
    rcases readByte_cases r with ⟨hrest, hbyte⟩ | ⟨b, hrest, hbyte⟩
    · exact .inr (.inl (readGroups_nil hrest hbyte _))
    · by_cases hb : b.toNat < 128
      · exact .inl ⟨[b], _, b.toNat, hrest, .last hb, Nat.succ_le_succ (Nat.zero_le _),
          ofGroups_singleton hb, by omega⟩
      · -- The varint goes on, and what becomes of it is decided by the bytes after the first.
        have hb : 128 ≤ b.toNat := by omega
        have hnext := @readGroups_continued start bits limit b hb r hbyte groups
        rcases ih (r.advance 1) with ⟨bytes, tail, n, hrest', hspells⟩ |
          ⟨⟨hlength, hcontinued⟩, herror⟩ | ⟨hlength, herror⟩
        · obtain ⟨hvarint, hlength, rfl, hfits⟩ := hspells
          exact .inl ⟨b :: bytes, tail, _, by rw [hrest, hrest', List.cons_append],
            .cons hb hvarint, Nat.succ_le_succ hlength, ofGroups_cons b bytes, by omega⟩
        · refine .inr (.inl ⟨⟨?_, ?_⟩, ?_⟩)
          · rw [hrest]
            exact Nat.succ_lt_succ hlength
          · rw [hrest]
            exact List.forall_mem_cons.2 ⟨hb, hcontinued⟩
          · have hindex : (r.advance 1).index = r.index + 1 := rfl
            rw [hnext, map_of_error herror, Reader.advance_advance, hindex, hrest,
              List.length_cons, Nat.add_assoc, Nat.add_comm 1]
        · refine .inr (.inr ⟨by rw [hrest]; exact Nat.succ_lt_succ hlength, ?_⟩)
          rw [hnext, map_of_error herror, Reader.advance_advance, Nat.add_comm 1]

end Groups

/-- The limit on the last group possible stands for a limit on the number. -/
theorem shiftLeft_mul_pow (bits : Nat) : (1 <<< (bits % 7)) * 128 ^ (bits / 7) = 2 ^ bits := by
  rw [Nat.one_shiftLeft, show (128 : Nat) = 2 ^ 7 from rfl, ← Nat.pow_mul, ← Nat.pow_add,
    Nat.mod_add_div]

/-! ## Deciding -/

/-- Readings fail alike, whatever is made of what they read. -/
theorem map_eq_error_iff {ε α β : Type} {m : Reading ε α} {f : α → β} {r r' : Reader} {e : ε} :
    (f <$> m) r = .error e r' ↔ m r = .error e r' := by
  refine ⟨fun h => ?_, map_of_error⟩
  rcases or_of_bind_error h with h | ⟨_, _, _, h⟩
  · exact h
  · cases h

/-- What a reading of varints does with the next bytes, where `toNat` tells the numbers read. -/
structure DecidesVarint (bits limit : Nat) (read : WireReading α) (toNat : α → Nat) (r : Reader) :
    Prop where
  /-- It succeeds on the spellings of numbers that fit, and goes past them. -/
  ok_iff : ∀ a r', read r = .ok a r' ↔ ∃ bytes tail, r.rest = bytes ++ tail ∧
    SpellsVarint (2 ^ bits) limit bytes (toNat a) ∧ r' = r.advance bytes.length
  /-- It fails for want of a byte where the bytes end early. -/
  end_iff : ∀ offset needed r', read r = .error (.unexpectedEnd offset needed) r' ↔
    EndsEarly limit r.rest ∧ offset = r.index + r.rest.length ∧ needed = 1 ∧
      r' = r.advance r.rest.length
  /-- It fails with an overflow, at the place of the varint, in all other cases. -/
  overflow_iff : read r = .error (.varintOverflow r.index bits) (r.advance limit) ↔
    ¬EndsEarly limit r.rest ∧
      ¬∃ bytes tail n, r.rest = bytes ++ tail ∧ SpellsVarint (2 ^ bits) limit bytes n

/-- What is read and what ends early do not go together. -/
theorem EndsEarly.not_spells {bound limit : Nat} {rest bytes tail : Bytes} {n : Nat}
    (h : EndsEarly limit rest) (hrest : rest = bytes ++ tail) :
    ¬SpellsVarint bound limit bytes n := by
  intro hspells
  obtain ⟨b, hmem, hb⟩ := hspells.isVarint.exists_lt
  have hcontinued := h.continued b (hrest ▸ List.mem_append_left tail hmem)
  omega

theorem readVarint_of_spells {bits : Nat} {r : Reader} {bytes tail : Bytes} {n : Nat}
    (hrest : r.rest = bytes ++ tail) (h : SpellsVarint (2 ^ bits) (bits / 7 + 1) bytes n) :
    readVarint bits r = .ok n (r.advance bytes.length) := by
  rw [← shiftLeft_mul_pow] at h
  exact reads_spelling h r tail hrest

/-- The outcomes of `readGroups_cases`, of all the bytes of a varint. -/
theorem readVarint_cases (bits : Nat) (r : Reader) :
    (∃ bytes tail n, r.rest = bytes ++ tail ∧
        SpellsVarint (2 ^ bits) (bits / 7 + 1) bytes n) ∨
      (EndsEarly (bits / 7 + 1) r.rest ∧ readVarint bits r =
        .error (.unexpectedEnd (r.index + r.rest.length) 1) (r.advance r.rest.length)) ∨
      (bits / 7 < r.rest.length ∧ readVarint bits r =
        .error (.varintOverflow r.index bits) (r.advance (bits / 7 + 1))) := by
  have hpos : 0 < 1 <<< (bits % 7) := by
    rw [Nat.one_shiftLeft]
    exact Nat.two_pow_pos _
  have hlimit : 1 <<< (bits % 7) ≤ 128 := by
    rw [Nat.one_shiftLeft]
    exact Nat.pow_le_pow_right (by decide) (by omega : bits % 7 ≤ 7)
  rw [← shiftLeft_mul_pow]
  exact readGroups_cases hpos hlimit (bits / 7) r

theorem decides_readVarint (bits : Nat) (r : Reader) :
    DecidesVarint bits (bits / 7 + 1) (readVarint bits) id r where
  ok_iff n r' := by
    constructor
    · intro hread
      rcases readVarint_cases bits r with ⟨bytes, tail, m, hrest, hspells⟩ | ⟨_, herror⟩ |
        ⟨_, herror⟩
      · cases (readVarint_of_spells hrest hspells).symm.trans hread
        exact ⟨bytes, tail, hrest, hspells, rfl⟩
      · cases herror.symm.trans hread
      · cases herror.symm.trans hread
    · rintro ⟨bytes, tail, hrest, hspells, rfl⟩
      exact readVarint_of_spells hrest hspells
  end_iff offset needed r' := by
    constructor
    · intro hread
      rcases readVarint_cases bits r with ⟨bytes, tail, m, hrest, hspells⟩ | ⟨hearly, herror⟩ |
        ⟨_, herror⟩
      · cases (readVarint_of_spells hrest hspells).symm.trans hread
      · cases herror.symm.trans hread
        exact ⟨hearly, rfl, rfl, rfl⟩
      · cases herror.symm.trans hread
    · rintro ⟨hearly, rfl, rfl, rfl⟩
      rcases readVarint_cases bits r with ⟨bytes, tail, m, hrest, hspells⟩ | ⟨_, herror⟩ |
        ⟨hlength, _⟩
      · exact absurd hspells (hearly.not_spells hrest)
      · exact herror
      · exact absurd hearly.length_lt (by omega)
  overflow_iff := by
    constructor
    · intro hread
      rcases readVarint_cases bits r with ⟨bytes, tail, m, hrest, hspells⟩ | ⟨_, herror⟩ |
        ⟨hlength, _⟩
      · cases (readVarint_of_spells hrest hspells).symm.trans hread
      · cases herror.symm.trans hread
      · refine ⟨fun hearly => absurd hearly.length_lt (by omega), ?_⟩
        rintro ⟨bytes, tail, n, hrest, hspells⟩
        cases (readVarint_of_spells hrest hspells).symm.trans hread
    · rintro ⟨hearly, hspells⟩
      rcases readVarint_cases bits r with h | ⟨h, _⟩ | ⟨_, herror⟩
      · exact absurd h hspells
      · exact absurd h hearly
      · exact herror

/-- Numbers may be read as words that are wide enough for them. -/
theorem DecidesVarint.map {bits limit : Nat} {r : Reader}
    (h : DecidesVarint bits limit (readVarint bits) id r) {ofNat : Nat → α} {toNat : α → Nat}
    (hof : ∀ a, ofNat (toNat a) = a) (hto : ∀ n < 2 ^ bits, toNat (ofNat n) = n) :
    DecidesVarint bits limit (ofNat <$> readVarint bits) toNat r where
  ok_iff a r' := by
    constructor
    · intro hread
      obtain ⟨n, r₁, hn, hread⟩ := exists_of_bind_ok hread
      cases hread
      obtain ⟨bytes, tail, hrest, hspells, hr'⟩ := (h.ok_iff n r').1 hn
      exact ⟨bytes, tail, hrest, (hto n hspells.lt).symm ▸ hspells, hr'⟩
    · intro hspells
      rw [← hof a]
      exact map_of_ok ((h.ok_iff (toNat a) r').2 hspells)
  end_iff offset needed r' := by
    rw [← h.end_iff]
    exact map_eq_error_iff
  overflow_iff := by
    rw [← h.overflow_iff]
    exact map_eq_error_iff

/-! ## Writing -/

theorem toUInt8_toNat (b : UInt8) : b.toNat.toUInt8 = b := by
  rw [Nat.toUInt8_eq, UInt8.ofNat_toNat]

/-- Writing a number whose lowest group comes from a byte gives this byte, and what is written
    for the rest. -/
theorem varint_cons {b : UInt8} (hb : 128 ≤ b.toNat) {n : Nat} (hn : 0 < n) :
    varint (b.toNat % 128 + 128 * n) = b :: varint n := by
  have hlt := b.toNat_lt
  have hlow : (b.toNat % 128 + 128 * n) % 128 + 128 = b.toNat := by omega
  have hhigh : (b.toNat % 128 + 128 * n) / 128 = n := by omega
  rw [varint_of_le (by omega), hlow, hhigh, toUInt8_toNat]

/-- No spelling is shorter than what is written. -/
theorem length_varint_le {bytes : Bytes} (h : IsVarint bytes) :
    (varint (ofGroups bytes)).length ≤ bytes.length := by
  induction h with
  | last hb => rw [ofGroups_singleton hb, varint_of_lt hb, List.length_singleton]; rfl
  | @cons b bytes hb _ ih =>
    rw [ofGroups_cons]
    rcases Nat.eq_zero_or_pos (ofGroups bytes) with hzero | hpos
    · rw [hzero, varint_of_lt (by omega), List.length_singleton, List.length_cons]
      omega
    · rw [varint_cons hb hpos, List.length_cons, List.length_cons]
      exact Nat.succ_le_succ ih

/-- A spelling of zero ends with a group of zeros. -/
theorem getLast?_of_ofGroups_eq_zero {bytes : Bytes} (h : IsVarint bytes)
    (hzero : ofGroups bytes = 0) : bytes.getLast? = some 0 := by
  induction h with
  | @last b hb =>
    rw [ofGroups_singleton hb] at hzero
    have hb : b = 0 := UInt8.toNat_inj.1 hzero
    rw [hb, List.getLast?_singleton]
  | @cons b bytes _ hvarint ih =>
    rw [ofGroups_cons] at hzero
    rw [List.getLast?_cons_of_ne_nil hvarint.ne_nil]
    exact ih (by omega)

/-- A spelling is what is written unless it ends with a group of zeros after another group. -/
theorem varint_ofGroups_iff {bytes : Bytes} (h : IsVarint bytes) :
    varint (ofGroups bytes) = bytes ↔ bytes.length = 1 ∨ bytes.getLast? ≠ some 0 := by
  induction h with
  | last hb => simp [ofGroups_singleton hb, varint_of_lt hb]
  | @cons b bytes hb hvarint ih =>
    have hmore := List.length_pos_iff.2 hvarint.ne_nil
    rw [ofGroups_cons, List.getLast?_cons_of_ne_nil hvarint.ne_nil, List.length_cons]
    rcases Nat.eq_zero_or_pos (ofGroups bytes) with hzero | hpos
    · -- The groups after the first one are all zeros, and are not written.
      refine iff_of_false (fun hwritten => ?_) ?_
      · rw [hzero, varint_of_lt (by omega)] at hwritten
        exact hvarint.ne_nil (List.cons.inj hwritten).2.symm
      · rintro (hlength | hlast)
        · omega
        · exact hlast (getLast?_of_ofGroups_eq_zero hvarint hzero)
    · rw [varint_cons hb hpos, List.cons_inj_right, ih]
      refine or_congr_left' fun hlast => iff_of_false (fun hlength => ?_) (by omega)
      -- A single group after the first one is not zero.
      obtain ⟨c, rfl⟩ := List.length_eq_one_iff.1 hlength
      rw [List.getLast?_singleton, not_not, Option.some_inj] at hlast
      subst hlast
      rw [ofGroups_singleton (by decide)] at hpos
      exact absurd hpos (by decide)

/-! ## Words -/

/-- The readers of both widths succeed on the varints that fit, fail for want of a byte where
    the bytes end early, and overflow otherwise. Where the narrow one succeeds, so does the wide
    one. The writer gives the shortest spelling, which is the one without a group of zeros after
    another group. -/
theorem varints_decide (r : Reader) :
    DecidesVarint 32 5 Primitive.varU32.read UInt32.toNat r ∧
      DecidesVarint 64 10 Primitive.varU64.read UInt64.toNat r ∧
      (∀ v r', Primitive.varU32.read r = .ok v r' →
        Primitive.varU64.read r = .ok (UInt32.toUInt64 v) r') ∧
      ∀ (bytes : Bytes) (v : UInt64), SpellsVarint (2 ^ 64) 10 bytes v.toNat →
        (Primitive.varU64.write v).length ≤ bytes.length ∧
          (Primitive.varU64.write v = bytes ↔
            bytes.length = 1 ∨ bytes.getLast? ≠ some 0) := by
  have hnarrow : DecidesVarint 32 5 Primitive.varU32.read UInt32.toNat r :=
    (decides_readVarint 32 r).map (fun v => UInt32.ofNat_toNat) fun n hn =>
      UInt32.toNat_ofNat_of_lt hn
  have hwide : DecidesVarint 64 10 Primitive.varU64.read UInt64.toNat r :=
    (decides_readVarint 64 r).map (fun v => UInt64.ofNat_toNat) fun n hn =>
      UInt64.toNat_ofNat_of_lt hn
  refine ⟨hnarrow, hwide, ?_, ?_⟩
  · intro v r' hread
    -- A spelling that is short enough for the narrow reader is so for the wide one.
    obtain ⟨bytes, tail, hrest, ⟨hvarint, hlength, hvalue, hlt⟩, hr'⟩ :=
      (hnarrow.ok_iff v r').1 hread
    refine (hwide.ok_iff _ r').2 ⟨bytes, tail, hrest, ⟨hvarint, by omega, ?_, ?_⟩, hr'⟩
    · rw [UInt32.toNat_toUInt64, hvalue]
    · exact UInt64.toNat_lt _
  · rintro bytes v ⟨hvarint, -, hvalue, -⟩
    rw [Primitive.write, ← hvalue]
    exact ⟨length_varint_le hvarint, varint_ofGroups_iff hvarint⟩

end Marshal.Wire
