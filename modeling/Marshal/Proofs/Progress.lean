import Marshal.Proofs.Stacks
import Mathlib.Algebra.GroupWithZero.Nat

/-!
# Every value takes a byte

A reading *takes* some of the bytes that are left if it goes forward by their number, and
what is asked of the value and of this number holds (`Takes`). What is read one after the
other takes the bytes together (`Takes.bind`).

No primitive takes no bytes: a varint has a first byte, a number of fixed width all of its
bytes, and whatever has a length starts with it, also if it is empty (`takes_primitive`,
`takes_frame`). This is what makes loops end: one that reads elements while there are bytes
left goes through at most as many rounds as there are bytes (`exists_rounds`), and bounding
its rounds by this number, as `readToEnd` does, changes nothing about it.
-/

namespace Marshal.Wire

variable {ε α β : Type}

theorem Reader.remaining_advance (r : Reader) (n : Nat) :
    (r.advance n).remaining = r.remaining - n := Nat.sub_add_eq _ _ _

/-! ## Taking bytes -/

/-- Where the reading succeeds, it goes forward by some of the bytes that are left, and `P`
    holds of the value and of their number. -/
def Takes (m : Reading ε α) (P : α → Nat → Prop) : Prop :=
  ∀ ⦃r a r'⦄, m r = .ok a r' → ∃ n ≤ r.remaining, r' = r.advance n ∧ P a n

namespace Takes

variable {m : Reading ε α} {P : α → Nat → Prop} {Q : β → Nat → Prop}

/-- What reads nothing takes no bytes. -/
theorem pure {a : α} (h : P a 0) : Takes (Pure.pure a : Reading ε α) P := by
  rintro r _ _ ⟨⟩
  exact ⟨0, Nat.zero_le _, rfl, h⟩

/-- What always fails takes anything, since it never succeeds. -/
theorem throw (e : ε) : Takes (MonadExcept.throw e : Reading ε α) P := by
  rintro _ _ _ ⟨⟩

/-- What is known of the bytes may be weakened. -/
theorem mono {P' : α → Nat → Prop} (hm : Takes m P) (h : ∀ a n, P a n → P' a n) :
    Takes m P' := by
  intro r a r' ha
  obtain ⟨n, hn, hr', hP⟩ := hm ha
  exact ⟨n, hn, hr', h a n hP⟩

/-- What is taken one after the other is taken together. -/
theorem bind {f : α → Reading ε β} (hm : Takes m P)
    (hf : ∀ a k, P a k → Takes (f a) fun b n => Q b (k + n)) : Takes (m >>= f) Q := by
  intro r b r' h
  obtain ⟨a, r₁, ha, hb⟩ := exists_of_bind_ok h
  obtain ⟨k, hk, rfl, hP⟩ := hm ha
  obtain ⟨n, hn, rfl, hQ⟩ := hf a k hP hb
  rw [Reader.remaining_advance] at hn
  exact ⟨k + n, by omega, r.advance_advance k n, hQ⟩

theorem map {f : α → β} (hm : Takes m P) (h : ∀ a n, P a n → Q (f a) n) : Takes (f <$> m) Q :=
  hm.bind fun a n hP => .pure (h a n hP)

/-- A reading may depend on the reader as a whole. -/
theorem ofReader (f : Reader → Reading ε α) (h : ∀ r, Takes (f r) P) : Takes (fun r => f r r) P :=
  fun r _ _ ha => h r ha

/-- Reading inside a frame takes nothing of what is around it. -/
theorem within (hm : Takes m P) (frame : Reader) :
    Takes (within frame m) fun a n => n = 0 ∧ ∃ k ≤ frame.remaining, P a k := by
  intro r a r' h
  rw [Wire.within] at h
  split at h <;> cases h
  rename_i ha
  obtain ⟨k, hk, -, hP⟩ := hm ha
  exact ⟨0, Nat.zero_le _, rfl, rfl, k, hk, hP⟩

/-- A reading goes forward by the bytes that it takes. -/
theorem index_eq (hm : Takes m P) {r r' : Reader} {a : α} (h : m r = .ok a r') :
    ∃ n, r'.index = r.index + n ∧ P a n := by
  obtain ⟨n, -, rfl, hP⟩ := hm h
  exact ⟨n, rfl, hP⟩

/-! ### Sequences -/

/-- To take a byte at least is to take more than nothing. -/
theorem sizeless (hm : Takes m fun _ n => 0 < n) : Takes m fun a n => (fun _ => 0) a < n := hm

variable {size : α → Nat}

/-- Elements that take more bytes than their size take a byte each beyond their sizes. -/
theorem readTimes (hm : Takes m fun a n => size a < n) (count : Nat) :
    Takes (readTimes m count) fun as n => as.length = count ∧ count + (as.map size).sum ≤ n := by
  induction count with
  | zero => exact .pure ⟨rfl, Nat.le_refl _⟩
  | succ count ih =>
    refine hm.bind fun a k hk => ih.map fun as n has => ⟨congrArg (· + 1) has.1, ?_⟩
    rw [List.map_cons, List.sum_cons]
    omega

/-- Elements that take more bytes than their sizes take, together, their number more. -/
theorem readBounded (hm : Takes m fun a n => size a < n) (bound : Nat) :
    Takes (readBounded m bound) fun as n => as.length + (as.map size).sum ≤ n := by
  induction bound with
  | zero => exact .pure (Nat.le_refl _)
  | succ bound ih =>
    refine .ofReader (fun r => if r.atEnd then Pure.pure [] else _) fun r => ?_
    split
    · exact .pure (Nat.le_refl _)
    · refine hm.bind fun a k hk => ih.map fun as n has => ?_
      rw [List.map_cons, List.sum_cons, List.length_cons]
      omega

/-- So do those that are read up to the end. -/
theorem readToEnd (hm : Takes m fun a n => size a < n) :
    Takes (readToEnd m) fun as n => as.length + (as.map size).sum ≤ n :=
  .ofReader (fun r => Wire.readBounded m r.remaining) fun r => hm.readBounded r.remaining

end Takes

/-! ## Readings of the wire -/

theorem takes_position : Takes (position : Reading ε Nat) fun _ n => n = 0 := by
  rintro r _ _ ⟨⟩
  exact ⟨0, Nat.zero_le _, rfl, rfl⟩

/-- A byte takes one byte. -/
theorem takes_byte : Takes readByte fun _ n => n = 1 := by
  intro r b r' h
  obtain ⟨hb, rfl⟩ := readByte_eq_ok.1 h
  have hlt := (List.getElem?_eq_some_iff.1 hb).1
  exact ⟨1, by rw [Reader.remaining]; omega, rfl, rfl⟩

/-- Some number of bytes takes as many. -/
theorem takes_raw (length : Nat) :
    Takes (readRaw length) fun b n => n = length ∧ b.length = length := by
  intro r b r' h
  obtain ⟨hle, rfl, rfl⟩ := readRaw_eq_ok.1 h
  rw [Reader.remaining_eq] at hle
  exact ⟨length, r.remaining_eq ▸ hle, rfl, rfl, List.length_take_of_le hle⟩

/-- A truth value takes a byte. -/
theorem takes_bool : Takes readBool fun _ n => 0 < n := by
  refine takes_position.bind fun start k hk => takes_byte.bind fun b n hn => ?_
  split
  · exact .pure (by omega)
  · split
    · exact .pure (by omega)
    · exact .throw _

/-- A varint has a first byte, whatever comes after it. -/
theorem takes_groups (start bits limit groups : Nat) :
    Takes (readGroups start bits limit groups) fun _ n => 0 < n := by
  induction groups with
  | zero => exact .throw _
  | succ groups ih =>
    refine takes_byte.bind fun b k hk => ?_
    split
    · exact .throw _
    · split
      · exact .pure (by omega)
      · exact ih.map fun _ n _ => by omega

/-- A varint takes at least one byte. -/
theorem takes_varint (bits : Nat) : Takes (readVarint bits) fun _ n => 0 < n :=
  takes_position.bind fun _ k hk => (takes_groups _ _ _ _).mono fun _ n hn => by omega

/-- A length is read if it is one that can be met. -/
theorem readLength_eq_ok {r r' : Reader} {length : Nat} :
    readLength r = .ok length r' ↔ readVarint 64 r = .ok length r' ∧ length ≤ r'.remaining := by
  -- The check comes after the number is read, where it is known what is left.
  have hcheck : ∀ {n r₁}, readVarint 64 r = .ok n r₁ → readLength r =
      (if n ≤ r₁.remaining then Pure.pure n
      else MonadExcept.throw (.lengthOutOfBounds r.index n r₁.remaining) : WireReading Nat) r₁ := by
    intro n r₁ hn
    change (readVarint 64 >>= _) r = _
    rw [bind_of_ok hn]
    rfl
  constructor
  · intro h
    refine ⟨?_, remaining_of_readLength h⟩
    obtain ⟨n, r₁, hn, -⟩ := exists_of_bind_ok (m := readVarint 64) h
    rw [hcheck hn] at h
    split at h <;> cases h
    exact hn
  · rintro ⟨hvarint, hle⟩
    rw [hcheck hvarint, if_pos hle]
    rfl

/-- A length takes at least one byte. -/
theorem takes_length : Takes readLength fun _ n => 0 < n := fun _ _ _ h =>
  takes_varint 64 (readLength_eq_ok.1 h).1

/-- A byte string takes more bytes than it has, those of its length. -/
theorem takes_bytes : Takes readBytes fun b n => b.length < n :=
  takes_length.bind fun length k hk => (takes_raw length).mono fun b n hn => by omega

/-- A primitive takes at least one byte, also where it is an empty text. -/
theorem takes_primitive (p : Primitive) : Takes p.read fun _ n => 0 < n := by
  cases p with
  | bool => exact takes_bool
  | varU32 | varU64 | varI32 | varI64 => exact (takes_varint _).map fun _ _ hn => hn
  | fixedU32 | fixedI32 | fixedU64 | fixedI64 | f32 | f64 =>
    exact ((takes_raw _).map fun _ n hn => by omega).map fun _ _ hn => hn
  | string =>
    refine takes_position.bind fun start k hk => takes_bytes.bind fun b n hn => ?_
    split
    · exact .pure (by omega)
    · exact .throw _
  | bytes => exact takes_bytes.mono fun _ n hn => by omega

/-- A frame is preceded by its length, also if it is empty. -/
theorem takes_frame : Takes readFrame fun frame n => frame.remaining < n :=
  takes_bytes.bind fun payload _ hk =>
    .ofReader (fun r => pure (Reader.mk payload 0 r.depth)) fun _ => .pure hk

/-- The frame of a message takes more bytes than there are in it. -/
theorem takes_messageFrame : Takes readMessageFrame fun frame n => frame.remaining < n := by
  refine .ofReader (fun r => if nestingLimit ≤ r.depth then throw _ else _) fun r => ?_
  split
  · exact .throw _
  · exact takes_frame.map fun _ _ hn => hn

/-- Going past a value takes at least one byte. -/
theorem takes_skip (k : Kind) : Takes (skip k) fun _ n => 0 < n := by
  cases k with
  | signedVarint | unsignedVarint => exact (takes_varint 64).map fun _ _ hn => hn
  | fixed32 | fixed64 => exact (takes_raw _).map fun _ n hn => by omega
  | bytes | nested => exact takes_bytes.map fun _ n hn => by omega

/-! ## Loops -/

/-- With `items` read already, reading elements for as long as there are bytes left comes to
    an end after `n` more rounds. A round that fails counts. -/
inductive Rounds (element : Reading ε α) :
    Nat → List α → Reader → EStateM.Result ε Reader (List α) → Prop
  | done {items : List α} {r : Reader} : r.atEnd = true → Rounds element 0 items r (.ok items r)
  | failed {items : List α} {r r' : Reader} {e : ε} : r.atEnd = false →
    element r = .error e r' → Rounds element 1 items r (.error e r')
  | next {n : Nat} {items : List α} {r r' : Reader} {a : α}
      {outcome : EStateM.Result ε Reader (List α)} : r.atEnd = false → element r = .ok a r' →
    Rounds element n (items ++ [a]) r' outcome → Rounds element (n + 1) items r outcome

section Loops

variable {element : Reading ε α}

/-- A loop has one number of rounds and one outcome, since each round is determined. -/
theorem Rounds.unique {n n' : Nat} {items : List α} {r : Reader}
    {outcome outcome' : EStateM.Result ε Reader (List α)} (h : Rounds element n items r outcome)
    (h' : Rounds element n' items r outcome') : n = n' ∧ outcome = outcome' := by
  -- By induction on the first loop. The reader tells how its next round goes, so the second loop
  -- goes the same way.
  induction h generalizing n' outcome' with
  | done hr =>
    cases h' with
    | done => exact ⟨rfl, rfl⟩
    | failed hr' | next hr' => cases hr.symm.trans hr'
  | failed hr he =>
    cases h' with
    | done hr' => cases hr.symm.trans hr'
    | failed _ he' =>
      cases he.symm.trans he'
      exact ⟨rfl, rfl⟩
    | next _ ha => cases he.symm.trans ha
  | next hr ha _ ih =>
    cases h' with
    | done hr' => cases hr.symm.trans hr'
    | failed _ he => cases ha.symm.trans he
    | next _ ha' hrounds =>
      cases ha.symm.trans ha'
      obtain ⟨rfl, rfl⟩ := ih hrounds
      exact ⟨rfl, rfl⟩

/-- At the end of the bytes there are no more rounds. -/
theorem readBounded_of_atEnd {r : Reader} (hr : r.atEnd = true) (bound : Nat) :
    readBounded element bound r = .ok [] r := by
  cases bound with
  | zero => rfl
  | succ bound =>
    change (if r.atEnd then _ else _ : Reading ε (List α)) r = _
    rw [hr]
    rfl

/-- Before the end there is another round. -/
theorem readBounded_succ (element : Reading ε α) {r : Reader} (hr : r.atEnd = false) (bound : Nat) :
    readBounded element (bound + 1) r =
      (element >>= fun a => (a :: ·) <$> readBounded element bound) r := by
  change (if r.atEnd then _ else _ : Reading ε (List α)) r = _
  rw [hr]
  rfl

/-- If elements take a byte at least, the loop ends before it has gone through as many rounds
    as there are bytes, and a bound of that many rounds is never felt. -/
theorem rounds_readBounded (h : Takes element fun _ n => 0 < n) {bound : Nat} (items : List α)
    {r : Reader} (hbound : r.remaining ≤ bound) : ∃ n ≤ r.remaining,
      Rounds element n items r (((items ++ ·) <$> readBounded element bound) r) := by
  induction bound generalizing items r with
  | zero =>
    have hr : r.atEnd = true := decide_eq_true (Nat.le_zero.1 hbound)
    refine ⟨0, Nat.zero_le _, ?_⟩
    rw [map_of_ok (readBounded_of_atEnd hr 0), List.append_nil]
    exact .done hr
  | succ bound ih =>
    by_cases hr : r.atEnd = true
    · refine ⟨0, Nat.zero_le _, ?_⟩
      rw [map_of_ok (readBounded_of_atEnd hr _), List.append_nil]
      exact .done hr
    rw [Bool.not_eq_true] at hr
    have hpos : 0 < r.remaining := Nat.pos_of_ne_zero (of_decide_eq_false hr)
    have hstep := readBounded_succ element hr bound
    cases ha : element r with
    | error e r' =>
      rw [bind_of_error ha] at hstep
      refine ⟨1, hpos, ?_⟩
      rw [map_of_error hstep]
      exact .failed hr ha
    | ok a r' =>
      -- The element has taken some of the bytes, so there are fewer rounds to go.
      obtain ⟨k, hk, rfl, hlt⟩ := h ha
      have hleft := r.remaining_advance k
      obtain ⟨n, hn, hrounds⟩ := ih (items ++ [a]) (r := r.advance k) (by omega)
      refine ⟨n + 1, by omega, .next hr ha ?_⟩
      rw [bind_of_ok ha] at hstep
      cases hrest : readBounded element bound (r.advance k) with
      | ok as r'' =>
        rw [map_of_ok hrest] at hstep hrounds
        rw [map_of_ok hstep, List.append_cons items a as]
        exact hrounds
      | error e r'' =>
        rw [map_of_error hrest] at hstep hrounds
        rw [map_of_error hstep]
        exact hrounds

/-- However the loop ends, this is what is read. -/
theorem exists_rounds (h : Takes element fun _ n => 0 < n) (r : Reader) :
    ∃ n ≤ r.remaining, Rounds element n [] r (readToEnd element r) := by
  obtain ⟨n, hn, hrounds⟩ := rounds_readBounded h [] (Nat.le_refl r.remaining)
  refine ⟨n, hn, ?_⟩
  rw [readToEnd]
  cases hread : readBounded element r.remaining r with
  | ok as r' =>
    rw [map_of_ok hread] at hrounds
    exact hrounds
  | error e r' =>
    rw [map_of_error hread] at hrounds
    exact hrounds

end Loops

end Marshal.Wire
