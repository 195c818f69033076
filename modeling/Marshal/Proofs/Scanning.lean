import Marshal.Proofs.Tracking
import Marshal.Value.Decode

/-!
# Going through the bytes

A reading *scans* the bytes if, wherever it succeeds, it has gone forward in the
same byte string, at the same depth and not past the end, and does the same when
more bytes come after those that there are (`Scans`). What it reads does then not
depend on where the bytes end, as long as they do not end too early.

All readings of the wire scan (`scans_primitive`, `scans_skip`), and so does the
reading of a field (`scans_shape`). The reading of a message does not: it asks
whether the bytes are at their end, to know how many fields there are.
-/

namespace Marshal.Wire

variable {ε α β : Type}

namespace Reader

/-- The second reader is at the same place as the first one or after it. -/
structure Precedes (r r' : Reader) : Prop where
  data : r'.data = r.data
  depth : r'.depth = r.depth
  le : r.index ≤ r'.index
  /-- The end of the bytes is not passed. -/
  within : r.index ≤ r.data.length → r'.index ≤ r.data.length

/-- The reader at the same place, with more bytes after those that there are. -/
def append (r : Reader) (tail : Bytes) : Reader := { r with data := r.data ++ tail }

theorem Precedes.refl (r : Reader) : r.Precedes r := ⟨rfl, rfl, Nat.le_refl _, id⟩

/-- Places in the same byte string are ordered. -/
theorem Precedes.trans {r r' r'' : Reader} (h : r.Precedes r') (h' : r'.Precedes r'') :
    r.Precedes r'' where
  data := h'.data.trans h.data
  depth := h'.depth.trans h.depth
  le := Nat.le_trans h.le h'.le
  within hr := h.data ▸ h'.within (h.data.symm ▸ h.within hr)

/-- Going forward by no more than what is left does not pass the end. -/
theorem precedes_advance {r : Reader} {n : Nat} (hn : n ≤ r.remaining) :
    r.Precedes (r.advance n) where
  data := rfl
  depth := rfl
  le := Nat.le_add_right _ _
  within hr := by
    rw [remaining] at hn
    change r.index + n ≤ r.data.length
    omega

/-- With more bytes after those that there are, no less is left. -/
theorem remaining_append (r : Reader) (tail : Bytes) : r.remaining ≤ (r.append tail).remaining := by
  change r.data.length - r.index ≤ (r.data ++ tail).length - r.index
  rw [List.length_append]
  omega

/-- A reader that is not at the end is not at the end of more bytes either. -/
theorem atEnd_append {r : Reader} (hr : r.atEnd = false) (tail : Bytes) :
    (r.append tail).atEnd = false := by
  have hle := r.remaining_append tail
  simp only [atEnd, decide_eq_false_iff_not] at hr ⊢
  omega

/-- More bytes come after those that are still to be read. -/
theorem rest_append {r : Reader} (hr : r.index ≤ r.data.length) (tail : Bytes) :
    (r.append tail).rest = r.rest ++ tail := by
  rw [rest, rest, append, List.drop_append_of_le_length hr]

end Reader

/-- Where the reading succeeds, it goes forward, and it does the same with more bytes
    after those that there are. -/
structure Scans (m : Reading ε α) : Prop where
  precedes : ∀ {r a r'}, m r = .ok a r' → r.Precedes r'
  append : ∀ {r a r'}, m r = .ok a r' → ∀ tail, m (r.append tail) = .ok a (r'.append tail)

namespace Scans

variable {m : Reading ε α}

/-- What reads nothing scans. -/
theorem pure (a : α) : Scans (Pure.pure a : Reading ε α) where
  precedes := by
    rintro r _ _ ⟨⟩
    exact .refl r
  append := by
    rintro r _ _ ⟨⟩ tail
    rfl

/-- What always fails scans, since it never succeeds. -/
theorem throw (e : ε) : Scans (MonadExcept.throw e : Reading ε α) where
  precedes h := by cases h
  append h := by cases h

/-- Readings that scan do so one after the other. -/
theorem bind {f : α → Reading ε β} (hm : Scans m) (hf : ∀ a, Scans (f a)) : Scans (m >>= f) where
  precedes h := by
    obtain ⟨a, r₁, ha, hb⟩ := exists_of_bind_ok h
    exact (hm.precedes ha).trans ((hf a).precedes hb)
  append h tail := by
    obtain ⟨a, r₁, ha, hb⟩ := exists_of_bind_ok h
    rw [bind_of_ok (hm.append ha tail)]
    exact (hf a).append hb tail

theorem map {f : α → β} (hm : Scans m) : Scans (f <$> m) := hm.bind fun _ => .pure _

/-- A reading may depend on the reader, as far as this stays the same with more bytes
    after those that there are. -/
theorem ofReader (f : Reader → Reading ε α) (happend : ∀ r tail, f (r.append tail) = f r)
    (hf : ∀ r, Scans (f r)) : Scans (fun r => f r r) where
  precedes h := (hf _).precedes h
  append {r a r'} h tail := by
    rw [happend]
    exact (hf r).append h tail

/-- Asking for the place scans: it is the same with more bytes after those that there are. -/
theorem position : Scans (position : Reading ε Nat) :=
  ofReader (fun r => Pure.pure r.index) (fun _ _ => rfl) fun _ => .pure _

/-- Whatever is read inside a frame, the reader around it stays where it is. -/
theorem within (frame : Reader) (m : Reading ε α) : Scans (within frame m) where
  precedes {r a r'} h := by
    rw [Wire.within] at h
    split at h <;> cases h
    exact .refl r
  append {r a r'} h tail := by
    rw [Wire.within] at h ⊢
    split at h <;> cases h
    rfl

/-- Reading a fixed number of times scans if reading once does. -/
theorem readTimes (hm : Scans m) (count : Nat) : Scans (readTimes m count) := by
  induction count with
  | zero => exact .pure []
  | succ count ih => exact hm.bind fun _ => ih.map

end Scans

/-! ## Readings of the wire -/

/-- A byte is read if there is one at the place of the reader. -/
theorem readByte_eq_ok {r r' : Reader} {b : UInt8} :
    readByte r = .ok b r' ↔ r.data[r.index]? = some b ∧ r.advance 1 = r' := by
  rw [readByte]
  split <;> rename_i hb <;> simp [hb, Reader.advance]

/-- Some number of bytes is read if that many are left. -/
theorem readRaw_eq_ok {r r' : Reader} {length : Nat} {b : Bytes} :
    readRaw length r = .ok b r' ↔
      length ≤ r.remaining ∧ r.rest.take length = b ∧ r.advance length = r' := by
  rw [readRaw]
  split <;> rename_i hle <;> simp [hle, Reader.advance]

/-- A byte that is there is the same byte with more bytes after it. -/
theorem scans_byte : Scans readByte where
  precedes h := by
    obtain ⟨hb, rfl⟩ := readByte_eq_ok.1 h
    have hlt := (List.getElem?_eq_some_iff.1 hb).1
    exact Reader.precedes_advance (by rw [Reader.remaining]; omega)
  append h tail := by
    obtain ⟨hb, rfl⟩ := readByte_eq_ok.1 h
    have hlt := (List.getElem?_eq_some_iff.1 hb).1
    exact readByte_eq_ok.2 ⟨(List.getElem?_append_left hlt).trans hb, rfl⟩

/-- Some number of bytes is the same with more bytes after them. -/
theorem scans_raw (length : Nat) : Scans (readRaw length) where
  precedes h := by
    obtain ⟨hle, -, rfl⟩ := readRaw_eq_ok.1 h
    exact Reader.precedes_advance hle
  append {r b r'} h tail := by
    obtain ⟨hle, rfl, rfl⟩ := readRaw_eq_ok.1 h
    refine readRaw_eq_ok.2 ⟨Nat.le_trans hle (r.remaining_append tail), ?_, rfl⟩
    by_cases hr : r.index ≤ r.data.length
    · rw [Reader.rest_append hr, List.take_append_of_le_length]
      rwa [← Reader.remaining_eq]
    · -- Past the end of the bytes, nothing but no bytes at all can be read.
      rw [Reader.remaining] at hle
      rw [show length = 0 by omega, List.take_zero, List.take_zero]

/-- A truth value is read from one byte, which may be no truth value. -/
theorem scans_bool : Scans readBool := by
  -- The byte may be a zero, a one, or anything else.
  refine Scans.position.bind fun start => scans_byte.bind fun b => ?_
  split
  · exact .pure _
  · split
    · exact .pure _
    · exact .throw _

/-- A varint is read group by group, until a byte ends it or there are too many. -/
theorem scans_groups (start bits limit groups : Nat) :
    Scans (readGroups start bits limit groups) := by
  induction groups with
  | zero => exact .throw _
  | succ groups ih =>
    refine scans_byte.bind fun b => ?_
    split
    · exact .throw _
    · split
      · exact .pure _
      · exact ih.map

theorem scans_varint (bits : Nat) : Scans (readVarint bits) :=
  Scans.position.bind fun _ => scans_groups _ _ _ _

/-- A length that is no more than what is left is none with more bytes either. -/
theorem scans_length : Scans readLength := by
  refine Scans.position.bind fun start => (scans_varint 64).bind fun length => ?_
  constructor
  · intro r a r' h
    change (if length ≤ r.remaining then _ else _ : WireReading Nat) r = _ at h
    split at h <;> cases h
    exact .refl r
  · intro r a r' h tail
    change (if length ≤ r.remaining then _ else _ : WireReading Nat) r = _ at h
    change (if length ≤ (r.append tail).remaining then _ else _ : WireReading Nat) _ = _
    split at h
    · rename_i hle
      cases h
      rw [if_pos (Nat.le_trans hle (r.remaining_append tail))]
      rfl
    · cases h

theorem scans_bytes : Scans readBytes := scans_length.bind scans_raw

/-- All primitives scan. -/
theorem scans_primitive (p : Primitive) : Scans p.read := by
  cases p with
  | bool => exact scans_bool
  | varU32 | varU64 | varI32 | varI64 => exact (scans_varint _).map
  -- Numbers of a fixed width are so many bytes, which are put together.
  | fixedU32 | fixedI32 | fixedU64 | fixedI64 | f32 | f64 => exact (scans_raw _).map.map
  | string =>
    -- The bytes may be no text.
    refine Scans.position.bind fun start => scans_bytes.bind fun b => ?_
    split
    · exact .pure _
    · exact .throw _
  | bytes => exact scans_bytes

/-- A frame starts at the depth of the reader, whatever bytes come after it. -/
theorem scans_frame : Scans readFrame :=
  scans_bytes.bind fun payload =>
    .ofReader (fun r => pure (Reader.mk payload 0 r.depth)) (fun _ _ => rfl) fun _ => .pure _

/-- The frame of a message is read, unless there are as many around it as the limit allows. -/
theorem scans_messageFrame : Scans readMessageFrame := by
  refine .ofReader (fun r => if nestingLimit ≤ r.depth then throw _ else _) (fun _ _ => rfl)
    fun r => ?_
  split
  · exact .throw _
  · exact scans_frame.map

/-- Going past a value scans. -/
theorem scans_skip (k : Kind) : Scans (skip k) := by
  cases k with
  | signedVarint | unsignedVarint => exact (scans_varint 64).map
  | fixed32 | fixed64 => exact (scans_raw _).map
  | bytes | nested => exact scans_bytes.map

end Marshal.Wire

namespace Marshal

open Wire Value

variable {α : Type}

/-! ## Fields -/

/-- Going past a field scans. -/
theorem Shape.scans_skip (shape : Shape) : Scans shape.skip := by
  cases shape with
  | single v => exact Wire.scans_skip v.kind
  | optional v =>
    refine scans_bool.bind fun present => ?_
    cases present with
    | false => exact .pure ()
    | true => exact Wire.scans_skip v.kind
  | repeated v e =>
    cases e with
    -- As many values as were counted are gone past, or one byte string that holds them.
    | elements =>
      exact scans_length.bind fun count => ((Wire.scans_skip v.kind).readTimes count).map
    | bytes => exact Wire.scans_skip .bytes
  | map k v e =>
    cases e with
    | elements =>
      have hentry := (Wire.scans_skip k.kind).bind fun _ => Wire.scans_skip v.kind
      exact scans_length.bind fun count => (hentry.readTimes count).map
    | bytes => exact Wire.scans_skip .bytes

namespace Value

/-- A reading of the wire scans also with its errors among those of values. -/
theorem scans_onWire {m : WireReading α} (hm : Scans m) : Scans (onWire m) where
  precedes {r a r'} h := by
    rw [onWire] at h
    split at h <;> cases h
    exact hm.precedes ‹_›
  append {r a r'} h tail := by
    rw [onWire] at h ⊢
    split at h <;> cases h
    rename_i ha
    rw [hm.append ha tail]

/-- What is known before scans. -/
theorem scans_given (x : Except Error α) : Scans (given x) := by
  cases x with
  | ok a => exact .pure a
  | error e => exact .throw e

/-- Objects stand in frames of their own, so it does not matter how they are read. -/
theorem scans_value (object : CompiledSchema → MessagePlan → Decoding Value) (s : CompiledSchema)
    (v : ValueStep) : Scans (decodeBy object s v) := by
  cases v with
  | scalar p => exact (scans_onWire (scans_primitive p)).map
  | enum id => exact (scans_onWire (scans_primitive .ofEnum)).map
  | nested id =>
    exact (scans_given _).bind fun found =>
      (scans_onWire scans_messageFrame).bind fun frame => .within frame _

/-- Sequences scan, in a frame of their own whatever their elements do. -/
theorem scans_sequence {element : Decoding α} (h : Scans element) (e : Extent) :
    Scans (decodeSequence element e) := by
  cases e with
  | elements => exact (scans_onWire scans_length).bind fun count => h.readTimes count
  | bytes => exact (scans_onWire scans_frame).bind fun frame => .within frame _

/-- Fields scan if the values in them do. -/
theorem scans_shape {value : ValueStep → Decoding Value} (h : ∀ v, Scans (value v))
    (shape : Shape) : Scans (decodeShape value shape) := by
  cases shape with
  | single v => exact (h v).map
  | optional v =>
    refine (scans_onWire scans_bool).bind fun present => ?_
    cases present with
    | false => exact .pure none
    | true => exact (h v).map
  | repeated v e => exact (scans_sequence (h v) e).map
  | map k v e => exact (scans_sequence ((h k).bind fun _ => (h v).map) e).map

/-- Reads what there is for a step where the bytes have not ended. -/
def stepReading (value : ValueStep → Decoding Value) (step : Step) : Decoding (Option Value) :=
  if step.deprecated then do
    onWire step.shape.skip
    return none
  else decodeShape value step.shape

/-- Where the bytes have not ended, reading a step is what its layout says. -/
theorem decodeStepBy_of_not_atEnd {value : ValueStep → Decoding Value} {s : CompiledSchema}
    {step : Step} {r : Reader} (hr : r.atEnd = false) :
    decodeStepBy value s step r = stepReading value step r := by
  change (if r.atEnd then _ else _ : Decoding (Option Value)) r = _
  rw [hr]
  rfl

/-- Where there are bytes left, a step is read or skipped without asking for their end. -/
theorem scans_step {value : ValueStep → Decoding Value} (h : ∀ v, Scans (value v))
    {s : CompiledSchema} {step : Step} {r r' : Reader} {w : Option Value} (hr : r.atEnd = false)
    (hw : decodeStepBy value s step r = .ok w r') :
    r.Precedes r' ∧
      ∀ tail, decodeStepBy value s step (r.append tail) = .ok w (r'.append tail) := by
  -- A deprecated step is gone past, any other is read.
  have hscans : Scans (stepReading value step) := by
    rw [stepReading]
    split
    · exact (scans_onWire step.shape.scans_skip).bind fun _ => .pure none
    · exact scans_shape h step.shape
  rw [decodeStepBy_of_not_atEnd hr] at hw
  refine ⟨hscans.precedes hw, fun tail => ?_⟩
  rw [decodeStepBy_of_not_atEnd (Reader.atEnd_append hr tail)]
  exact hscans.append hw tail

end Value

end Marshal
