import Marshal.Proofs.Extension
import Marshal.Proofs.Progress

/-!
# Sequences are bounded by their bytes

A value takes more bytes than there are elements in all its arrays and maps together
(`takes_value`). The bytes of an object are those of its fields, and its length comes in
addition to them, so that also a message without fields takes a byte as an element of an
array. Only defaults are made of no bytes, and these have no elements
(`elements_defaultWithin`).

What follows for the sequences themselves is put together in `BytesBound`: the loop over a
frame ends after at most as many rounds as there are bytes, no sequence has more elements
than bytes, and a count that is larger than the number of bytes left could not be met, so
that checking it refuses nothing that can be read (`decodeUnchecked_eq_ok_iff`). By
`decodeStep_eq` the steps of a schema read just these sequences.
-/

namespace Marshal

open Wire

/-- Going past a field takes at least one byte. -/
theorem Shape.takes_skip (shape : Shape) : Takes shape.skip fun _ n => 0 < n := by
  -- The count itself takes a byte, whatever comes after it.
  have hcounted : ∀ {m : WireReading Unit}, Takes m (fun _ n => 0 < n) →
      Takes (do let count ← readLength; discard (readTimes m count)) fun _ n => 0 < n := by
    intro m hm
    exact takes_length.bind fun count k hk =>
      (hm.sizeless.readTimes count).map fun _ n _ => by omega
  cases shape with
  | single v => exact Wire.takes_skip v.kind
  | optional v =>
    refine takes_bool.bind fun present k hk => ?_
    cases present with
    | false => exact .pure hk
    | true => exact (Wire.takes_skip v.kind).mono fun _ n _ => by omega
  | repeated v e =>
    cases e with
    | elements => exact hcounted (Wire.takes_skip v.kind)
    | bytes => exact Wire.takes_skip .bytes
  | map k v e =>
    cases e with
    | elements =>
      exact hcounted ((Wire.takes_skip k.kind).bind fun _ i hi =>
        (Wire.takes_skip v.kind).mono fun _ n _ => by omega)
    | bytes => exact Wire.takes_skip .bytes

/-! ## Elements -/

namespace Value

mutual

/-- The number of elements of all arrays and maps in a value, whatever they stand in. -/
def elements : Value → Nat
  | .array items => items.length + elementsOfItems items
  | .map entries => entries.length + elementsOfEntries entries
  | .object _ fields => elementsOfFields fields
  | _ => 0

/-- The number of elements in the elements of an array. -/
def elementsOfItems : List Value → Nat
  | [] => 0
  | v :: rest => v.elements + elementsOfItems rest

/-- The number of elements in the keys and values of a map. -/
def elementsOfEntries : List (Value × Value) → Nat
  | [] => 0
  | (k, v) :: rest => k.elements + v.elements + elementsOfEntries rest

/-- The number of elements in the fields of an object. -/
def elementsOfFields : List (String × Value) → Nat
  | [] => 0
  | (_, v) :: rest => v.elements + elementsOfFields rest

end

theorem elementsOfItems_eq (items : List Value) :
    elementsOfItems items = (items.map elements).sum := by
  induction items with
  | nil => rfl
  | cons v items ih => rw [elementsOfItems, ih, List.map_cons, List.sum_cons]

theorem elementsOfEntries_eq (entries : List (Value × Value)) :
    elementsOfEntries entries = (entries.map fun e => e.1.elements + e.2.elements).sum := by
  induction entries with
  | nil => rfl
  | cons e entries ih => rw [elementsOfEntries, ih, List.map_cons, List.sum_cons]

/-- There are no elements in a value of a primitive. -/
theorem elements_toValue (p : Primitive) (x : p.Carrier) : (p.toValue x).elements = 0 := by
  cases p <;> rfl

/-- The elements of fields are those of each field. -/
theorem elementsOfFields_put (step : Step) (w : Option Value) (fields : List (String × Value)) :
    elementsOfFields (step.put w fields) = w.elim 0 elements + elementsOfFields fields := by
  cases w with
  | none => exact (Nat.zero_add _).symm
  | some w => rfl

/-- Putting a field in order adds no more elements than it has. It may take the place of another. -/
theorem elementsOfFields_insert_le (f : String) (v : Value) (fields : List (String × Value)) :
    elementsOfFields (Ascending.insert f v fields) ≤ v.elements + elementsOfFields fields := by
  induction fields with
  | nil => exact Nat.le_refl _
  | cons p fields ih =>
    rw [Ascending.insert]
    split
    · rw [elementsOfFields, elementsOfFields]
      omega
    · split
      · exact Nat.le_refl _
      · rw [elementsOfFields, elementsOfFields]
        omega

/-- Putting fields in order adds no elements. -/
theorem elementsOfFields_insertAll_le (pairs fields : List (String × Value)) :
    elementsOfFields (Ascending.insertAll pairs fields) ≤
      elementsOfFields pairs + elementsOfFields fields := by
  induction pairs generalizing fields with
  | nil => exact Nat.le_add_left _ _
  | cons p pairs ih =>
    have hrest := ih (Ascending.insert p.1 p.2 fields)
    have hfirst := elementsOfFields_insert_le p.1 p.2 fields
    change elementsOfFields (Ascending.insertAll pairs (Ascending.insert p.1 p.2 fields)) ≤ _
    rw [elementsOfFields]
    omega

/-- Fields that replace others leave no more elements than there were. -/
theorem elements_record_le (name : String) (fields : List (String × Value)) :
    (record name fields).elements ≤ elementsOfFields fields :=
  elementsOfFields_insertAll_le fields []

/-! ### Defaults -/

section Defaults

variable {value : ValueStep → Except Error Value}

/-- What stands in for a missing field has no elements if what stands in for a value has none. -/
theorem elements_default? (h : ∀ v w, value v = .ok w → w.elements = 0) {shape : Shape}
    {w : Option Value} (hw : shape.default? value = .ok w) : w.elim 0 elements = 0 := by
  cases shape with
  | single v =>
    obtain ⟨w, hv, rfl⟩ := map_eq_ok.1 hw
    exact h v w hv
  | optional v | repeated v e | map k v e =>
    cases hw
    rfl

/-- The fields of an object that has none of its own have no elements. -/
theorem elementsOfFields_defaultFields (h : ∀ v w, value v = .ok w → w.elements = 0)
    {steps : List Step} {fields : List (String × Value)}
    (hfields : defaultFields value steps = .ok fields) : elementsOfFields fields = 0 := by
  induction steps generalizing fields with
  | nil =>
    cases hfields
    rfl
  | cons step steps ih =>
    rw [defaultFields] at hfields
    split at hfields
    · exact ih hfields
    · obtain ⟨w, hw, hfields⟩ := bind_eq_ok.1 hfields
      obtain ⟨rest, hrest, hfields⟩ := bind_eq_ok.1 hfields
      have hput : fields = step.put w rest := (Except.ok.inj hfields).symm
      rw [hput, elementsOfFields_put, elements_default? h hw, ih hrest]

/-- An object that has no fields of its own has no elements. -/
theorem elements_record_defaultFields (h : ∀ v w, value v = .ok w → w.elements = 0)
    {steps : List Step} {name : String} {w : Value}
    (hw : record name <$> defaultFields value steps = .ok w) : w.elements = 0 := by
  obtain ⟨fields, hfields, rfl⟩ := map_eq_ok.1 hw
  have hle := elements_record_le name fields
  rw [elementsOfFields_defaultFields h hfields] at hle
  exact Nat.le_zero.1 hle

end Defaults

/-- What stands in for a missing value has no elements if this holds in imports. -/
theorem elements_defaultBy {s : CompiledSchema}
    {imports : List (ValueStep → Except Error Value)}
    (himports : ∀ value ∈ imports, ∀ v w, value v = .ok w → w.elements = 0) (fuel : Nat)
    (v : ValueStep) {w : Value} (hw : s.defaultBy imports fuel v = .ok w) : w.elements = 0 := by
  induction fuel using Nat.strongRecOn generalizing v w with
  | ind fuel ih =>
    revert hw
    -- Messages of the schema have fewer steps left for their fields, and those of imports are
    -- assumed.
    fun_cases CompiledSchema.defaultBy s imports fuel v with
    | case1 fuel p =>
      rintro ⟨⟩
      exact elements_toValue p p.zero
    | case2 fuel id =>
      rintro ⟨⟩
      rfl
    | case4 fuel index plan hplan =>
      exact elements_record_defaultFields fun v _ => ih fuel (Nat.lt_succ_self _) v
    | case6 fuel i index owner plan value hvalue =>
      exact elements_record_defaultFields (himports value (List.mem_of_getElem? hvalue))
    | _ => rintro ⟨⟩

/-- What stands in for a missing value has no elements. -/
theorem elements_defaultWithin (s : CompiledSchema) :
    ∀ (fuel : Nat) (v : ValueStep) {w : Value}, s.defaultWithin fuel v = .ok w →
      w.elements = 0 := by
  induction s using CompiledSchema.induction_imports with
  | h s ih =>
    rw [CompiledSchema.defaultWithin_eq]
    refine fun fuel v w => elements_defaultBy (fun value hvalue v w => ?_) fuel v
    obtain ⟨c, hc, rfl⟩ := List.mem_map.1 hvalue
    exact ih c hc _ v

/-! ## Values -/

section Values

variable {α : Type} {P : α → Nat → Prop}

theorem onWire_eq_ok {m : WireReading α} {r r' : Reader} {a : α} :
    onWire m r = .ok a r' ↔ m r = .ok a r' := by
  rw [onWire]
  split <;> simp_all

/-- Readings of the wire take the same bytes as readings of values. -/
theorem takes_onWire {m : WireReading α} (hm : Takes m P) : Takes (onWire m) P :=
  fun _ _ _ h => hm (onWire_eq_ok.1 h)

/-- What is known before takes no bytes. -/
theorem takes_given {x : Except Error α} (h : ∀ a, x = .ok a → P a 0) : Takes (given x) P := by
  cases x with
  | ok a => exact .pure (h a rfl)
  | error e => exact .throw e

/-- Values take more bytes than they have elements, if objects take as many at least. -/
theorem takes_value {object : CompiledSchema → MessagePlan → Decoding Value}
    (h : ∀ s p, Takes (object s p) fun w n => w.elements ≤ n) (s : CompiledSchema)
    (v : ValueStep) : Takes (decodeBy object s v) fun w n => w.elements < n := by
  cases v with
  | scalar p =>
    refine (takes_onWire (takes_primitive p)).map fun x n hn => ?_
    rw [elements_toValue]
    exact hn
  | enum id => exact (takes_onWire (takes_primitive .ofEnum)).map fun _ _ hn => hn
  | nested id =>
    -- The length of the object comes in addition to its own bytes.
    have hgiven : Takes (given (s.find id)) fun _ n => n = 0 := takes_given fun _ _ => rfl
    refine hgiven.bind fun found k hk => ?_
    refine (takes_onWire takes_messageFrame).bind fun frame l hl => ?_
    refine ((h found.1 found.2).within frame).mono fun w n hw => ?_
    obtain ⟨rfl, j, hj, hw⟩ := hw
    omega

/-- Sequences of elements that take more bytes than their size take a byte for every element
    beyond their sizes, and one more. -/
theorem takes_sequence {size : α → Nat} {element : Decoding α}
    (h : Takes element fun a n => size a < n) (e : Extent) :
    Takes (decodeSequence element e) fun as n => as.length + (as.map size).sum < n := by
  cases e with
  | elements =>
    refine (takes_onWire takes_length).bind fun count k hk => (h.readTimes count).mono ?_
    rintro as n ⟨rfl, hn⟩
    omega
  | bytes =>
    refine (takes_onWire takes_frame).bind fun frame k hk => (h.readToEnd.within frame).mono ?_
    rintro as n ⟨rfl, l, hl, has⟩
    omega

/-- Reads a key and a value of a map. -/
def decodeEntry (value : ValueStep → Decoding Value) (k v : ValueStep) : Decoding (Value × Value) :=
  do return (← value k, ← value v)

/-- An entry takes more bytes than there are elements in its key and its value. -/
theorem takes_entry {value : ValueStep → Decoding Value}
    (h : ∀ v, Takes (value v) fun w n => w.elements < n) (k v : ValueStep) :
    Takes (decodeEntry value k v) fun e n => e.1.elements + e.2.elements < n :=
  (h k).bind fun x i hx => (h v).map fun y j hy => by
    dsimp only
    omega

/-- A field takes more bytes than it has elements. -/
theorem takes_shape {value : ValueStep → Decoding Value}
    (h : ∀ v, Takes (value v) fun w n => w.elements < n) (shape : Shape) :
    Takes (decodeShape value shape) fun w n => w.elim 0 elements < n := by
  cases shape with
  | single v => exact (h v).map fun _ _ hw => hw
  | optional v =>
    refine (takes_onWire takes_bool).bind fun present k hk => ?_
    cases present with
    | false => exact .pure hk
    | true => exact (h v).map fun w n hw => Nat.lt_add_left k hw
  | repeated v e =>
    refine (takes_sequence (h v) e).map fun items n hn => ?_
    rw [Option.elim_some, elements, elementsOfItems_eq]
    exact hn
  | map k v e =>
    refine (takes_sequence (takes_entry h k v) e).map fun entries n hn => ?_
    rw [Option.elim_some, elements, elementsOfEntries_eq]
    exact hn

/-- A step takes as many bytes as there are elements at least, of which there are none if its
    default stands in. -/
theorem takes_step {value : ValueStep → Decoding Value}
    (h : ∀ v, Takes (value v) fun w n => w.elements < n) (s : CompiledSchema) (step : Step) :
    Takes (decodeStepBy value s step) fun w n => w.elim 0 elements ≤ n := by
  have hdefault : ∀ w, s.defaultStep step = .ok w → w.elim 0 elements ≤ 0 := fun w hw =>
    Nat.le_of_eq (elements_default? (fun v _ => elements_defaultWithin s _ v) hw)
  refine .ofReader (fun r => if r.atEnd then _ else _) fun r => ?_
  split
  · split
    · exact .pure (Nat.le_refl _)
    · exact takes_given hdefault
  · split
    · exact (takes_onWire step.shape.takes_skip).bind fun _ _ _ => .pure (Nat.zero_le _)
    · exact (takes_shape h step.shape).mono fun _ _ hw => Nat.le_of_lt hw

/-- Fields take at least as many bytes as they have elements. Where the bytes have ended they take
    none, and have none. -/
theorem takes_fields {value : ValueStep → Decoding Value}
    (h : ∀ v, Takes (value v) fun w n => w.elements < n) (s : CompiledSchema)
    (steps : List Step) :
    Takes (decodeFieldsBy value s steps) fun fields n => elementsOfFields fields ≤ n := by
  induction steps with
  | nil => exact .pure (Nat.le_refl _)
  | cons step steps ih =>
    rw [decodeFieldsBy_cons]
    refine (takes_step h s step).bind fun w k hw => ih.map fun fields n hfields => ?_
    rw [elementsOfFields_put]
    omega

/-- Objects take as many bytes at least as there are elements in them, on every level. -/
theorem takes_object (levels : Nat) (s : CompiledSchema) (p : MessagePlan) :
    Takes (decodeObject levels s p) fun w n => w.elements ≤ n := by
  induction levels generalizing s p with
  | zero =>
    rintro _ _ _ ⟨⟩
  | succ levels ih =>
    refine (takes_fields (takes_value ih s) s p.steps).map fun fields n hn => ?_
    exact Nat.le_trans (elements_record_le p.name fields) hn

/-- A value at any depth takes more bytes than it has elements. -/
theorem takes_decodeValue (s : CompiledSchema) (v : ValueStep) :
    Takes (decodeValue s v) fun w n => w.elements < n :=
  .ofReader (fun r => decodeBy (decodeObject (nestingLimit - r.depth)) s v) fun _ =>
    takes_value (takes_object _) s v

end Values

/-! ## Sequences -/

section Sequences

variable {α : Type} {element : Decoding α}

/-- What came of reading inside a frame, with the reader around it. -/
def leave (outer : Reader) : EStateM.Result Error Reader α → EStateM.Result Error Reader α
  | .ok a _ => .ok a outer
  | .error e _ => .error e outer

/-- Reads elements after their number, whatever it is. -/
def decodeUnchecked (element : Decoding α) : Decoding (List α) := do
  let count ← onWire (readVarint 64)
  readTimes element count

/-- What holds of the sequences of an element because it takes a byte at least. -/
structure BytesBound (element : Decoding α) : Prop where
  /-- The loop over a frame ends. However it does, there were at most as many rounds as bytes
      in the frame, and this is what is read. -/
  rounds : ∀ {r frame r' : Reader}, readFrame r = .ok frame r' →
    (∃ n outcome, Rounds element n [] frame outcome) ∧
      ∀ n outcome, Rounds element n [] frame outcome →
        n ≤ frame.data.length ∧ decodeSequence element .bytes r = leave r' outcome
  /-- There are at most as many elements as bytes after the length or count. -/
  length_le : ∀ {e : Extent} {r r' : Reader} {items : List α},
    decodeSequence element e r = .ok items r' →
      ∃ n r₁, readLength r = .ok n r₁ ∧ r₁.index + items.length ≤ r'.index
  /-- Holding the count against the bytes left loses nothing that can be read. -/
  count : ∀ {r r' : Reader} {items : List α}, decodeUnchecked element r = .ok items r' ↔
    decodeSequence element .elements r = .ok items r'

/-- A frame is a length and so many bytes. -/
theorem exists_length_of_readFrame {r frame r' : Reader} (h : readFrame r = .ok frame r') :
    ∃ r₁, readLength r = .ok frame.data.length r₁ ∧ r'.index = r₁.index + frame.data.length := by
  obtain ⟨payload, r₂, hbytes, h⟩ := exists_of_bind_ok h
  cases h
  obtain ⟨length, r₁, hlength, hraw⟩ := exists_of_bind_ok hbytes
  obtain ⟨n, -, rfl, rfl, hpayload⟩ := takes_raw length hraw
  exact ⟨r₁, hpayload ▸ hlength, congrArg (r₁.index + ·) hpayload.symm⟩

/-- A sequence in a frame is read to the end of the frame. -/
theorem decodeSequence_framed {r frame r' : Reader} (h : readFrame r = .ok frame r') :
    decodeSequence element .bytes r = leave r' (readToEnd element frame) := by
  rw [decodeSequence, bind_of_ok (onWire_of_ok h), within]
  cases readToEnd element frame <;> rfl

/-- If a sequence can be read, the count in front of it can be met. -/
theorem decodeUnchecked_eq_ok_iff (h : Takes element fun _ n => 0 < n) {r r' : Reader}
    {items : List α} : decodeUnchecked element r = .ok items r' ↔
      decodeSequence element .elements r = .ok items r' := by
  constructor
  · intro hread
    -- There are as many elements as were counted, each of which took a byte.
    obtain ⟨count, r₁, hcount, hitems⟩ := exists_of_bind_ok hread
    obtain ⟨n, hn, -, -, hle⟩ := h.sizeless.readTimes count hitems
    have hlength : readLength r = .ok count r₁ :=
      readLength_eq_ok.2 ⟨onWire_eq_ok.1 hcount, by omega⟩
    rw [decodeSequence, bind_of_ok (onWire_of_ok hlength)]
    exact hitems
  · intro hread
    obtain ⟨count, r₁, hcount, hitems⟩ := exists_of_bind_ok hread
    have hvarint := (readLength_eq_ok.1 (onWire_eq_ok.1 hcount)).1
    rw [decodeUnchecked, bind_of_ok (onWire_of_ok hvarint)]
    exact hitems

/-- Sequences are bounded by their bytes if an element takes at least one. -/
theorem bytesBound_of_takes (h : Takes element fun _ n => 0 < n) : BytesBound element where
  rounds {r frame r'} hframe := by
    obtain ⟨n, hn, hrounds⟩ := exists_rounds h frame
    refine ⟨⟨n, _, hrounds⟩, fun n' outcome hrounds' => ?_⟩
    obtain ⟨rfl, rfl⟩ := hrounds.unique hrounds'
    exact ⟨Nat.le_trans hn (Nat.sub_le _ _), decodeSequence_framed hframe⟩
  length_le {e r r' items} hread := by
    cases e with
    | elements =>
      obtain ⟨count, r₁, hcount, hitems⟩ := exists_of_bind_ok hread
      obtain ⟨n, hindex, rfl, hle⟩ := (h.sizeless.readTimes count).index_eq hitems
      exact ⟨_, r₁, onWire_eq_ok.1 hcount, by omega⟩
    | bytes =>
      -- There are no more elements than bytes in the frame.
      obtain ⟨frame, r₂, hframe, hitems⟩ := exists_of_bind_ok hread
      obtain ⟨r₁, hlength, hindex₁⟩ := exists_length_of_readFrame (onWire_eq_ok.1 hframe)
      obtain ⟨n, hindex, rfl, k, hk, hle⟩ := (h.sizeless.readToEnd.within frame).index_eq hitems
      have hdata : frame.remaining ≤ frame.data.length := Nat.sub_le _ _
      exact ⟨_, r₁, hlength, by omega⟩
  count := decodeUnchecked_eq_ok_iff h

end Sequences

/-! ## Steps -/

section Depth

variable {α β : Type} {d : Nat} {P : α → Nat → Prop}

/-- The readings do the same at a depth. -/
def AgreeAt (d : Nat) (m m' : Decoding α) : Prop := ∀ r, r.depth = d → m r = m' r

namespace AgreeAt

variable {m m' : Decoding α}

/-- Readings that agree at a depth do so in a row, since the first one stays at the depth. -/
theorem bind {f f' : α → Decoding β} (hm : AgreeAt d m m') (htakes : Takes m P)
    (hf : ∀ a, AgreeAt d (f a) (f' a)) : AgreeAt d (m >>= f) (m' >>= f') := by
  intro r hr
  cases h : m r with
  | ok a r₁ =>
    obtain ⟨n, -, rfl, -⟩ := htakes h
    rw [bind_of_ok h, bind_of_ok ((hm r hr).symm.trans h)]
    exact hf a _ hr
  | error e r₁ => rw [bind_of_error h, bind_of_error ((hm r hr).symm.trans h)]

theorem map {f : α → β} (hm : AgreeAt d m m') (htakes : Takes m P) :
    AgreeAt d (f <$> m) (f <$> m') := hm.bind htakes fun _ _ _ => rfl

/-- Reading a fixed number of times agrees if reading once does. -/
theorem readTimes (hm : AgreeAt d m m') (htakes : Takes m fun _ n => 0 < n) (count : Nat) :
    AgreeAt d (readTimes m count) (readTimes m' count) := by
  induction count with
  | zero => exact fun _ _ => rfl
  | succ count ih => exact hm.bind htakes fun a => ih.map (htakes.sizeless.readTimes count)

/-- Reading up to the end agrees if reading once does. -/
theorem readBounded (hm : AgreeAt d m m') (htakes : Takes m fun _ n => 0 < n) (bound : Nat) :
    AgreeAt d (readBounded m bound) (readBounded m' bound) := by
  induction bound with
  | zero => exact fun _ _ => rfl
  | succ bound ih =>
    intro r hr
    cases hend : r.atEnd with
    | true => rw [readBounded_of_atEnd hend, readBounded_of_atEnd hend]
    | false =>
      rw [readBounded_succ m hend, readBounded_succ m' hend]
      exact hm.bind htakes (fun a => ih.map (htakes.sizeless.readBounded bound)) r hr

/-- The elements of a frame are at the depth of what is around it. -/
theorem sequence (hm : AgreeAt d m m') (htakes : Takes m fun _ n => 0 < n) (e : Extent) :
    AgreeAt d (decodeSequence m e) (decodeSequence m' e) := by
  cases e with
  | elements =>
    have hcount : AgreeAt d (onWire readLength) (onWire readLength) := fun _ _ => rfl
    exact hcount.bind (takes_onWire takes_length) fun count => hm.readTimes htakes count
  | bytes =>
    intro r hr
    cases hframe : readFrame r with
    | error e r₁ =>
      have hread : onWire readFrame r = .error (.wire e) r₁ := by rw [onWire, hframe]
      rw [decodeSequence, decodeSequence, bind_of_error hread, bind_of_error hread]
    | ok frame r₁ =>
      -- A frame for a sequence does not go deeper.
      have hdepth := (enters_of_readFrame hframe).2
      rw [decodeSequence_framed hframe, decodeSequence_framed hframe, readToEnd, readToEnd,
        hm.readBounded htakes _ frame (hdepth.trans hr)]

end AgreeAt

/-- The values of a step are read as `decodeValue` reads them, since they are at its depth. -/
theorem decodeStep_eq (s : CompiledSchema) (step : Step) :
    decodeStep s step = decodeShape (decodeValue s) step.shape := by
  funext r
  -- A field is read at one depth throughout, so that the limit leaves the same number of levels for
  -- all values in it.
  have hvalue : ∀ v, AgreeAt r.depth (decodeBy (decodeObject (nestingLimit - r.depth)) s v)
      (decodeValue s v) := by
    intro v r' hr'
    rw [decodeValue, hr']
  have htakes := takes_value (takes_object (nestingLimit - r.depth)) s
  have hpos : ∀ v, Takes (decodeBy (decodeObject (nestingLimit - r.depth)) s v)
      fun _ n => 0 < n := fun v => (htakes v).mono fun _ _ hn => Nat.zero_lt_of_lt hn
  suffices hshape : AgreeAt r.depth
      (decodeShape (decodeBy (decodeObject (nestingLimit - r.depth)) s) step.shape)
      (decodeShape (decodeValue s) step.shape) from hshape r rfl
  cases step.shape with
  | single v => exact (hvalue v).map (hpos v)
  | optional v =>
    have hpresent : AgreeAt r.depth (onWire readBool) (onWire readBool) := fun _ _ => rfl
    refine hpresent.bind (takes_onWire takes_bool) fun present => ?_
    cases present with
    | false => exact fun _ _ => rfl
    | true => exact (hvalue v).map (hpos v)
  | repeated v e =>
    exact ((hvalue v).sequence (hpos v) e).map (takes_sequence (htakes v) e)
  | map k v e =>
    have hentry := takes_entry htakes k v
    refine AgreeAt.map (AgreeAt.sequence ?_ ?_ e) (takes_sequence hentry e)
    · exact (hvalue k).bind (hpos k) fun x => (hvalue v).map (hpos v)
    · exact hentry.mono fun _ _ hn => Nat.zero_lt_of_lt hn

end Depth

end Value

open Value

/-- In every schema and from every reader, a value that is read takes a byte at least, and more
    bytes than there are elements in it. -/
theorem values_take_bytes (s : CompiledSchema) :
    (∀ v r w r', decodeValue s v r = .ok w r' →
      r.index < r'.index ∧ r'.index ≤ r.data.length ∧ r.index + w.elements < r'.index) ∧
    (∀ v, BytesBound (decodeValue s v)) ∧
    (∀ k v, BytesBound (decodeEntry (decodeValue s) k v)) ∧
    (∀ step, decodeStep s step = decodeShape (decodeValue s) step.shape) ∧
    (∀ step r w r', decodeStep s step r = .ok (some w) r' → r.index + w.elements < r'.index) ∧
    ∀ id b w, decode s id b = .ok w → w.elements ≤ b.length := by
  have hvalue := takes_decodeValue s
  have hpos : ∀ v, Takes (decodeValue s v) fun _ n => 0 < n := fun v =>
    (hvalue v).mono fun _ _ hn => Nat.zero_lt_of_lt hn
  refine ⟨fun v r w r' hw => ?_, fun v => bytesBound_of_takes (hpos v), fun k v => ?_,
    decodeStep_eq s, fun step r w r' hw => ?_, fun id b w hw => ?_⟩
  · obtain ⟨n, hn, rfl, hlt⟩ := hvalue v hw
    change r.index < r.index + n ∧ r.index + n ≤ r.data.length ∧ r.index + w.elements < r.index + n
    rw [Reader.remaining] at hn
    omega
  · exact bytesBound_of_takes ((takes_entry hvalue k v).mono fun _ _ hn => Nat.zero_lt_of_lt hn)
  · rw [decodeStep_eq] at hw
    obtain ⟨n, hindex, hlt⟩ := (takes_shape hvalue step.shape).index_eq hw
    rw [Option.elim_some] at hlt
    omega
  · -- A whole message is read from the start of its bytes.
    obtain ⟨found, -, hw⟩ := bind_eq_ok.1 hw
    dsimp only at hw
    split at hw <;> cases hw
    rename_i hobject
    obtain ⟨n, hn, -, hle⟩ := takes_object _ _ _ hobject
    exact Nat.le_trans hle hn

namespace Sample

/-- The seeds on a tray. -/
def seedsField : FieldMapping :=
  .ofType ⟨"seeds", 1, .repeated (.named "Seed"), false⟩ (.repeated (.message ⟨.own, 0⟩))

/-- Trays of seeds, which have no fields. -/
def tray : Schema where
  name := "tray.proto"
  messages := [⟨"Seed", []⟩, ⟨"Tray", [⟨"seeds", 1, .repeated (.named "Seed"), false⟩]⟩]

/-- The schema of trays once it is compiled. -/
def compiledTray : CompiledSchema where
  name := "tray.proto"
  package := none
  imports := []
  enums := []
  messages := [⟨⟨.own, 0⟩, "Seed", []⟩, ⟨⟨.own, 1⟩, "Tray", [seedsField.step]⟩]
  mappings := [[], [seedsField]]
  services := []
  order := ⟨[], [.message 0, .message 1]⟩

/-- Three seeds. -/
def seeds : Value := .array [.object "Seed" [], .object "Seed" [], .object "Seed" []]

end Sample

open Sample

/-- Three seeds take three bytes, their lengths, and the loop over them no more rounds. A count
    of two is met by two bytes. -/
theorem values_take_bytes_tray :
    tray.compile .empty = .ok compiledTray ∧
      decodeStep compiledTray seedsField.step ⟨[9, 3, 0, 0, 0], 1, 4⟩ =
        .ok (some seeds) ⟨[9, 3, 0, 0, 0], 5, 4⟩ ∧
      seeds.elements = 3 ∧ 1 + seeds.elements < 5 ∧
      (∃ n ≤ 3, ∃ outcome,
        Rounds (decodeValue compiledTray (.nested ⟨.own, 0⟩)) n [] ⟨[0, 0, 0], 0, 4⟩ outcome) ∧
      decodeSequence (decodeValue compiledTray (.scalar .bool)) .elements ⟨[2, 1, 0], 0, 0⟩ =
        .ok [.bool true, .bool false] ⟨[2, 1, 0], 3, 0⟩ := by
  obtain ⟨-, hbound, -, -, hstep, -⟩ := values_take_bytes compiledTray
  have hread : decodeStep compiledTray seedsField.step ⟨[9, 3, 0, 0, 0], 1, 4⟩ =
      .ok (some seeds) ⟨[9, 3, 0, 0, 0], 5, 4⟩ := rfl
  have hframe : readFrame ⟨[9, 3, 0, 0, 0], 1, 4⟩ =
      .ok ⟨[0, 0, 0], 0, 4⟩ ⟨[9, 3, 0, 0, 0], 5, 4⟩ := rfl
  have hunchecked : decodeUnchecked (decodeValue compiledTray (.scalar .bool)) ⟨[2, 1, 0], 0, 0⟩ =
      .ok [.bool true, .bool false] ⟨[2, 1, 0], 3, 0⟩ := rfl
  obtain ⟨⟨n, outcome, hrounds⟩, hle⟩ := (hbound (.nested ⟨.own, 0⟩)).rounds hframe
  exact ⟨rfl, hread, rfl, hstep seedsField.step _ _ _ hread,
    ⟨n, (hle n outcome hrounds).1, outcome, hrounds⟩,
    (hbound (.scalar .bool)).count.1 hunchecked⟩

end Marshal
