import Marshal.Proofs.Reading
import Marshal.Value.Decode

/-!
# Decoding within the levels of nesting

A decoding *takes* some bytes with `levels` levels of nesting left, and needs
some number of them, if it goes past just these bytes and gives the same value
wherever they come next, provided that it has the levels it needs, and runs into
the nesting limit otherwise (`Decodes`). What is decoded one after the other
needs as many levels as the part that needs most of them (`Decodes.bind`), and a
message needs one more than what is in it (`decodes_nested`).

* `decodes_sequence`: elements that each take bytes are taken together;
* `Value.levels`: the levels that a value takes up by itself.
-/

namespace Marshal.Value

open Wire

variable {α β : Type}

/-! ## Levels of a value -/

mutual

/-- The number of objects inside each other where they are nested most deeply. -/
def levels : Value → Nat
  | .array items => levelsOfItems items
  | .map entries => levelsOfEntries entries
  | .object _ fields => levelsOfFields fields + 1
  | _ => 0

/-- The levels of the deepest element. -/
def levelsOfItems : List Value → Nat
  | [] => 0
  | v :: rest => max v.levels (levelsOfItems rest)

/-- The levels of the deepest key or value. -/
def levelsOfEntries : List (Value × Value) → Nat
  | [] => 0
  | (k, v) :: rest => max (max k.levels v.levels) (levelsOfEntries rest)

/-- The levels of the deepest field. -/
def levelsOfFields : List (String × Value) → Nat
  | [] => 0
  | (_, v) :: rest => max v.levels (levelsOfFields rest)

end

/-- The number of messages that one has to enter, below the object itself, to
    reach the deepest place of it. -/
def nesting (v : Value) : Nat := v.levels - 1

/-- How deeply fields are nested does not depend on their order. -/
theorem levelsOfFields_perm {x y : List (String × Value)} (h : x.Perm y) :
    levelsOfFields x = levelsOfFields y := by
  induction h with
  | nil => rfl
  | cons p _ ih => rw [levelsOfFields, levelsOfFields, ih]
  | swap p q l =>
    rw [levelsOfFields, levelsOfFields, levelsOfFields, levelsOfFields, Nat.max_left_comm]
  | trans _ _ ih₁ ih₂ => rw [ih₁, ih₂]

/-- A value of a primitive is not nested. -/
theorem levels_toValue (p : Primitive) (x : p.Carrier) : (p.toValue x).levels = 0 := by
  cases p <;> rfl

/-! ## Outcomes -/

/-- The result of a decoding that ran into the nesting limit. -/
def TooDeep (result : EStateM.Result Error Reader α) : Prop :=
  ∃ offset r, result = .error (.wire (.nestingLimit offset nestingLimit)) r

/-- The decoding goes past just these bytes and gives `a` if `levels` are at least
    those it needs, and is too deep otherwise. -/
def Decodes (levels : Nat) (m : Decoding α) (b : Bytes) (a : α) (need : Nat) : Prop :=
  ∀ r tail, r.depth + levels = nestingLimit → r.rest = b ++ tail →
    (need ≤ levels → m r = .ok a (r.advance b.length)) ∧ (levels < need → TooDeep (m r))

/-- The same of a decoding that has the bytes to itself, wherever it stops. -/
def DecodesFrame (levels : Nat) (m : Decoding α) (b : Bytes) (a : α) (need : Nat) : Prop :=
  ∀ r, r.depth + levels = nestingLimit → r.rest = b →
    (need ≤ levels → ∃ r', m r = .ok a r') ∧ (levels < need → TooDeep (m r))

/-- What is too deep stays so, whatever would come after it. -/
theorem TooDeep.bind {m : Decoding α} {f : α → Decoding β} {r : Reader} (h : TooDeep (m r)) :
    TooDeep ((m >>= f) r) := by
  obtain ⟨offset, r', h⟩ := h
  exact ⟨offset, r', bind_of_error h⟩

theorem TooDeep.map {m : Decoding α} {f : α → β} {r : Reader} (h : TooDeep (m r)) :
    TooDeep ((f <$> m) r) := by
  obtain ⟨offset, r', h⟩ := h
  exact ⟨offset, r', map_of_error h⟩

/-- What is too deep in a frame is so around it. -/
theorem TooDeep.within {m : Decoding α} {frame : Reader} (h : TooDeep (m frame)) (outer : Reader) :
    TooDeep (within frame m outer) := by
  obtain ⟨offset, r', h⟩ := h
  exact ⟨offset, outer, by rw [Wire.within, h]⟩

theorem within_of_ok {m : Decoding α} {frame r' : Reader} {a : α} (h : m frame = .ok a r')
    (outer : Reader) : within frame m outer = .ok a outer := by
  rw [within, h]

theorem onWire_of_ok {m : WireReading α} {r r' : Reader} {a : α} (h : m r = .ok a r') :
    onWire m r = .ok a r' := by
  rw [onWire, h]

namespace Decodes

variable {levels n₁ n₂ : Nat} {m : Decoding α} {f : α → Decoding β} {b₁ b₂ : Bytes} {a : α} {c : β}

theorem pure (a : α) : Decodes levels (Pure.pure a) [] a 0 :=
  fun _ _ _ _ => ⟨fun _ => rfl, fun h => absurd h (Nat.not_lt_zero _)⟩

/-- Readings in a row go as deep as the deeper one. -/
theorem bind (hm : Decodes levels m b₁ a n₁) (hf : Decodes levels (f a) b₂ c n₂) :
    Decodes levels (m >>= f) (b₁ ++ b₂) c (max n₁ n₂) := by
  intro r tail hd hr
  rw [List.append_assoc] at hr
  obtain ⟨hok, hdeep⟩ := hm r _ hd hr
  obtain ⟨hok', hdeep'⟩ := hf (r.advance b₁.length) tail hd (Reader.rest_advance hr)
  constructor
  · intro h
    rw [bind_of_ok (hok (by omega)), hok' (by omega), Reader.advance_advance, List.length_append]
  · -- The first part is too deep, or else it is read and the second one is too deep.
    intro h
    by_cases h₁ : levels < n₁
    · exact (hdeep h₁).bind
    · rw [bind_of_ok (hok (by omega))]
      exact hdeep' (by omega)

theorem map {g : α → β} (hm : Decodes levels m b₁ a n₁) : Decodes levels (g <$> m) b₁ (g a) n₁ := by
  intro r tail hd hr
  obtain ⟨hok, hdeep⟩ := hm r tail hd hr
  exact ⟨fun h => map_of_ok (hok h), fun h => (hdeep h).map⟩

/-- What is read from the wire alone needs no levels. -/
theorem onWire {read : WireReading α} (h : Reads read b₁ a) :
    Decodes levels (onWire read) b₁ a 0 :=
  fun r tail _ hr => ⟨fun _ => onWire_of_ok (h r tail hr), fun h => absurd h (Nat.not_lt_zero _)⟩

/-- What needs no levels comes before what needs some. -/
theorem bind_wire {read : WireReading α} (h : Reads read b₁ a) (hf : Decodes levels (f a) b₂ c n₂) :
    Decodes levels (Value.onWire read >>= f) (b₁ ++ b₂) c n₂ := by
  have := (onWire h).bind hf
  rwa [Nat.zero_max] at this

/-- What comes after the bytes may depend on them without reading any more. -/
theorem bind_pure (hm : Decodes levels m b₁ a n₁) (hf : f a = Pure.pure c) :
    Decodes levels (m >>= f) b₁ c n₁ := by
  intro r tail hd hr
  obtain ⟨hok, hdeep⟩ := hm r tail hd hr
  refine ⟨fun h => ?_, fun h => (hdeep h).bind⟩
  rw [bind_of_ok (hok h), hf]
  rfl

/-- What has the rest of a frame to itself comes last in it. -/
theorem bind_frame (hm : Decodes levels m b₁ a n₁) (hf : DecodesFrame levels (f a) b₂ c n₂) :
    DecodesFrame levels (m >>= f) (b₁ ++ b₂) c (max n₁ n₂) := by
  intro r hd hr
  obtain ⟨hok, hdeep⟩ := hm r _ hd hr
  obtain ⟨hok', hdeep'⟩ := hf (r.advance b₁.length) hd (Reader.rest_advance hr)
  constructor
  · intro h
    obtain ⟨r', hr'⟩ := hok' (by omega)
    exact ⟨r', by rw [bind_of_ok (hok (by omega)), hr']⟩
  · intro h
    by_cases h₁ : levels < n₁
    · exact (hdeep h₁).bind
    · rw [bind_of_ok (hok (by omega))]
      exact hdeep' (by omega)

/-- Where it succeeds, it goes past just these bytes. -/
theorem eq_advance {r r' : Reader} {tail : Bytes} {x : α} (hm : Decodes levels m b₁ a n₁)
    (hd : r.depth + levels = nestingLimit) (hr : r.rest = b₁ ++ tail) (hx : m r = .ok x r') :
    r' = r.advance b₁.length := by
  obtain ⟨hok, hdeep⟩ := hm r tail hd hr
  by_cases h : n₁ ≤ levels
  · exact (EStateM.Result.ok.inj (hx.symm.trans (hok h))).2
  · obtain ⟨_, _, herror⟩ := hdeep (Nat.lt_of_not_le h)
    cases herror.symm.trans hx

end Decodes

theorem DecodesFrame.map {levels need : Nat} {m : Decoding α} {b : Bytes} {a : α} {g : α → β}
    (hm : DecodesFrame levels m b a need) : DecodesFrame levels (g <$> m) b (g a) need := by
  intro r hd hr
  obtain ⟨hok, hdeep⟩ := hm r hd hr
  refine ⟨fun h => ?_, fun h => (hdeep h).map⟩
  obtain ⟨r', hr'⟩ := hok h
  exact ⟨r', map_of_ok hr'⟩

/-! ## Sequences -/

/-- The decoding of an element goes past the bytes of all elements, one after the
    other, of which each takes a byte at least. -/
inductive DecodesAll (levels : Nat) (m : Decoding α) : Bytes → List α → Nat → Prop
  | nil : DecodesAll levels m [] [] 0
  | cons {b bs : Bytes} {a : α} {as : List α} {n k : Nat} : 0 < b.length →
    Decodes levels m b a n → DecodesAll levels m bs as k →
    DecodesAll levels m (b ++ bs) (a :: as) (max n k)

namespace DecodesAll

variable {levels need : Nat} {m : Decoding α} {b : Bytes} {as : List α}

/-- There are no more elements than bytes. -/
theorem length_le (h : DecodesAll levels m b as need) : as.length ≤ b.length := by
  induction h with
  | nil => exact Nat.le_refl _
  | cons hb _ _ ih =>
    rw [List.length_cons, List.length_append]
    omega

/-- Elements are read by their number. -/
theorem readTimes (h : DecodesAll levels m b as need) :
    Decodes levels (readTimes m as.length) b as need := by
  induction h with
  | nil => exact .pure []
  | cons _ ha _ ih => exact ha.bind ih.map

/-- Elements are read up to the end of their frame, if that is not bounded by fewer. -/
theorem readBounded (h : DecodesAll levels m b as need) {bound : Nat}
    (hbound : as.length ≤ bound) : DecodesFrame levels (readBounded m bound) b as need := by
  induction h generalizing bound with
  | nil =>
    intro r _ hr
    refine ⟨fun _ => ⟨r, ?_⟩, fun h => absurd h (Nat.not_lt_zero _)⟩
    cases bound with
    | zero => rfl
    | succ bound =>
      change (if r.atEnd then _ else _ : Decoding (List α)) r = _
      rw [Reader.atEnd_eq, hr]
      rfl
  | cons hb ha _ ih =>
    cases bound with
    | zero => exact absurd hbound (Nat.not_succ_le_zero _)
    | succ bound =>
      -- An element takes a byte at least, so the reader is not at the end before it.
      intro r hd hr
      have hstep : Wire.readBounded m (bound + 1) r =
          (m >>= fun x => (x :: ·) <$> Wire.readBounded m bound) r := by
        change (if r.atEnd then _ else _ : Decoding (List α)) r = _
        rw [Reader.atEnd_eq_false hb hr]
        rfl
      rw [hstep]
      exact ha.bind_frame (ih (Nat.le_of_succ_le_succ hbound)).map r hd hr

end DecodesAll

/-- Elements that are taken one by one are taken as a sequence, whatever its
    extent counts. -/
theorem decodes_sequence {levels need : Nat} {m : Decoding α} {b : Bytes} {as : List α}
    (h : DecodesAll levels m b as need) (e : Extent) (hb : b.length < 2 ^ 64) :
    Decodes levels (decodeSequence m e) (e.write as.length b) as need := by
  have hle := h.length_le
  intro r tail hd hr
  cases e with
  | elements =>
    -- The count is taken, since each of the elements that follow takes a byte at least.
    rw [Extent.write, List.append_assoc] at hr
    have htail : as.length ≤ (b ++ tail).length := by
      rw [List.length_append]
      omega
    have hlength := onWire_of_ok (readLength_apply (by omega) hr htail)
    obtain ⟨hok, hdeep⟩ := h.readTimes (r.advance (varint as.length).length) tail hd
      (Reader.rest_advance hr)
    rw [decodeSequence, bind_of_ok hlength, Extent.write, List.length_append,
      ← Reader.advance_advance]
    exact ⟨hok, hdeep⟩
  | bytes =>
    -- The frame holds the elements and nothing else, so they are read to its end.
    have hframe := onWire_of_ok (readFrame_apply hb hr)
    have hbound : as.length ≤ (Reader.mk b 0 r.depth).remaining := by
      rwa [Reader.remaining_eq, Reader.rest_ofBytes]
    obtain ⟨hok, hdeep⟩ := h.readBounded hbound ⟨b, 0, r.depth⟩ hd rfl
    rw [decodeSequence, bind_of_ok hframe]
    constructor
    · intro h
      obtain ⟨r', hr'⟩ := hok h
      exact within_of_ok hr' _
    · exact fun h => (hdeep h).within _

/-! ## Messages -/

/-- An object of a message is read in its frame. -/
theorem decodeBy_nested {object : CompiledSchema → MessagePlan → Decoding Value}
    {s owner : CompiledSchema} {id : MessageId} {plan : MessagePlan}
    (hid : s.find id = .ok (owner, plan)) :
    decodeBy object s (.nested id) =
      onWire readMessageFrame >>= fun frame => within frame (object owner plan) := by
  rw [decodeBy, hid]
  rfl

/-- A message that is taken by itself, with one level less, is taken in its frame.
    No message is entered where there are no levels. -/
theorem decodes_nested {levels need : Nat} {object : CompiledSchema → MessagePlan → Decoding Value}
    {s owner : CompiledSchema} {id : MessageId} {plan : MessagePlan} {b : Bytes} {w : Value}
    (hid : s.find id = .ok (owner, plan)) (hb : b.length < 2 ^ 64)
    (h : ∀ k, levels = k + 1 → DecodesFrame k (object owner plan) b w need) :
    Decodes levels (decodeBy object s (.nested id)) (framed b) w (need + 1) := by
  intro r tail hd hr
  rw [decodeBy_nested hid]
  cases levels with
  | zero =>
    -- The reader is at the limit, and does not enter the frame.
    have hdeep := readMessageFrame_of_le (r := r) (by omega)
    refine ⟨fun h => absurd h (Nat.not_succ_le_zero _), fun _ => TooDeep.bind ?_⟩
    exact ⟨r.index, r, by rw [onWire, hdeep]⟩
  | succ k =>
    have hframe := onWire_of_ok (readMessageFrame_apply hb hr (by omega))
    have hd' : r.depth + 1 + k = nestingLimit := by omega
    obtain ⟨hok, hdeep⟩ := h k rfl ⟨b, 0, r.depth + 1⟩ hd' rfl
    rw [bind_of_ok hframe]
    constructor
    · intro h
      obtain ⟨r', hr'⟩ := hok (Nat.le_of_succ_le_succ h)
      exact within_of_ok hr' _
    · exact fun h => (hdeep (Nat.lt_of_succ_lt_succ h)).within _

/-! ## Steps -/

section Steps

variable {levels need : Nat} {value : ValueStep → Decoding Value} {s : CompiledSchema} {step : Step}
  {b : Bytes} {w : Option Value}

/-- A field that takes a byte at least is read by its shape. -/
theorem decodes_step (hd : step.deprecated = false) (hb : 0 < b.length)
    (h : Decodes levels (decodeShape value step.shape) b w need) :
    Decodes levels (decodeStepBy value s step) b w need := by
  intro r tail hdepth hr
  have hstep : decodeStepBy value s step r = decodeShape value step.shape r := by
    change (if r.atEnd then _ else _ : Decoding (Option Value)) r = _
    rw [Reader.atEnd_eq_false hb hr, hd]
    rfl
  rw [hstep]
  exact h r tail hdepth hr

/-- A deprecated field that takes a byte at least is skipped. -/
theorem decodes_deprecated (hd : step.deprecated = true) (hb : 0 < b.length)
    (h : Reads step.shape.skip b ()) : Decodes levels (decodeStepBy value s step) b none 0 := by
  intro r tail hdepth hr
  have hstep : decodeStepBy value s step r =
      (onWire step.shape.skip >>= fun _ => pure none) r := by
    change (if r.atEnd then _ else _ : Decoding (Option Value)) r = _
    rw [Reader.atEnd_eq_false hb hr, hd]
    rfl
  have hskip : Decodes levels (onWire step.shape.skip >>= fun _ => pure (none : Option Value)) b
    none 0 := (Decodes.onWire h).bind_pure rfl
  rw [hstep]
  exact hskip r tail hdepth hr

end Steps

end Marshal.Value
