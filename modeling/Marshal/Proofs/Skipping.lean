import Marshal.Compile.Basic
import Marshal.Proofs.Decoding
import Marshal.Proofs.Scanning

/-!
# Skipping what can be read

To skip a value one has to know its kind, and nothing else about it. Wherever a
value is read, in the spelling that a writer would choose or in any other one, it
can be skipped as well, and skipping stops where reading does (`Skips`). The
converse fails: what is skipped need not be a text in UTF-8, or a message of any
plan.

* `skips_primitive`, `skips_value`: values are skipped by their kinds;
* `skips_shape`: fields are skipped by their shapes;
* `skip_of_decodeStep`: so are the steps of any schema, from any place and depth.
-/

namespace Marshal.Wire

variable {ε α β : Type}

/-- Where the reading succeeds, skipping succeeds and stops at the same place. -/
abbrev Skips (skip : WireReading β) (read : Reading ε α) : Prop :=
  Tracks (fun _ : ε => (none : Option Error)) (fun _ => True) (fun _ _ => True) read skip

section Skips

variable {read : Reading ε α} {skip : WireReading Unit}

/-- Going past a value has to succeed only where reading does. -/
theorem Skips.of_ok (h : ∀ r a r', read r = .ok a r' → skip r = .ok () r') : Skips skip read where
  ok _ ha := ⟨trivial, (), h _ _ _ ha, trivial⟩
  error _ _ he := nomatch he

theorem Skips.apply (h : Skips skip read) {r r' : Reader} {a : α} (ha : read r = .ok a r') :
    skip r = .ok () r' := by
  obtain ⟨-, ⟨⟩, hskip, -⟩ := h.ok trivial ha
  exact hskip

/-- What comes after what is skipped may fail, but does not read. -/
theorem Skips.of_bind {f : α → Reading ε β} (h : Skips skip read)
    (hf : ∀ a r b r', f a r = .ok b r' → r' = r) : Skips skip (read >>= f) :=
  .of_ok fun r b r' hb => by
    obtain ⟨a, r₁, ha, hfa⟩ := exists_of_bind_ok hb
    rw [hf a r₁ b r' hfa]
    exact h.apply ha

/-- What is made of a value does not matter. -/
theorem Skips.of_map {f : α → β} (h : Skips skip read) : Skips skip (f <$> read) :=
  h.of_bind (f := fun a => pure (f a)) fun _ _ _ _ hb => by
    cases hb
    rfl

/-- What a reading tracks is skipped by it, once its value is dropped. -/
theorem skips_of_tracks {read' : WireReading β} {Q : α → β → Prop}
    (h : Tracks (fun _ => none) (fun _ => True) Q read read') : Skips (do let _ ← read') read :=
  h.map_right (g := fun _ => ()) fun _ _ _ => trivial

end Skips

/-! ## Primitives -/

/-- A varint is read in the same way by more groups. Only the last one possible is
    held against a limit, so limits do not matter. -/
theorem tracks_groups {start start' bits bits' limit limit' groups groups' : Nat}
    (h : groups < groups') :
    Tracks (fun _ => none) (fun _ => True) Eq (readGroups start bits limit groups)
      (readGroups start' bits' limit' groups') := by
  induction groups generalizing groups' with
  | zero => exact ⟨fun _ h => (nomatch h), fun _ _ he => (nomatch he)⟩
  | succ groups ih =>
    obtain ⟨groups', rfl⟩ := Nat.exists_eq_add_one_of_ne_zero (Nat.ne_zero_of_lt h)
    refine Tracks.refl.bind ?_
    rintro b _ rfl
    rw [if_neg (by omega : ¬(groups' = 0 ∧ limit' ≤ b.toNat))]
    split
    · exact ⟨fun _ h => (nomatch h), fun _ _ he => (nomatch he)⟩
    · split
      · exact .pure rfl
      · exact (ih (Nat.lt_of_succ_lt_succ h)).map fun _ _ hhigh => by rw [hhigh]

/-- A varint of 32 bits is one of 64 bits. -/
theorem tracks_varint :
    Tracks (fun _ => none) (fun _ => True) Eq (readVarint 32) (readVarint 64) := by
  rw [readVarint, readVarint]
  exact Tracks.refl.bind fun _ _ _ => tracks_groups (by decide)

/-- A truth value is a varint of one byte. -/
theorem tracks_bool :
    Tracks (fun _ => none) (fun _ => True) (fun b n => n = b.toNat) readBool (readVarint 64) := by
  rw [readBool, readVarint]
  refine Tracks.refl.bind fun _ _ _ => ?_
  rw [readGroups]
  refine Tracks.refl.bind ?_
  rintro b _ rfl
  split
  · rename_i hb
    subst hb
    exact .pure rfl
  · split
    · rename_i hb
      subst hb
      exact .pure rfl
    · exact ⟨fun _ h => (nomatch h), fun _ _ he => (nomatch he)⟩

/-- The position may be looked at before reading. -/
theorem Skips.position {f : Nat → Reading ε α} {skip : WireReading Unit}
    (h : ∀ start, Skips skip (f start)) : Skips skip (position >>= f) :=
  .of_ok fun r _ _ ha => (h r.index).apply ha

/-- Wherever a primitive is read, it is skipped by its kind. -/
theorem skips_primitive (p : Primitive) : Skips (skip p.kind) p.read := by
  cases p with
  | bool => exact skips_of_tracks tracks_bool
  | varU32 | varI32 => exact (skips_of_tracks tracks_varint).of_map
  | varU64 | varI64 => exact (skips_of_tracks .refl).of_map
  | fixedU32 | fixedI32 | fixedU64 | fixedI64 | f32 | f64 =>
    exact (skips_of_tracks .refl).of_map.of_map
  | string =>
    -- Whether the bytes are those of a text is not asked when they are skipped.
    refine .position fun start => (skips_of_tracks .refl).of_bind fun b r s r' hs => ?_
    cases htext : ofUtf8? b <;> rw [htext] at hs <;> cases hs
    rfl
  | bytes => exact skips_of_tracks .refl

/-! ## Frames -/

/-- A frame is passed as bytes are. -/
theorem skips_readFrame : Skips (skip .bytes) readFrame := by
  refine (skips_of_tracks .refl).of_bind fun payload r frame r' hframe => ?_
  cases hframe
  rfl

/-- A message is passed as a frame is, at any level. -/
theorem skips_readMessageFrame : Skips (skip .nested) readMessageFrame := by
  refine .of_ok fun r frame r' hframe => ?_
  change (if nestingLimit ≤ r.depth then _ else _ : WireReading Reader) r = _ at hframe
  split at hframe
  · cases hframe
  · obtain ⟨inner, r₁, hinner, hframe⟩ := exists_of_bind_ok hframe
    cases hframe
    exact skips_readFrame.apply hinner

/-- Whatever is read inside a frame, the frame as a whole is skipped. -/
theorem Skips.within {read : Reading ε Reader} {skip : WireReading Unit} (h : Skips skip read)
    (body : Reading ε α) : Skips skip (read >>= fun frame => within frame body) :=
  h.of_bind fun frame r a r' ha => by
    rw [Wire.within] at ha
    split at ha <;> cases ha
    rfl

end Marshal.Wire

namespace Marshal.Value

open Wire

variable {α β : Type}

/-! ## Values -/

theorem tracks_onWire (read : WireReading α) :
    Tracks (fun _ => none) (fun _ => True) Eq (onWire read) read where
  ok {r a r'} _ ha := by
    rw [onWire] at ha
    split at ha <;> cases ha
    exact ⟨trivial, a, ‹_›, rfl⟩
  error _ _ he := nomatch he

/-- Nor does how errors are given. -/
theorem skips_onWire {read : WireReading α} {skip : WireReading Unit} (h : Skips skip read) :
    Skips skip (onWire read) :=
  .of_ok fun r a r' ha => by
    obtain ⟨-, _, ha, rfl⟩ := (tracks_onWire read).ok trivial ha
    exact h.apply ha

/-- Wherever a value is read, it is skipped by its kind, whatever objects are read
    as. -/
theorem skips_value (object : CompiledSchema → MessagePlan → Decoding Value) (s : CompiledSchema)
    (v : ValueStep) : Skips (skip v.kind) (decodeBy object s v) := by
  cases v with
  | scalar p => exact (skips_onWire (skips_primitive p)).of_map
  | enum id => exact (skips_onWire (skips_primitive .ofEnum)).of_map
  | nested id =>
    -- Nothing is read for a message that cannot be found.
    cases hid : s.find id with
    | error e =>
      rw [decodeBy, hid]
      refine .of_ok fun _ _ _ ha => ?_
      cases ha
    | ok found =>
      rw [decodeBy_nested hid]
      exact (skips_onWire skips_readMessageFrame).within _

/-! ## Fields -/

/-- Elements that are counted are passed one by one. -/
theorem skips_counted {element : Decoding α} {skip : WireReading β} (h : Skips skip element) :
    Skips (do let count ← readLength; discard (readTimes skip count))
      (decodeSequence element .elements) := by
  refine (tracks_onWire readLength).bind ?_
  rintro count _ rfl
  exact (h.readTimes count).map_right fun _ _ _ => trivial

/-- Elements in a frame are passed at once. -/
theorem skips_framed (element : Decoding α) :
    Skips (Wire.skip .bytes) (decodeSequence element .bytes) :=
  (skips_onWire skips_readFrame).within _

/-- Wherever a field is read, it is skipped by its shape, if this is so for its
    values. -/
theorem skips_shape {value : ValueStep → Decoding Value}
    (h : ∀ v, Skips (skip v.kind) (value v)) (shape : Shape) :
    Skips shape.skip (decodeShape value shape) := by
  cases shape with
  | single v => exact (h v).of_map
  | optional v =>
    refine (tracks_onWire readBool).bind ?_
    rintro present _ rfl
    cases present with
    | false => exact .pure trivial
    | true => exact (h v).of_map
  | repeated v e =>
    -- Framed elements are skipped all at once, counted ones one by one.
    cases e with
    | elements => exact (skips_counted (h v)).of_map
    | bytes => exact (skips_framed _).of_map
  | map k v e =>
    cases e with
    | elements =>
      refine (skips_counted ?_).of_map
      exact (h k).bind fun _ _ _ => (h v).of_map
    | bytes => exact (skips_framed _).of_map

/-! ## Steps -/

/-- Wherever a step of a schema can be read, it can be skipped, and both stop at the same
    place of the same bytes, at the same depth. -/
theorem skip_of_decodeStep (s : CompiledSchema) (step : Step) {r r' : Reader} {w : Option Value}
    (h : decodeStep s step r = .ok w r') :
    step.shape.skip r = .ok () r' ∧ r'.data = r.data ∧ r'.depth = r.depth := by
  have hskip : step.shape.skip r = .ok () r' :=
    (skips_shape (skips_value (decodeObject (nestingLimit - r.depth)) s) step.shape).apply h
  have hprecedes := step.shape.scans_skip.precedes hskip
  exact ⟨hskip, hprecedes.data, hprecedes.depth⟩

end Marshal.Value

namespace Marshal

open Wire Value

namespace Sample

/-- The marks of a tally, by their numbers. -/
def marksField : FieldMapping :=
  .ofType ⟨"marks", 1, .map (.scalar .uint32) (.scalar .bool), false⟩
    (.map (.scalar .uint32) (.scalar .bool))

/-- A tally of marks. -/
def tally : Schema where
  name := "tally.proto"
  messages := [⟨"Tally", [⟨"marks", 1, .map (.scalar .uint32) (.scalar .bool), false⟩]⟩]

/-- The schema of tallies once it is compiled. -/
def compiledTally : CompiledSchema where
  name := "tally.proto"
  package := none
  imports := []
  enums := []
  messages := [⟨⟨.own, 0⟩, "Tally", [marksField.step]⟩]
  mappings := [[marksField]]
  services := []
  order := ⟨[], [.message 0]⟩

end Sample

open Sample

/-- Two marks, the number of the first one spelt with more bytes than it needs. -/
theorem skip_of_decodeStep_tally :
    tally.compile .empty = .ok compiledTally ∧
      decodeStep compiledTally marksField.step ⟨[7, 2, 133, 0, 1, 6, 0, 9], 1, 3⟩ =
        .ok (some (.map [(.u32 5, .bool true), (.u32 6, .bool false)]))
          ⟨[7, 2, 133, 0, 1, 6, 0, 9], 7, 3⟩ ∧
      marksField.step.shape.skip ⟨[7, 2, 133, 0, 1, 6, 0, 9], 1, 3⟩ =
        .ok () ⟨[7, 2, 133, 0, 1, 6, 0, 9], 7, 3⟩ := by
  have hread : decodeStep compiledTally marksField.step ⟨[7, 2, 133, 0, 1, 6, 0, 9], 1, 3⟩ =
      .ok (some (.map [(.u32 5, .bool true), (.u32 6, .bool false)]))
        ⟨[7, 2, 133, 0, 1, 6, 0, 9], 7, 3⟩ := rfl
  exact ⟨rfl, hread, (skip_of_decodeStep compiledTally marksField.step hread).1⟩

end Marshal
