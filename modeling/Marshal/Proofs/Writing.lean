import Marshal.Proofs.Planning
import Marshal.Proofs.RoundTrip
import Marshal.Proofs.Sorting

/-!
# What can be written

A value *fits* a message if it is an object of its name, all of its fields are declared, and every
one of them holds what its step asks for: a value of the primitive, a number for an enum, elements
or entries that fit, or an object that fits a message in turn (`Fits`). Fields may be missing, and
deprecated ones may be there.

Every part of the encoder *decides* whether what it is given fits (`Decides`): it succeeds if so,
and finds a mismatch if not. For the parts of a value this is assumed and for the value proved
(`Value.induct`), so it holds of all values (`fieldDecided`).

* `encode_decides`: what fits a message can be written, and nothing else.
-/

namespace Marshal

open Wire Value CompiledSchema

mutual

/-- The value is what a step asks for, and so is all that it holds. -/
inductive Fits : CompiledSchema → ValueStep → Value → Prop
  | scalar {s : CompiledSchema} {p : Primitive} (x : p.Carrier) : Fits s (.scalar p) (p.toValue x)
  | enum {s : CompiledSchema} {id : EnumId} (n : Int32) : Fits s (.enum id) (.enum n)
  | nested {s owner : CompiledSchema} {id : MessageId} {plan : MessagePlan}
      {fields : List (String × Value)} :
    s.messagePlan? id = some (owner, plan) →
    -- There are no fields but those of the message, deprecated or not,
    (∀ f ∈ fields, ∃ step ∈ plan.steps, step.field = f.1) →
    -- and what is there of these fits.
    (∀ step ∈ plan.steps, ∀ w, Ascending.get? step.field fields = some w →
      FitsShape owner step.shape w) →
    Fits s (.nested id) (.object plan.name fields)

/-- The value of a field is what its shape asks for. -/
inductive FitsShape : CompiledSchema → Shape → Value → Prop
  | single {s : CompiledSchema} {v : ValueStep} {w : Value} :
    Fits s v w → FitsShape s (.single v) w
  | optional {s : CompiledSchema} {v : ValueStep} {w : Value} :
    Fits s v w → FitsShape s (.optional v) w
  | repeated {s : CompiledSchema} {v : ValueStep} {e : Extent} {items : List Value} :
    (∀ w ∈ items, Fits s v w) → FitsShape s (.repeated v e) (.array items)
  | map {s : CompiledSchema} {k v : ValueStep} {e : Extent} {entries : List (Value × Value)} :
    (∀ entry ∈ entries, Fits s k entry.1) → (∀ entry ∈ entries, Fits s v entry.2) →
    FitsShape s (.map k v e) (.map entries)

end

/-! ## Parts of values -/

namespace Value

/-- The values that a value is made of. -/
def parts : Value → List Value
  | .array items => items
  | .map entries => entries.flatMap fun entry => [entry.1, entry.2]
  | .object _ fields => fields.map (·.2)
  | _ => []

/-- The parts of a value are smaller than the value. -/
theorem sizeOf_lt_of_mem_parts {w x : Value} (h : x ∈ w.parts) : sizeOf x < sizeOf w := by
  cases w with
  | array items =>
    have := @List.sizeOf_lt_of_mem _ x _ items h
    rw [array.sizeOf_spec]
    omega
  | map entries =>
    obtain ⟨entry, hentry, hx⟩ := List.mem_flatMap.1 h
    have := List.sizeOf_lt_of_mem hentry
    simp only [List.mem_cons, List.not_mem_nil, or_false] at hx
    rcases hx with rfl | rfl <;> rcases entry with ⟨k, v⟩ <;>
      simp only [map.sizeOf_spec, Prod.mk.sizeOf_spec] at * <;> omega
  | object name fields =>
    obtain ⟨⟨field, v⟩, hf, rfl⟩ := List.mem_map.1 h
    have := List.sizeOf_lt_of_mem hf
    simp only [object.sizeOf_spec, Prod.mk.sizeOf_spec] at *
    omega
  | _ => exact absurd h List.not_mem_nil

/-- What holds of a value whenever it holds of its parts holds of all values. -/
theorem induct {P : Value → Prop} (h : ∀ w, (∀ x ∈ w.parts, P x) → P w) (w : Value) : P w :=
  (measure sizeOf).wf.induction w fun w ih => h w fun x hx => ih x (sizeOf_lt_of_mem_parts hx)

/-- What holds of the parts of a map holds of its keys and values. -/
theorem of_mem_entries {P : Value → Prop} {entries : List (Value × Value)}
    (h : ∀ x ∈ (map entries).parts, P x) {entry : Value × Value} (hentry : entry ∈ entries) :
    P entry.1 ∧ P entry.2 :=
  ⟨h _ (List.mem_flatMap.2 ⟨entry, hentry, by simp⟩),
    h _ (List.mem_flatMap.2 ⟨entry, hentry, by simp⟩)⟩

end Value

/-! ## Decisions -/

namespace Value

/-- The name of a field, or that there is none. -/
def IsField (field : String) : Prop := field = "" ∨ Text.Identifier field

/-- What is expected is said in one word: a type, or the name of a message. -/
def Expected.IsWord : Expected → Prop
  | .message name => Text.Identifier name
  | .fieldOf _ => False
  | _ => True

/-- The errors for values that do not fit. Names that come from the plans are identifiers. But
    an object that is found may have any name, and so may a field that its message does not
    have. -/
inductive Mismatched : Error → Prop
  | value {field : String} {expected : Expected} (k : Kind) : IsField field → expected.IsWord →
    Mismatched (.mismatch field expected (.value k))
  | object {field message : String} (name : String) : IsField field → Text.Identifier message →
    Mismatched (.mismatch field (.message message) (.message name))
  | unknown (field : String) {message : String} : Text.Identifier message →
    Mismatched (.mismatch field (.fieldOf message) .unknownField)

end Value

/-- The computation succeeds if `P` holds, and finds a mismatch if not. -/
def Decides {α : Type} (x : Except Value.Error α) (P : Prop) : Prop :=
  (P ∧ ∃ a, x = .ok a) ∨ (¬P ∧ ∃ e, Mismatched e ∧ x = .error e)

namespace Decides

variable {α β : Type} {x : Except Value.Error α} {P Q : Prop}

theorem ok {a : α} (h : P) : Decides (.ok a) P := .inl ⟨h, a, rfl⟩

/-- An error decides that `P` does not hold, if it is a mismatch. -/
theorem mismatch {e : Value.Error} (he : Mismatched e) (h : ¬P) :
    Decides (.error e : Except Value.Error α) P := .inr ⟨h, e, he, rfl⟩

theorem unexpected {field : String} (hfield : IsField field) (expected : Expected)
    (hexpected : expected.IsWord) {w : Value} (h : ¬P) :
    Decides (unexpected field expected w : Except Value.Error α) P :=
  mismatch (.value w.kind hfield hexpected) h

/-- What decides a property decides any equivalent one. -/
theorem congr (h : Decides x P) (hPQ : P ↔ Q) : Decides x Q := by rwa [Decides, ← hPQ]

theorem exists_ok (hx : Decides x P) (h : P) : ∃ a, x = .ok a :=
  (hx.resolve_right fun hnot => hnot.1 h).2

/-- Two computations in a row decide whether both properties hold. -/
theorem bind {f : α → Except Value.Error β} (hx : Decides x P) (hf : ∀ a, Decides (f a) Q) :
    Decides (x >>= f) (P ∧ Q) := by
  -- The second one is only run if the first one succeeds.
  rcases hx with ⟨hP, a, rfl⟩ | ⟨hP, e, he, rfl⟩
  · exact (hf a).congr (and_iff_right hP).symm
  · exact mismatch he fun h => hP h.1

/-- What is made of the result does not matter. -/
theorem bind_pure (hx : Decides x P) (f : α → β) : Decides (x >>= fun a => pure (f a)) P :=
  (hx.bind fun _ => ok trivial).congr (and_iff_left trivial)

theorem map (hx : Decides x P) (f : α → β) : Decides (f <$> x) P := by
  rcases hx with ⟨hP, a, rfl⟩ | ⟨hP, e, he, rfl⟩
  · exact ok hP
  · exact mismatch he hP

end Decides

/-! ## Values -/

/-- The value is an object that fits the message. -/
def FitsObject (s : CompiledSchema) (p : MessagePlan) (w : Value) : Prop :=
  ∃ fields, w = .object p.name fields ∧ (∀ f ∈ fields, ∃ step ∈ p.steps, step.field = f.1) ∧
    ∀ step ∈ p.steps, ∀ x, Ascending.get? step.field fields = some x → FitsShape s step.shape x

section Fits

variable {s owner : CompiledSchema} {p : MessagePlan} {k v : ValueStep} {e : Extent} {w : Value}

/-- The values that fit a primitive are those that are taken for one of its own. -/
theorem fits_scalar_iff {p : Primitive} : Fits s (.scalar p) w ↔ (p.ofValue? w).isSome := by
  constructor
  · rintro ⟨x⟩
    cases p <;> rfl
  · intro h
    obtain ⟨x, hx⟩ := Option.isSome_iff_exists.1 h
    rw [toValue_of_ofValue? hx]
    exact .scalar x

/-- The values that fit an identity are the objects that fit its message. -/
theorem fits_nested_iff {id : MessageId} (hid : s.messagePlan? id = some (owner, p)) :
    Fits s (.nested id) w ↔ FitsObject owner p w := by
  constructor
  · rintro (_ | _ | ⟨hid', hknown, hfits⟩)
    cases hid.symm.trans hid'
    exact ⟨_, rfl, hknown, hfits⟩
  · rintro ⟨fields, rfl, hknown, hfits⟩
    exact .nested hid hknown hfits

theorem fitsShape_single_iff : FitsShape s (.single v) w ↔ Fits s v w :=
  ⟨fun h => by cases h; assumption, .single⟩

theorem fitsShape_optional_iff : FitsShape s (.optional v) w ↔ Fits s v w :=
  ⟨fun h => by cases h; assumption, .optional⟩

theorem fitsShape_repeated_iff {items : List Value} :
    FitsShape s (.repeated v e) (.array items) ↔ ∀ w ∈ items, Fits s v w :=
  ⟨fun h => by cases h; assumption, .repeated⟩

theorem fitsShape_map_iff {entries : List (Value × Value)} :
    FitsShape s (.map k v e) (.map entries) ↔
      (∀ entry ∈ entries, Fits s k entry.1) ∧ ∀ entry ∈ entries, Fits s v entry.2 :=
  ⟨fun h => by cases h; constructor <;> assumption, fun h => .map h.1 h.2⟩

end Fits

/-- The first of the names that is not one of a field of the message. -/
def MessagePlan.unknown? (p : MessagePlan) (names : List String) : Option String :=
  names.find? fun name => (p.step? name).isNone

namespace Value

/-- Writing the value as that of a field decides whether it fits its shape. -/
def FieldDecided (w : Value) : Prop :=
  ∀ (s : CompiledSchema) (step : Step), s.IsCompiled → (∀ v ∈ step.shape.values, s.Resolves v) →
    IsField step.field → Decides (fieldEncoder w s step) (FitsShape s step.shape w)

/-- Writing the value as an object decides whether it fits the message. -/
def ObjectDecided (w : Value) : Prop :=
  ∀ (s : CompiledSchema) (p : MessagePlan) (field : String), s.IsCompiled → p ∈ s.messages →
    IsField field → Decides (encodeObject w s p field) (FitsObject s p w)

section Encoders

variable {s : CompiledSchema} {p : MessagePlan} {k v : ValueStep} {w : Value} {field : String}

/-- A value that is decided as that of a field is decided by itself. -/
theorem FieldDecided.encodeBy (h : FieldDecided w) (hs : s.IsCompiled) (hv : s.Resolves v)
    (hfield : IsField field) : Decides (w.encodeBy (encodeObject w) s field v) (Fits s v w) := by
  let step : Step := ⟨field, 0, .required, .single v, false, false⟩
  have hstep : ∀ v ∈ step.shape.values, s.Resolves v := fun _ hv' => List.mem_singleton.1 hv' ▸ hv
  exact (h s step hs hstep hfield).congr fitsShape_single_iff

/-- A value that is decided as an object is decided by itself. -/
theorem ObjectDecided.encodeBy (h : ObjectDecided w) (hs : s.IsCompiled) (hv : s.Resolves v)
    (hfield : IsField field) : Decides (w.encodeBy (encodeObject w) s field v) (Fits s v w) := by
  cases v with
  | scalar p =>
    rw [Value.encodeBy]
    split
    · rename_i x hx
      exact .ok (fits_scalar_iff.2 (by rw [hx]; rfl))
    · rename_i hx
      exact .unexpected hfield (.primitive p) trivial fun hfits => by
        simpa [hx] using fits_scalar_iff.1 hfits
  | enum id =>
    cases w with
    | enum n => exact .ok (.enum n)
    | _ => exact .unexpected hfield .enum trivial (by rintro ⟨⟩)
  | nested id =>
    obtain ⟨⟨owner, p⟩, hid⟩ := Option.isSome_iff_exists.1 hv
    obtain ⟨ho, hp⟩ := messagePlan?_eq_some.1 hid
    rw [Value.encodeBy, find_eq_ok.2 hid]
    -- The length in front of an object decides nothing.
    have hdecided := h owner p field (hs.of_owner? ho) (List.mem_of_getElem? hp) hfield
    exact (hdecided.map framed).congr (fits_nested_iff hid).symm

/-- Elements are decided if each of them is. -/
theorem decides_encodeItems {items : List Value}
    (h : ∀ w ∈ items, Decides (w.encodeBy (encodeObject w) s field v) (Fits s v w)) :
    Decides (encodeItems s field v items) (∀ w ∈ items, Fits s v w) := by
  induction items with
  | nil => exact .ok (by simp)
  | cons w items ih =>
    rw [List.forall_mem_cons] at h
    exact (h.1.bind fun _ => (ih h.2).bind_pure _).congr List.forall_mem_cons.symm

/-- Entries are decided if each of their keys and values is. -/
theorem decides_encodeEntries {entries : List (Value × Value)}
    (hk : ∀ x ∈ entries, Decides (x.1.encodeBy (encodeObject x.1) s field k) (Fits s k x.1))
    (hv : ∀ x ∈ entries, Decides (x.2.encodeBy (encodeObject x.2) s field v) (Fits s v x.2)) :
    Decides (encodeEntries s field k v entries)
      ((∀ x ∈ entries, Fits s k x.1) ∧ ∀ x ∈ entries, Fits s v x.2) := by
  induction entries with
  | nil => exact .ok (by simp)
  | cons x entries ih =>
    rw [List.forall_mem_cons] at hk hv
    refine (hk.1.bind fun _ => hv.1.bind fun _ => (ih hk.2 hv.2).bind_pure _).congr ?_
    rw [List.forall_mem_cons, List.forall_mem_cons]
    tauto

/-- Steps are decided if each of them is. -/
theorem decides_encodeStepsBy {encoders : List (String × FieldEncoder)} {Q : Step → Prop}
    {steps : List Step}
    (h : ∀ step ∈ steps,
      Decides (encodeFieldBy (Ascending.get? step.field encoders) s step) (Q step)) :
    Decides (encodeStepsBy encoders s steps) (∀ step ∈ steps, Q step) := by
  induction steps with
  | nil => exact .ok (by simp)
  | cons step steps ih =>
    rw [List.forall_mem_cons] at h
    exact (h.1.bind fun _ => (ih h.2).bind_pure _).congr List.forall_mem_cons.symm

end Encoders

section Object

variable {s : CompiledSchema} {p : MessagePlan} {fields : List (String × Value)}

/-- No name is unknown if every field is that of a step. -/
theorem unknown?_eq_none_iff : p.unknown? (fields.map (·.1)) = none ↔
    ∀ f ∈ fields, ∃ step ∈ p.steps, step.field = f.1 := by
  simp [MessagePlan.unknown?, MessagePlan.step?]

/-- An object of another name is a mismatch. -/
theorem encodeObject_of_ne {name : String} (h : name ≠ p.name) (field : String) :
    encodeObject (.object name fields) s p field =
      .error (.mismatch field (.message p.name) (.message name)) := by
  rw [encodeObject, encodeObjectBy, if_pos h]

/-- The first field that the message does not have is a mismatch. -/
theorem encodeObject_of_unknown {unknown : String}
    (h : p.unknown? (fields.map (·.1)) = some unknown) (field : String) :
    encodeObject (.object p.name fields) s p field =
      .error (.mismatch unknown (.fieldOf p.name) .unknownField) := by
  rw [MessagePlan.unknown?, ← map_fst_fieldEncoders, List.find?_map] at h
  obtain ⟨⟨unknown, encode⟩, hfind, rfl⟩ := Option.map_eq_some_iff.1 h
  have hfind' : (fieldEncoders fields).find? (fun f => (p.step? f.1).isNone) =
      some (unknown, encode) := hfind
  rw [encodeObject, encodeObjectBy, if_neg (not_not_intro rfl), hfind']

/-- An object whose fields are all known is written step by step. -/
theorem encodeObject_of_known (h : p.unknown? (fields.map (·.1)) = none) (field : String) :
    encodeObject (.object p.name fields) s p field =
      encodeStepsBy (fieldEncoders fields) s p.steps := by
  refine encodeObject_eq (fun name hname => ?_) field
  have hsome := List.find?_eq_none.1 h name hname
  simpa [Option.isSome_iff_ne_none] using hsome

/-- Every step is decided by the field of its name, or has a default. -/
theorem decides_fields (hs : s.IsCompiled) (hp : p ∈ s.messages)
    (h : ∀ f ∈ fields, FieldDecided f.2) :
    Decides (encodeStepsBy (fieldEncoders fields) s p.steps) (∀ step ∈ p.steps, ∀ x,
      Ascending.get? step.field fields = some x → FitsShape s step.shape x) := by
  refine decides_encodeStepsBy fun step hstep => ?_
  rw [get?_fieldEncoders]
  cases hget : Ascending.get? step.field fields with
  | none =>
    -- A field that is missing does not hinder, since it has a default.
    obtain ⟨_, b, _, hb, _⟩ := exists_absent hs.wellFormed hp hstep
    rw [Option.map_none, encodeFieldBy, hb]
    exact .ok (by simp)
  | some x =>
    -- A field that is there decides by itself.
    have hx : FieldDecided x := h _ (Ascending.mem_of_get? hget)
    refine (hx s step hs (hs.wellFormed.consistent.resolves p hp step hstep)
      (.inr (hs.identifier_field hp hstep))).congr ?_
    simp

/-- An object is decided if its fields are. -/
theorem objectDecided_object (name : String) (h : ∀ f ∈ fields, FieldDecided f.2) :
    ObjectDecided (.object name fields) := by
  intro s p field hs hp hfield
  have hmessage := hs.identifier_message hp
  -- The name of the object is looked at first, then the names of its fields, then their values.
  by_cases hname : name = p.name
  swap
  · rw [encodeObject_of_ne hname]
    refine .mismatch (.object name hfield hmessage) ?_
    rintro ⟨_, hobject, _⟩
    exact hname (object.inj hobject).1
  subst hname
  cases hunknown : p.unknown? (fields.map (·.1)) with
  | some unknown =>
    rw [encodeObject_of_unknown hunknown]
    refine .mismatch (.unknown unknown hmessage) ?_
    rintro ⟨_, hobject, hknown, _⟩
    obtain rfl := (object.inj hobject).2
    cases hunknown.symm.trans (unknown?_eq_none_iff.2 hknown)
  | none =>
    rw [encodeObject_of_known hunknown]
    refine (decides_fields hs hp h).congr ⟨fun hfits => ?_, ?_⟩
    · exact ⟨fields, rfl, unknown?_eq_none_iff.1 hunknown, hfits⟩
    · rintro ⟨_, hobject, _, hfits⟩
      exact (object.inj hobject).2 ▸ hfits

end Object

/-- Anything but an object fits no message, and is a mismatch. -/
theorem objectDecided_of_ne {w : Value} (h : w.kind ≠ .object) : ObjectDecided w := by
  intro s p field hs hp hfield
  have hnot : ¬FitsObject s p w := by
    rintro ⟨_, rfl, _⟩
    exact h rfl
  cases w with
  | object => exact absurd rfl h
  | _ => exact .unexpected hfield (.message p.name) (hs.identifier_message hp) hnot

/-- A value is decided as an object if its parts are decided as fields. -/
theorem objectDecided_of_parts {w : Value} (h : ∀ x ∈ w.parts, FieldDecided x) :
    ObjectDecided w := by
  cases w with
  | object name fields =>
    exact objectDecided_object name fun f hf => h f.2 (List.mem_map_of_mem hf)
  | _ => exact objectDecided_of_ne (by simp [kind])

/-- All values are decided as fields, by induction on their parts. -/
theorem fieldDecided (w : Value) : FieldDecided w := by
  induction w using Value.induct with
  | h w ih =>
    have hobject := objectDecided_of_parts ih
    rintro s ⟨field, _, _, shape, _, _⟩ hs hv hfield
    have hvalue (v : ValueStep) (h : v ∈ shape.values) :
        Decides (w.encodeBy (encodeObject w) s field v) (Fits s v w) :=
      hobject.encodeBy hs (hv v h) hfield
    -- Only for a sequence or a map are there parts to look at other than those of an object.
    cases shape with
    | single v => exact (hvalue v (by simp [Shape.values])).congr fitsShape_single_iff.symm
    | optional v =>
      exact ((hvalue v (by simp [Shape.values])).map _).congr fitsShape_optional_iff.symm
    | repeated v e =>
      cases w with
      | array items =>
        have hitems : Decides (encodeItems s field v items) (∀ w ∈ items, Fits s v w) :=
          decides_encodeItems fun w hw =>
            (ih w hw).encodeBy hs (hv v (by simp [Shape.values])) hfield
        exact (hitems.map _).congr fitsShape_repeated_iff.symm
      | _ => exact .unexpected hfield .array trivial (by rintro ⟨⟩)
    | map k v e =>
      cases w with
      | map entries =>
        have hentries : Decides (encodeEntries s field k v entries)
            ((∀ x ∈ entries, Fits s k x.1) ∧ ∀ x ∈ entries, Fits s v x.2) :=
          decides_encodeEntries
            (fun x hx =>
              (of_mem_entries ih hx).1.encodeBy hs (hv k (by simp [Shape.values])) hfield)
            fun x hx => (of_mem_entries ih hx).2.encodeBy hs (hv v (by simp [Shape.values])) hfield
        exact (hentries.map _).congr fitsShape_map_iff.symm
      | _ => exact .unexpected hfield .map trivial (by rintro ⟨⟩)

end Value

/-- Writing an object of a message decides whether it fits the message. -/
theorem decides_encode {s : CompiledSchema} (hs : s.IsCompiled) {id : MessageId}
    (hid : (s.messagePlan? id).isSome) (v : Value) :
    Decides (v.encode s id) (Fits s (.nested id) v) := by
  obtain ⟨⟨owner, p⟩, hid⟩ := Option.isSome_iff_exists.1 hid
  obtain ⟨ho, hp⟩ := messagePlan?_eq_some.1 hid
  rw [encode, find_eq_ok.2 hid]
  have hdecided := objectDecided_of_parts (fun x (_ : x ∈ v.parts) => fieldDecided x)
  exact (hdecided owner p "" (hs.of_owner? ho) (List.mem_of_getElem? hp) (.inl rfl)).congr
    (fits_nested_iff hid).symm

/-- A value can be written as an object of a message if and only if it fits the message. If it
    does not, the error is a mismatch. -/
theorem encode_decides {t : ImportTable} (ht : t.Built) {schema : Schema} {s : CompiledSchema}
    (hs : schema.compile t = .ok s) {id : MessageId} (hid : (s.messagePlan? id).isSome)
    (v : Value) :
    ((∃ b, v.encode s id = .ok b) ↔ Fits s (.nested id) v) ∧
      ∀ e, v.encode s id = .error e →
        ∃ field expected found, e = .mismatch field expected found := by
  rcases decides_encode ⟨t, schema, ht, hs⟩ hid v with ⟨hfits, b, hb⟩ | ⟨hfits, e, hmis, he⟩
  · simp [hb, hfits]
  · simp only [he, hfits, reduceCtorEq, exists_false, true_and, Except.error.injEq]
    rintro _ rfl
    cases hmis <;> exact ⟨_, _, _, rfl⟩

open Sample

theorem encode_decides_sprout :
    sprout.encode (compiledTree nodeFields) ⟨.own, 0⟩ = .ok [0, 6, 4, 3, 9, 0, 0] ∧
      Fits (compiledTree nodeFields) (.nested ⟨.own, 0⟩) sprout ∧
      -- The objects of a sequence have to fit as well.
      ¬Fits (compiledTree nodeFields) (.nested ⟨.own, 0⟩)
        (.object "Node" [("children", .array [.object "Leaf" []])]) := by
  have hid : ((compiledTree nodeFields).messagePlan? ⟨.own, 0⟩).isSome := rfl
  have hleaf : (object "Node" [("children", .array [.object "Leaf" []])]).encode
      (compiledTree nodeFields) ⟨.own, 0⟩ =
        .error (.mismatch "children" (.message "Node") (.message "Leaf")) := rfl
  have hdecides := encode_decides .empty compile_tree hid
  refine ⟨encode_sprout, (hdecides _).1.1 ⟨_, encode_sprout⟩, fun hfits => ?_⟩
  obtain ⟨b, hb⟩ := (hdecides _).1.2 hfits
  cases hleaf.symm.trans hb

end Marshal
