import Marshal.Proofs.Extension
import Marshal.Value.Encode

/-!
# Schemas that deprecate fields

Some steps of a schema may be deprecated, in any of its messages and in those of all
that it imports (`CompiledSchema.DeprecatedBy`). This changes nothing about whether
its plans can be followed, and nothing about what is written:

* `defaultBytes_deprecatedBy`: the same is written for defaults, although those of the
  newer schema have fewer fields, since each field that is left out is written as its
  own default in turn;
* `encode_deprecatedBy`: the same is written for every value, or the same error is
  found.
-/

namespace Marshal

open Wire Value CompiledSchema

/-! ## Deprecation -/

/-- The second step is the first one, deprecated or as it was. -/
def Step.DeprecatedBy (old new : Step) : Prop := new = old ∨ new = { old with deprecated := true }

/-- The second plan is the first one with some of its steps deprecated. -/
structure MessagePlan.DeprecatedBy (old new : MessagePlan) : Prop where
  name : new.name = old.name
  steps : List.Forall₂ Step.DeprecatedBy old.steps new.steps

/-- The second schema is the first one with some steps deprecated, in its messages and
    in those of all that it imports. Nothing else of a schema matters to what is
    written and read. -/
inductive CompiledSchema.DeprecatedBy : CompiledSchema → CompiledSchema → Prop
  | intro {old new : CompiledSchema} : new.enums = old.enums →
    List.Forall₂ MessagePlan.DeprecatedBy old.messages new.messages →
    List.Forall₂ DeprecatedBy old.imports new.imports → DeprecatedBy old new

namespace Step.DeprecatedBy

variable {step step' : Step}

theorem field (h : step.DeprecatedBy step') : step'.field = step.field := by
  rcases h with rfl | rfl <;> rfl

/-- A step that is deprecated is laid out as before. -/
theorem shape (h : step.DeprecatedBy step') : step'.shape = step.shape := by
  rcases h with rfl | rfl <;> rfl

/-- Steps do not get back from being deprecated. -/
theorem deprecated (h : step.DeprecatedBy step') (hd : step.deprecated = true) :
    step'.deprecated = true := by
  rcases h with rfl | rfl
  · exact hd
  · rfl

end Step.DeprecatedBy

/-- What is related in two lists is in them. -/
theorem forall₂_mem {α β : Type} {R : α → β → Prop} {l : List α} {l' : List β}
    (h : List.Forall₂ R l l') : List.Forall₂ (fun a b => a ∈ l ∧ b ∈ l' ∧ R a b) l l' := by
  induction h with
  | nil => exact .nil
  | cons hab _ ih =>
    refine .cons ⟨List.mem_cons_self, List.mem_cons_self, hab⟩ (ih.imp fun a b h => ?_)
    exact ⟨List.mem_cons_of_mem _ h.1, List.mem_cons_of_mem _ h.2.1, h.2.2⟩

namespace MessagePlan.DeprecatedBy

variable {p q : MessagePlan}

/-- Deprecating steps changes no name of a field. -/
theorem map_field (h : p.DeprecatedBy q) : q.steps.map (·.field) = p.steps.map (·.field) := by
  have hsteps := h.steps
  generalize p.steps = steps at hsteps ⊢
  generalize q.steps = steps' at hsteps ⊢
  induction hsteps with
  | nil => rfl
  | cons hstep _ ih => rw [List.map_cons, List.map_cons, hstep.field, ih]

/-- Deprecating steps changes nothing about what a message holds by value. -/
theorem valueEdges (h : p.DeprecatedBy q) : q.valueEdges = p.valueEdges := by
  have hsteps := h.steps
  rw [MessagePlan.valueEdges, MessagePlan.valueEdges]
  generalize p.steps = steps at hsteps ⊢
  generalize q.steps = steps' at hsteps ⊢
  induction hsteps with
  | nil => rfl
  | cons hstep _ ih => simp only [List.filterMap_cons, hstep.field, hstep.shape, ih]

/-- A field that is unknown to one of the plans is so to the other. -/
theorem isNone_step? (h : p.DeprecatedBy q) (f : String) :
    (q.step? f).isNone = (p.step? f).isNone := by
  have hsteps := h.steps
  rw [step?, step?]
  generalize p.steps = steps at hsteps ⊢
  generalize q.steps = steps' at hsteps ⊢
  induction hsteps with
  | nil => rfl
  | cons hstep _ ih =>
    rw [List.find?_cons, List.find?_cons, hstep.field]
    split
    · rfl
    · exact ih

end MessagePlan.DeprecatedBy

namespace CompiledSchema.DeprecatedBy

variable {old new : CompiledSchema}

theorem enums (h : old.DeprecatedBy new) : new.enums = old.enums := by
  cases h with
  | intro h _ _ => exact h

theorem messages (h : old.DeprecatedBy new) :
    List.Forall₂ MessagePlan.DeprecatedBy old.messages new.messages := by
  cases h with
  | intro _ h _ => exact h

theorem imports (h : old.DeprecatedBy new) :
    List.Forall₂ CompiledSchema.DeprecatedBy old.imports new.imports := by
  cases h with
  | intro _ _ h => exact h

/-- What an origin stands for is deprecated along with the schema. -/
theorem rel_owner? (h : old.DeprecatedBy new) (origin : Origin) :
    Option.Rel CompiledSchema.DeprecatedBy (old.owner? origin) (new.owner? origin) := by
  cases origin with
  | own => exact .some h
  | imported i => exact rel_getElem? h.imports i

/-- An identity leads to messages of which one has steps of the other deprecated. -/
theorem rel_messagePlan? (h : old.DeprecatedBy new) (id : MessageId) :
    Option.Rel (fun x y => x.1.DeprecatedBy y.1 ∧ x.2.DeprecatedBy y.2)
      (old.messagePlan? id) (new.messagePlan? id) := by
  have howner := h.rel_owner? id.origin
  rw [messagePlan?, messagePlan?]
  generalize old.owner? id.origin = o at howner
  generalize new.owner? id.origin = n at howner
  -- An origin without a schema has none in the other, and likewise an index without a message.
  cases howner with
  | none => exact .none
  | @some o n hon =>
    have hplan := rel_getElem? hon.messages id.index
    change Option.Rel _ ((o.messages[id.index]?).bind _) ((n.messages[id.index]?).bind _)
    generalize o.messages[id.index]? = p at hplan
    generalize n.messages[id.index]? = q at hplan
    cases hplan with
    | none => exact .none
    | some hpq => exact .some ⟨hon, hpq⟩

/-- Enums are the same. -/
theorem enumPlan? (h : old.DeprecatedBy new) (id : EnumId) :
    new.enumPlan? id = old.enumPlan? id := by
  have howner := h.rel_owner? id.origin
  rw [CompiledSchema.enumPlan?, CompiledSchema.enumPlan?]
  generalize old.owner? id.origin = o at howner
  generalize new.owner? id.origin = n at howner
  cases howner with
  | none => rfl
  | some hon => simp [hon.enums]

/-- The same identities are declared. -/
theorem resolves_iff (h : old.DeprecatedBy new) (v : ValueStep) :
    new.Resolves v ↔ old.Resolves v := by
  cases v with
  | scalar p => rfl
  | enum id => simp [Resolves, h.enumPlan? id]
  | nested id =>
    have hid := h.rel_messagePlan? id
    simp only [Resolves]
    generalize old.messagePlan? id = x at hid
    generalize new.messagePlan? id = y at hid
    cases hid <;> simp

/-- An identity that leads to a message leads to the same one with steps deprecated. -/
theorem messagePlan? (h : old.DeprecatedBy new) {o : CompiledSchema} {p : MessagePlan}
    {id : MessageId} (hid : old.messagePlan? id = some (o, p)) :
    ∃ n q, new.messagePlan? id = some (n, q) ∧ o.DeprecatedBy n ∧ p.DeprecatedBy q := by
  have hrel := h.rel_messagePlan? id
  rw [hid] at hrel
  generalize new.messagePlan? id = found at hrel
  cases hrel with
  | @some _ found hfound => exact ⟨found.1, found.2, rfl, hfound.1, hfound.2⟩

theorem messagePlan?_eq_none (h : old.DeprecatedBy new) {id : MessageId}
    (hid : old.messagePlan? id = none) : new.messagePlan? id = none := by
  have hrel := h.rel_messagePlan? id
  rw [hid] at hrel
  generalize new.messagePlan? id = found at hrel
  cases hrel
  rfl

/-- The older schema is consistent if the newer one is. -/
theorem consistent (h : old.DeprecatedBy new) (hnew : new.Consistent) : old.Consistent where
  fields p hp := by
    obtain ⟨q, hq, hpq⟩ := exists_of_mem_left h.messages hp
    rw [← hpq.map_field]
    exact hnew.fields q hq
  resolves p hp step hstep v hv := by
    obtain ⟨q, hq, hpq⟩ := exists_of_mem_left h.messages hp
    obtain ⟨step', hstep', hdeprecated⟩ := exists_of_mem_left hpq.steps hstep
    rw [← hdeprecated.shape] at hv
    exact (h.resolves_iff v).1 (hnew.resolves q hq step' hstep' v hv)
  rank := by
    obtain ⟨rank, hrank⟩ := hnew.rank
    refine ⟨rank, fun i p hp => ?_⟩
    obtain ⟨q, hq, hpq⟩ := exists_of_getElem? h.messages hp
    rw [h.messages.length_eq, ← hpq.valueEdges]
    exact hrank i q hq

/-- What is deprecated does not matter to whether plans can be followed. -/
theorem wellFormed (h : old.DeprecatedBy new) (hnew : new.WellFormed) : old.WellFormed := by
  induction hnew generalizing old with
  | intro hcons _ ih =>
    refine .intro (h.consistent hcons) fun c hc => ?_
    obtain ⟨c', hc', hcc'⟩ := exists_of_mem_left h.imports hc
    exact ih c' hc' hcc'

end CompiledSchema.DeprecatedBy

/-- Two well-formed schemas, of which the second one deprecates fields of the first
    one. -/
structure Deprecates (old new : CompiledSchema) : Prop where
  deprecated : old.DeprecatedBy new
  old : old.WellFormed
  new : new.WellFormed

/-- Every message of the older schema is one of the newer one, with some of its steps deprecated. -/
theorem Deprecates.messagePlan? {old new o : CompiledSchema} (h : Deprecates old new)
    {id : MessageId} {p : MessagePlan} (hid : old.messagePlan? id = some (o, p)) :
    ∃ n q, new.messagePlan? id = some (n, q) ∧ Deprecates o n ∧ p ∈ o.messages ∧ q ∈ n.messages ∧
      p.DeprecatedBy q := by
  obtain ⟨n, q, hid', hon, hpq⟩ := h.deprecated.messagePlan? hid
  obtain ⟨ho, hp⟩ := messagePlan?_eq_some.1 hid
  obtain ⟨hn, hq⟩ := messagePlan?_eq_some.1 hid'
  exact ⟨n, q, hid', ⟨hon, h.old.of_owner? ho, h.new.of_owner? hn⟩, List.mem_of_getElem? hp,
    List.mem_of_getElem? hq, hpq⟩

/-! ## What is written -/

section Absent

variable {bytes bytes' : ValueStep → Except Value.Error Bytes}

/-- What is written for a missing field depends on values only where it has a single one. -/
theorem Shape.absent_congr {shape : Shape} (h : ∀ v, shape = .single v → bytes' v = bytes v) :
    shape.absent bytes' = shape.absent bytes := by
  cases shape with
  | single v => exact h v rfl
  | optional | repeated | map => rfl

/-- The same is written for the missing fields of an object, deprecated or not. -/
theorem absentFields_deprecatedBy {steps steps' : List Step}
    (hsteps : List.Forall₂ Step.DeprecatedBy steps steps')
    (h : ∀ step ∈ steps, ∀ v, step.shape = .single v → bytes' v = bytes v) :
    absentFields bytes' steps' = absentFields bytes steps := by
  induction hsteps with
  | nil => rfl
  | cons hstep _ ih =>
    obtain ⟨hfirst, hrest⟩ := List.forall_mem_cons.1 h
    rw [absentFields, absentFields, hstep.shape, Shape.absent_congr hfirst, ih hrest]

/-- A default is found within as many messages as the rank of the first one asks for. -/
theorem CompiledSchema.WellFormed.exists_defaultWithin {s : CompiledSchema} (hs : s.WellFormed)
    {rank : Nat → Nat}
    (hrank : ∀ i p, s.messages[i]? = some p → ∀ e ∈ p.valueEdges, rank e.2 < rank i) {fuel : Nat}
    {v : ValueStep} (hv : s.Resolves v) (hfuel : ∀ i, v = .nested ⟨.own, i⟩ → rank i < fuel) :
    ∃ w, s.defaultWithin fuel v = .ok w := by
  have himports : ∀ c ∈ s.imports, c.Consistent ∧ ∀ v, c.Resolves v →
      Spells.Default c c.defaultValue c.defaultBytes v := fun c hc =>
    ⟨(hs.of_mem_imports hc).consistent, exists_default (hs.of_mem_imports hc)⟩
  obtain ⟨w, _, hw, _⟩ :=
    CompiledSchema.exists_defaultWithin hs.consistent hrank himports fuel v hv hfuel
  exact ⟨w, hw⟩

/-- Both schemas have the same edges, so what ranks the messages of one ranks those of
    the other. -/
theorem CompiledSchema.DeprecatedBy.rank_lt {old new : CompiledSchema} (h : old.DeprecatedBy new)
    {rank : Nat → Nat}
    (hrank : ∀ i q, new.messages[i]? = some q → ∀ e ∈ q.valueEdges, rank e.2 < rank i) (i : Nat)
    (p : MessagePlan) (hp : old.messages[i]? = some p) : ∀ e ∈ p.valueEdges, rank e.2 < rank i := by
  obtain ⟨q, hq, hpq⟩ := exists_of_getElem? h.messages hp
  rw [← hpq.valueEdges]
  exact hrank i q hq

/-- The same is written for defaults, within any numbers of messages that the rank of the
    first one asks for, if it is in imports. -/
theorem defaultBytesWithin_deprecatedBy {old new : CompiledSchema} (h : Deprecates old new)
    {rank : Nat → Nat}
    (hrank' : ∀ i q, new.messages[i]? = some q → ∀ e ∈ q.valueEdges, rank e.2 < rank i)
    (himports : ∀ o ∈ old.imports, ∀ n, Deprecates o n → ∀ v, o.Resolves v →
      n.defaultBytes v = o.defaultBytes v) (fuel : Nat) :
    ∀ fuel' v, old.Resolves v → (∀ i, v = .nested ⟨.own, i⟩ → rank i < fuel ∧ rank i < fuel') →
      new.defaultBytesWithin fuel' v = old.defaultBytesWithin fuel v := by
  have hrank := h.deprecated.rank_lt hrank'
  induction fuel using Nat.strongRecOn with
  | ind fuel ih =>
    intro fuel' v hv hfuel
    cases v with
    | scalar p => rw [defaultBytesWithin_scalar, defaultBytesWithin_scalar]
    | enum id =>
      rw [defaultBytesWithin_enum, defaultBytesWithin_enum, defaultEnum, defaultEnum,
        h.deprecated.enumPlan?]
    | nested id =>
      -- Both schemas have a default, without which nothing would be written.
      obtain ⟨w, hw⟩ := h.old.exists_defaultWithin hrank hv fun i hi => (hfuel i hi).1
      obtain ⟨w', hw'⟩ := h.new.exists_defaultWithin hrank' ((h.deprecated.resolves_iff _).2 hv)
        fun i hi => (hfuel i hi).2
      obtain ⟨⟨o, p⟩, hid⟩ := Option.isSome_iff_exists.1 hv
      obtain ⟨n, q, hid', hon, hp, hq, hpq⟩ := h.messagePlan? hid
      obtain ⟨ho, hpi⟩ := messagePlan?_eq_some.1 hid
      obtain ⟨hn, hqi⟩ := messagePlan?_eq_some.1 hid'
      obtain ⟨_ | j, i⟩ := id
      · cases Option.some.inj ho
        cases Option.some.inj hn
        obtain ⟨hi, hi'⟩ := hfuel i rfl
        obtain ⟨fuel, rfl⟩ := Nat.exists_eq_succ_of_ne_zero (Nat.ne_zero_of_lt hi)
        obtain ⟨fuel', rfl⟩ := Nat.exists_eq_succ_of_ne_zero (Nat.ne_zero_of_lt hi')
        rw [defaultBytesWithin_own hpi hw, defaultBytesWithin_own hqi hw']
        refine congrArg _ (absentFields_deprecatedBy hpq.steps fun step hstep v hshape => ?_)
        refine ih fuel (Nat.lt_succ_self _) fuel' v
          (resolves_single h.old.consistent hp hstep hshape) fun i' hv' => ?_
        have hedge := MessagePlan.mem_valueEdges.2 ⟨step, hstep, rfl, hv' ▸ hshape⟩
        have hlt := hrank i p hpi _ hedge
        exact ⟨Nat.lt_of_lt_of_le hlt (Nat.le_of_lt_succ hi),
          Nat.lt_of_lt_of_le hlt (Nat.le_of_lt_succ hi')⟩
      · rw [defaultBytesWithin_imported ho hpi hw, defaultBytesWithin_imported hn hqi hw']
        refine congrArg _ (absentFields_deprecatedBy hpq.steps fun step hstep v hshape => ?_)
        exact himports o (List.mem_of_getElem? ho) n hon v
          (resolves_single hon.old.consistent hp hstep hshape)

/-- The same is written for the defaults of both schemas. -/
theorem defaultBytes_deprecatedBy {old new : CompiledSchema} (h : Deprecates old new) :
    ∀ v, old.Resolves v → new.defaultBytes v = old.defaultBytes v := by
  obtain ⟨hdeprecated, hold, hnew⟩ := h
  induction hold generalizing new with
  | @intro old hcons himports ih =>
    intro v hv
    have h : Deprecates old new := ⟨hdeprecated, .intro hcons himports, hnew⟩
    -- By induction on the imports of the older schema, with the messages of this one ranked.
    obtain ⟨rank, hrank⟩ := hnew.consistent.rank
    rw [defaultBytes, defaultBytes]
    refine defaultBytesWithin_deprecatedBy h (fun i q hq => (hrank i q hq).2)
      (fun o ho n hon => ih o ho hon.deprecated hon.new) _ _ v hv fun i hi => ?_
    subst hi
    obtain ⟨q, hq, -⟩ := messages_of_resolves ((hdeprecated.resolves_iff _).2 hv)
    have hi := (hrank i q hq).1
    exact ⟨hdeprecated.messages.length_eq ▸ hi, hi⟩

end Absent

namespace Value

section Unchanged

/-- The encoder of a field writes the same for it once more is deprecated. -/
def FieldUnchanged (encode : FieldEncoder) : Prop :=
  ∀ (old new : CompiledSchema) (step step' : Step), Deprecates old new → step.DeprecatedBy step' →
    encode new step' = encode old step

/-- The same is written for the value as an object once more is deprecated. -/
def ObjectUnchanged (w : Value) : Prop :=
  ∀ (old new : CompiledSchema) (p q : MessagePlan) (field : String), Deprecates old new →
    p ∈ old.messages → p.DeprecatedBy q → encodeObject w new q field = encodeObject w old p field

/-- The same is written for the value as a sequence once more is deprecated. -/
def ArrayUnchanged (w : Value) : Prop :=
  ∀ (old new : CompiledSchema) (field : String) (v : ValueStep) (e : Extent), Deprecates old new →
    encodeArray w new field v e = encodeArray w old field v e

/-- The same is written for the value as a map once more is deprecated. -/
def MapUnchanged (w : Value) : Prop :=
  ∀ (old new : CompiledSchema) (field : String) (k v : ValueStep) (e : Extent),
    Deprecates old new → encodeMap w new field k v e = encodeMap w old field k v e

variable {old new : CompiledSchema} {w : Value}

/-- The same is written for the steps of a message, given encoders that write the same. -/
theorem encodeStepsBy_deprecatedBy (h : Deprecates old new) {p : MessagePlan}
    (hp : p ∈ old.messages) {encoders : List (String × FieldEncoder)}
    (hencoders : ∀ f, ∀ encode ∈ Ascending.get? f encoders, FieldUnchanged encode)
    {steps steps' : List Step} (hsteps : List.Forall₂ Step.DeprecatedBy steps steps')
    (hsub : steps ⊆ p.steps) :
    encodeStepsBy encoders new steps' = encodeStepsBy encoders old steps := by
  induction hsteps with
  | nil => rfl
  | @cons step step' _ _ hstep _ ih =>
    obtain ⟨hmem, hsub⟩ := List.cons_subset.1 hsub
    have hfield : encodeFieldBy (Ascending.get? step'.field encoders) new step' =
        encodeFieldBy (Ascending.get? step.field encoders) old step := by
      rw [hstep.field]
      cases hencode : Ascending.get? step.field encoders with
      -- A field that is there is written by its encoder, and one that is missing as its default.
      | some encode => exact hencoders _ _ hencode old new step step' h hstep
      | none =>
        rw [encodeFieldBy, encodeFieldBy, hstep.shape]
        exact Shape.absent_congr fun v hv =>
          defaultBytes_deprecatedBy h v (resolves_single h.old.consistent hp hmem hv)
    rw [encodeStepsBy, encodeStepsBy, hfield, ih hsub]

/-- The same is written for a value if it is for an object. -/
theorem encodeBy_deprecatedBy (hw : ObjectUnchanged w) (h : Deprecates old new) (field : String)
    (v : ValueStep) :
    w.encodeBy (encodeObject w) new field v = w.encodeBy (encodeObject w) old field v := by
  cases v with
  | scalar p => rfl
  | enum id => rfl
  | nested id =>
    rw [encodeBy, encodeBy]
    -- An identity that is not declared is not declared by the newer schema either.
    cases hid : old.messagePlan? id with
    | none => rw [find, find, hid, h.deprecated.messagePlan?_eq_none hid]
    | some found =>
      obtain ⟨n, q, hid', hon, hp, -, hpq⟩ := h.messagePlan? hid
      rw [find_eq_ok.2 hid, find_eq_ok.2 hid']
      exact congrArg (framed <$> ·) (hw _ n _ q field hon hp hpq)

/-- The same is written for a field if it is for an object, a sequence and a map. -/
theorem encodePresentBy_deprecatedBy (hobject : ObjectUnchanged w) (harray : ArrayUnchanged w)
    (hmap : MapUnchanged w) :
    FieldUnchanged (encodePresentBy w (encodeObject w) (encodeArray w) (encodeMap w)) := by
  intro old new step step' h hstep
  rw [encodePresentBy, encodePresentBy, hstep.field, hstep.shape]
  cases step.shape with
  | single v => exact encodeBy_deprecatedBy hobject h step.field v
  | optional v =>
    exact congrArg ((Primitive.bool.write true ++ ·) <$> ·)
      (encodeBy_deprecatedBy hobject h step.field v)
  | repeated v e => exact harray old new step.field v e h
  | map k v e => exact hmap old new step.field k v e h

end Unchanged

mutual

/-- The same is written for every object, by induction on the value. -/
theorem objectUnchanged : ∀ w : Value, ObjectUnchanged w
  | .object name fields => by
    intro old new p q field h hp hpq
    rw [encodeObject, encodeObjectBy, encodeObjectBy, hpq.name,
      encodeStepsBy_deprecatedBy h hp (fieldsUnchanged fields) hpq.steps (List.Subset.refl _)]
    simp only [hpq.isNone_step?]
  | .bool _ | .u32 _ | .u64 _ | .i32 _ | .i64 _ | .f32 _ | .f64 _ | .string _ | .bytes _ | .enum _
  | .array _ | .map _ => by
    intro old new p q field _ _ hpq
    simp only [encodeObject, hpq.name]

/-- The same is written for elements. -/
theorem encodeItems_deprecatedBy {old new : CompiledSchema} (h : Deprecates old new)
    (field : String) (v : ValueStep) : ∀ items : List Value,
      encodeItems new field v items = encodeItems old field v items
  | [] => rfl
  | w :: items => by
    rw [encodeItems, encodeItems, encodeBy_deprecatedBy (objectUnchanged w) h,
      encodeItems_deprecatedBy h field v items]

/-- The same is written for keys and values. -/
theorem encodeEntries_deprecatedBy {old new : CompiledSchema} (h : Deprecates old new)
    (field : String) (k v : ValueStep) : ∀ entries : List (Value × Value),
      encodeEntries new field k v entries = encodeEntries old field k v entries
  | [] => rfl
  | (x, w) :: entries => by
    rw [encodeEntries, encodeEntries, encodeBy_deprecatedBy (objectUnchanged x) h,
      encodeBy_deprecatedBy (objectUnchanged w) h, encodeEntries_deprecatedBy h field k v entries]

/-- The same is written for every sequence. -/
theorem arrayUnchanged : ∀ w : Value, ArrayUnchanged w
  | .array items => by
    intro old new field v e h
    exact congrArg (e.write items.length <$> ·) (encodeItems_deprecatedBy h field v items)
  | .bool _ | .u32 _ | .u64 _ | .i32 _ | .i64 _ | .f32 _ | .f64 _ | .string _ | .bytes _ | .enum _
  | .map _ | .object _ _ => fun _ _ _ _ _ _ => rfl

/-- The same is written for every map. -/
theorem mapUnchanged : ∀ w : Value, MapUnchanged w
  | .map entries => by
    intro old new field k v e h
    exact congrArg (e.write entries.length <$> ·) (encodeEntries_deprecatedBy h field k v entries)
  | .bool _ | .u32 _ | .u64 _ | .i32 _ | .i64 _ | .f32 _ | .f64 _ | .string _ | .bytes _ | .enum _
  | .array _ | .object _ _ => fun _ _ _ _ _ _ _ => rfl

/-- The same is written for every field of an object. -/
theorem fieldsUnchanged : ∀ (fields : List (String × Value)) (f : String),
    ∀ encode ∈ Ascending.get? f (fieldEncoders fields), FieldUnchanged encode
  | [], _, _, hencode => nomatch hencode
  | (name, w) :: fields, f, encode, hencode => by
    rw [fieldEncoders, Ascending.get?] at hencode
    split at hencode
    · -- This is the first field of the name, or it is among the others.
      cases Option.some.inj hencode
      exact encodePresentBy_deprecatedBy (objectUnchanged w) (arrayUnchanged w) (mapUnchanged w)
    · exact fieldsUnchanged fields f encode hencode

end

/-- The same is written for every value once more is deprecated. -/
theorem encode_deprecatedBy {old new : CompiledSchema} (h : Deprecates old new) (w : Value)
    (id : MessageId) : w.encode new id = w.encode old id := by
  rw [encode, encode]
  cases hid : old.messagePlan? id with
  | none => rw [find, find, hid, h.deprecated.messagePlan?_eq_none hid]
  | some found =>
    obtain ⟨n, q, hid', hon, hp, -, hpq⟩ := h.messagePlan? hid
    rw [find_eq_ok.2 hid, find_eq_ok.2 hid']
    exact objectUnchanged w _ n _ q "" hon hp hpq

end Value

end Marshal
