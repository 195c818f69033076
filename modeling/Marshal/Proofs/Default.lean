import Marshal.Proofs.Compiled
import Marshal.Proofs.Spelling

/-!
# Defaults exist and are spelt as they are written

What stands in for a missing field is told by its shape (`StandsIn`): the zero of a
scalar, the first symbol of an enum, an object of a nested message in which every
field is missing, an empty sequence or map, and nothing for an optional field. No
schema has two answers to this (`StandsIn.unique`), and a well-formed one has an
answer. Going from a message to one it holds by value makes the rank smaller, and
going to an import makes the schema smaller, so that the search for a default ends
before it runs out of messages.

* `exists_default`, `exists_absent`: a default is found for every value and every
  field, it is the one that stands in, and what is written for it spells it;
* `defaultsStandIn`: this holds throughout a schema.
-/

namespace Marshal

open Wire

mutual

/-- The value stands in for a missing one. -/
inductive IsDefault : CompiledSchema → ValueStep → Value → Prop
  | scalar {s : CompiledSchema} {p : Primitive} : IsDefault s (.scalar p) (p.toValue p.zero)
  | enum {s : CompiledSchema} {id : EnumId} {plan : EnumPlan} :
    s.enumPlan? id = some plan → IsDefault s (.enum id) (.enum plan.default)
  | nested {s owner : CompiledSchema} {id : MessageId} {plan : MessagePlan}
      {fields : List (String × Value)} :
    s.messagePlan? id = some (owner, plan) → StandInFor owner plan.steps fields →
    IsDefault s (.nested id) (.record plan.name fields)

/-- The value, or its absence, stands in for a missing field. -/
inductive StandsIn : CompiledSchema → Shape → Option Value → Prop
  | single {s : CompiledSchema} {v : ValueStep} {w : Value} :
    IsDefault s v w → StandsIn s (.single v) (some w)
  | optional {s : CompiledSchema} {v : ValueStep} : StandsIn s (.optional v) none
  | repeated {s : CompiledSchema} {v : ValueStep} {e : Extent} :
    StandsIn s (.repeated v e) (some (.array []))
  | map {s : CompiledSchema} {k v : ValueStep} {e : Extent} :
    StandsIn s (.map k v e) (some (.map []))

/-- The fields stand in for those of an object of which all are missing. There are
    none of deprecated steps. -/
inductive StandInFor : CompiledSchema → List Step → List (String × Value) → Prop
  | nil {s : CompiledSchema} : StandInFor s [] []
  | cons {s : CompiledSchema} {step : Step} {steps : List Step} {w : Option Value}
      {fields : List (String × Value)} :
    StandsIn s step.shape w → StandInFor s steps fields →
    StandInFor s (step :: steps) (step.put (if step.deprecated then none else w) fields)

end

mutual

/-- No more than one value stands in for a missing one. -/
theorem IsDefault.unique {s : CompiledSchema} {v : ValueStep} {w w' : Value} :
    IsDefault s v w → IsDefault s v w' → w = w'
  | .scalar, .scalar => rfl
  | .enum h, .enum h' => by
    cases h.symm.trans h'
    rfl
  | .nested h hf, .nested h' hf' => by
    cases h.symm.trans h'
    rw [hf.unique hf']

/-- No more than one value, or its absence, stands in for a missing field. -/
theorem StandsIn.unique {s : CompiledSchema} {shape : Shape} {w w' : Option Value} :
    StandsIn s shape w → StandsIn s shape w' → w = w'
  | .single h, .single h' => by rw [h.unique h']
  | .optional, .optional | .repeated, .repeated | .map, .map => rfl

/-- No more than one list of fields stands in for those of an object. -/
theorem StandInFor.unique {s : CompiledSchema} {steps : List Step}
    {fields fields' : List (String × Value)} :
    StandInFor s steps fields → StandInFor s steps fields' → fields = fields'
  | .nil, .nil => rfl
  | .cons h hf, .cons h' hf' => by rw [h.unique h', hf.unique hf']

end

/-! ## Fields, given values -/

section Fields

variable {s : CompiledSchema} {value : ValueStep → Except Value.Error Value}
  {bytes : ValueStep → Except Value.Error Bytes}

/-- What stands in for a missing value is found, and what is written for it spells
    it. -/
def Spells.Default (s : CompiledSchema) (value : ValueStep → Except Value.Error Value)
    (bytes : ValueStep → Except Value.Error Bytes) (v : ValueStep) : Prop :=
  ∃ w b, value v = .ok w ∧ bytes v = .ok b ∧ IsDefault s v w ∧ Spells s v w b

/-- A missing field has a default if its value has, where it has a single one. -/
theorem Shape.exists_absent {shape : Shape}
    (h : ∀ v, shape = .single v → Spells.Default s value bytes v) :
    ∃ w b, shape.default? value = .ok w ∧ shape.absent bytes = .ok b ∧ StandsIn s shape w ∧
      SpellsShape s shape w b := by
  cases shape with
  | single v =>
    obtain ⟨w, b, hw, hb, hd, hs⟩ := h v rfl
    exact ⟨some w, b, map_eq_ok.2 ⟨w, hw, rfl⟩, hb, .single hd, .single hs⟩
  | optional v => exact ⟨none, _, rfl, rfl, .optional, .absent⟩
  | repeated v e => exact ⟨some (.array []), _, rfl, rfl, .repeated, .repeated e .nil⟩
  | map k v e => exact ⟨some (.map []), _, rfl, rfl, .map, .map e .nil⟩

/-- The fields of an object that has none of its own are found one after the other, and spelt one
    after the other. What is spelt for a deprecated step is no field. -/
theorem exists_absentFields {steps : List Step}
    (h : ∀ step ∈ steps, ∀ v, step.shape = .single v → Spells.Default s value bytes v) :
    ∃ fields b, defaultFields value steps = .ok fields ∧ absentFields bytes steps = .ok b ∧
      StandInFor s steps fields ∧ SpellsFields s steps fields b := by
  induction steps with
  | nil => exact ⟨[], [], rfl, rfl, .nil, .nil⟩
  | cons step steps ih =>
    obtain ⟨w, b, hw, hb, hd, hs⟩ := Shape.exists_absent (h step List.mem_cons_self)
    obtain ⟨fields, bs, hfields, hbs, hds, hss⟩ :=
      ih fun step hstep => h step (List.mem_cons_of_mem _ hstep)
    have habsent : absentFields bytes (step :: steps) = .ok (b ++ bs) := by
      rw [absentFields, hb, hbs]
      rfl
    have hdefault : defaultFields value (step :: steps) =
        .ok (step.put (if step.deprecated then none else w) fields) := by
      rw [defaultFields, hw, hfields]
      cases step.deprecated <;> rfl
    exact ⟨_, _, hdefault, habsent, .cons hd hds, .cons hs hss⟩

/-- The default of a message is made of those of its fields. -/
theorem Spells.Default.nested {owner : CompiledSchema} {id : MessageId} {plan : MessagePlan}
    (hid : s.messagePlan? id = some (owner, plan))
    {value' : ValueStep → Except Value.Error Value} {bytes' : ValueStep → Except Value.Error Bytes}
    (h : ∀ step ∈ plan.steps, ∀ v, step.shape = .single v → Spells.Default owner value' bytes' v)
    (hvalue : value (.nested id) = .record plan.name <$> defaultFields value' plan.steps)
    (hbytes : ∀ w, value (.nested id) = .ok w →
      bytes (.nested id) = framed <$> absentFields bytes' plan.steps) :
    Spells.Default s value bytes (.nested id) := by
  obtain ⟨fields, b, hfields, hb, hd, hs⟩ := exists_absentFields h
  rw [hfields] at hvalue
  replace hbytes := hbytes _ hvalue
  rw [hb] at hbytes
  exact ⟨_, _, hvalue, hbytes, .nested hid hd, .nested hid hs⟩

end Fields

/-! ## Values -/

namespace CompiledSchema

variable {s : CompiledSchema}

/-- An identity of the schema itself is that of one of its messages. -/
theorem messages_of_resolves {i : Nat} (h : s.Resolves (.nested ⟨.own, i⟩)) :
    ∃ plan, s.messages[i]? = some plan ∧ s.messagePlan? ⟨.own, i⟩ = some (s, plan) := by
  obtain ⟨⟨owner, plan⟩, hplan⟩ := Option.isSome_iff_exists.1 h
  obtain ⟨ho, hp⟩ := messagePlan?_eq_some.1 hplan
  cases Option.some.inj ho
  exact ⟨plan, hp, hplan⟩

/-- An identity of an import is that of a message of it. -/
theorem imports_of_resolves {j i : Nat} (h : s.Resolves (.nested ⟨.imported j, i⟩)) :
    ∃ owner plan, s.imports[j]? = some owner ∧ owner.messages[i]? = some plan ∧
      s.messagePlan? ⟨.imported j, i⟩ = some (owner, plan) := by
  obtain ⟨⟨owner, plan⟩, hplan⟩ := Option.isSome_iff_exists.1 h
  obtain ⟨ho, hp⟩ := messagePlan?_eq_some.1 hplan
  exact ⟨owner, plan, ho, hp, hplan⟩

theorem resolves_single (hs : s.Consistent) {p : MessagePlan} (hp : p ∈ s.messages) {step : Step}
    (hstep : step ∈ p.steps) {v : ValueStep} (h : step.shape = .single v) : s.Resolves v :=
  hs.resolves p hp step hstep v (by rw [h]; exact List.mem_singleton_self v)

/-! ### Unfolding -/

/-- Imports have as many steps to go as they have messages. -/
theorem defaultsOf_eq_map (schemas : List CompiledSchema) :
    defaultsOf schemas = schemas.map (·.defaultValue) := by
  induction schemas with
  | nil => rfl
  | cons s rest ih => exact congrArg (s.defaultValue :: ·) ih

/-- Going from a schema to its imports there are messages enough again. -/
theorem defaultWithin_eq (s : CompiledSchema) :
    s.defaultWithin = s.defaultBy (s.imports.map (·.defaultValue)) := by
  cases s
  rw [defaultWithin, defaultsOf_eq_map]

@[simp]
theorem defaultWithin_scalar (s : CompiledSchema) (fuel : Nat) (p : Primitive) :
    s.defaultWithin fuel (.scalar p) = .ok (p.toValue p.zero) := by
  rw [defaultWithin_eq, defaultBy]

@[simp]
theorem defaultWithin_enum (s : CompiledSchema) (fuel : Nat) (id : EnumId) :
    s.defaultWithin fuel (.enum id) = .ok (.enum (s.defaultEnum id)) := by
  rw [defaultWithin_eq, defaultBy]

/-- A message of the schema takes one step, which its fields do not have any more. -/
theorem defaultWithin_own {i : Nat} {plan : MessagePlan} (h : s.messages[i]? = some plan)
    (fuel : Nat) : s.defaultWithin (fuel + 1) (.nested ⟨.own, i⟩) =
      .record plan.name <$> defaultFields (s.defaultWithin fuel) plan.steps := by
  rw [defaultWithin_eq, defaultBy, h]

/-- A message of an import starts over, whatever steps are left. -/
theorem defaultWithin_imported {j i : Nat} {owner : CompiledSchema} {plan : MessagePlan}
    (ho : s.imports[j]? = some owner) (h : owner.messages[i]? = some plan) (fuel : Nat) :
    s.defaultWithin fuel (.nested ⟨.imported j, i⟩) =
      .record plan.name <$> defaultFields owner.defaultValue plan.steps := by
  have hplan : s.messagePlan? ⟨.imported j, i⟩ = some (owner, plan) :=
    messagePlan?_eq_some.2 ⟨ho, h⟩
  have himport : (s.imports.map (·.defaultValue))[j]? = some owner.defaultValue := by
    rw [List.getElem?_map, ho, Option.map_some]
  rw [defaultWithin_eq, defaultBy, hplan, himport]

theorem defaultBytesOf_eq_map (schemas : List CompiledSchema) :
    defaultBytesOf schemas = schemas.map (·.defaultBytes) := by
  induction schemas with
  | nil => rfl
  | cons s rest ih => exact congrArg (s.defaultBytes :: ·) ih

theorem defaultBytesWithin_eq (s : CompiledSchema) :
    s.defaultBytesWithin = s.defaultBytesBy (s.imports.map (·.defaultBytes)) := by
  cases s
  rw [defaultBytesWithin, defaultBytesOf_eq_map]

@[simp]
theorem defaultBytesWithin_scalar (s : CompiledSchema) (fuel : Nat) (p : Primitive) :
    s.defaultBytesWithin fuel (.scalar p) = .ok (p.write p.zero) := by
  rw [defaultBytesWithin_eq, defaultBytesBy]

@[simp]
theorem defaultBytesWithin_enum (s : CompiledSchema) (fuel : Nat) (id : EnumId) :
    s.defaultBytesWithin fuel (.enum id) =
      .ok (Primitive.ofEnum.write (s.defaultEnum id).toUInt32) := by
  rw [defaultBytesWithin_eq, defaultBytesBy]

/-- What is written for a message takes a step as well, once its default is found. -/
theorem defaultBytesWithin_own {i : Nat} {plan : MessagePlan} (h : s.messages[i]? = some plan)
    {fuel : Nat} {w : Value} (hw : s.defaultWithin (fuel + 1) (.nested ⟨.own, i⟩) = .ok w) :
    s.defaultBytesWithin (fuel + 1) (.nested ⟨.own, i⟩) =
      framed <$> absentFields (s.defaultBytesWithin fuel) plan.steps := by
  rw [defaultBytesWithin_eq, defaultBytesBy, hw, h]
  rfl

theorem defaultBytesWithin_imported {j i : Nat} {owner : CompiledSchema} {plan : MessagePlan}
    (ho : s.imports[j]? = some owner) (h : owner.messages[i]? = some plan) {fuel : Nat} {w : Value}
    (hw : s.defaultWithin fuel (.nested ⟨.imported j, i⟩) = .ok w) :
    s.defaultBytesWithin fuel (.nested ⟨.imported j, i⟩) =
      framed <$> absentFields owner.defaultBytes plan.steps := by
  have hplan : s.messagePlan? ⟨.imported j, i⟩ = some (owner, plan) :=
    messagePlan?_eq_some.2 ⟨ho, h⟩
  have himport : (s.imports.map (·.defaultBytes))[j]? = some owner.defaultBytes := by
    rw [List.getElem?_map, ho, Option.map_some]
  rw [defaultBytesWithin_eq, defaultBytesBy, hw, hplan, himport]
  rfl

/-! ### Existence -/

/-- A default is found within as many messages as the rank of the first one asks
    for, if those of imports are found. -/
theorem exists_defaultWithin (hs : s.Consistent) {rank : Nat → Nat}
    (hrank : ∀ i p, s.messages[i]? = some p → ∀ e ∈ p.valueEdges, rank e.2 < rank i)
    (himports : ∀ c ∈ s.imports, c.Consistent ∧ ∀ v, c.Resolves v →
      Spells.Default c c.defaultValue c.defaultBytes v) (fuel : Nat) :
    ∀ v, s.Resolves v → (∀ i, v = .nested ⟨.own, i⟩ → rank i < fuel) →
      Spells.Default s (s.defaultWithin fuel) (s.defaultBytesWithin fuel) v := by
  induction fuel using Nat.strongRecOn with
  | ind fuel ih =>
    intro v hv hfuel
    cases v with
    | scalar p =>
      exact ⟨_, _, defaultWithin_scalar s fuel p, defaultBytesWithin_scalar s fuel p, .scalar,
        .scalar p.zero⟩
    | enum id =>
      obtain ⟨plan, hplan⟩ := Option.isSome_iff_exists.1 hv
      have henum : s.defaultEnum id = plan.default := by rw [defaultEnum, hplan]
      refine ⟨_, _, defaultWithin_enum s fuel id, defaultBytesWithin_enum s fuel id, ?_, .enum _⟩
      rw [henum]
      exact .enum hplan
    | nested id =>
      obtain ⟨_ | j, i⟩ := id
      · -- Among the own messages, those held by value have a smaller rank.
        have hi := hfuel i rfl
        obtain ⟨fuel, rfl⟩ := Nat.exists_eq_succ_of_ne_zero (Nat.ne_zero_of_lt hi)
        obtain ⟨plan, hplan, hid⟩ := messages_of_resolves hv
        refine .nested hid (fun step hstep v hshape => ?_) (defaultWithin_own hplan fuel)
          fun w hw => defaultBytesWithin_own hplan hw
        have hres := resolves_single hs (List.mem_of_getElem? hplan) hstep hshape
        refine ih fuel (Nat.lt_succ_self _) v hres fun i' hv' => ?_
        have hedge := MessagePlan.mem_valueEdges.2 ⟨step, hstep, rfl, hv' ▸ hshape⟩
        have hlt := hrank i plan hplan _ hedge
        exact Nat.lt_of_lt_of_le hlt (Nat.le_of_lt_succ hi)
      · -- Those of an import have defaults there already.
        obtain ⟨owner, plan, howner, hplan, hid⟩ := imports_of_resolves hv
        obtain ⟨hcons, hdefault⟩ := himports owner (List.mem_of_getElem? howner)
        refine .nested hid (fun step hstep v hshape => ?_)
          (defaultWithin_imported howner hplan fuel)
          fun w hw => defaultBytesWithin_imported howner hplan hw
        exact hdefault v (resolves_single hcons (List.mem_of_getElem? hplan) hstep hshape)

/-- Every value of a well-formed schema has a default. -/
theorem exists_default (hs : s.WellFormed) :
    ∀ v, s.Resolves v → Spells.Default s s.defaultValue s.defaultBytes v := by
  induction hs with
  | @intro s hcons himports ih =>
    intro v hv
    obtain ⟨rank, hrank⟩ := hcons.rank
    refine exists_defaultWithin hcons (fun i p hp => (hrank i p hp).2)
      (fun c hc => ⟨(himports c hc).consistent, ih c hc⟩) s.messages.length v hv fun i hi => ?_
    obtain ⟨plan, hplan, _⟩ := messages_of_resolves (hi ▸ hv)
    exact (hrank i plan hplan).1

/-- Every field of a well-formed schema has a default, which may be to be absent. -/
theorem exists_absent (hs : s.WellFormed) {p : MessagePlan} (hp : p ∈ s.messages) {step : Step}
    (hstep : step ∈ p.steps) :
    ∃ w b, s.defaultStep step = .ok w ∧ step.shape.absent s.defaultBytes = .ok b ∧
      StandsIn s step.shape w ∧ SpellsShape s step.shape w b :=
  Shape.exists_absent fun v hv => exists_default hs v (resolves_single hs.consistent hp hstep hv)

/-! ## The defaults of a schema -/

/-- The default of a field, if it has one. -/
def default? (s : CompiledSchema) (step : Step) : Option Value :=
  match s.defaultStep step with
  | .ok w => w
  | .error _ => none

theorem defaultStep_eq (hs : s.WellFormed) {p : MessagePlan} (hp : p ∈ s.messages) {step : Step}
    (hstep : step ∈ p.steps) : s.defaultStep step = .ok (s.default? step) := by
  obtain ⟨w, _, hw, _⟩ := exists_absent hs hp hstep
  rw [default?, hw]

theorem standsIn_default? (hs : s.WellFormed) {p : MessagePlan} (hp : p ∈ s.messages) {step : Step}
    (hstep : step ∈ p.steps) : StandsIn s step.shape (s.default? step) := by
  obtain ⟨w, _, hw, _, hd, _⟩ := exists_absent hs hp hstep
  rw [default?, hw]
  exact hd

/-- In a schema and in all that it imports, the default of every field is what stands
    in for it. -/
inductive DefaultsStandIn : CompiledSchema → Prop
  | intro {s : CompiledSchema} :
    (∀ p ∈ s.messages, ∀ step ∈ p.steps, StandsIn s step.shape (s.default? step)) →
    (∀ c ∈ s.imports, DefaultsStandIn c) → DefaultsStandIn s

theorem WellFormed.defaultsStandIn (hs : s.WellFormed) : s.DefaultsStandIn := by
  induction hs with
  | intro hcons himports ih =>
    exact .intro (fun _ hp _ hstep => standsIn_default? (.intro hcons himports) hp hstep) ih

end CompiledSchema

/-- The fields of an object, given the value of every step that has one. There are
    none of deprecated steps. -/
def fieldsBy (value : Step → Option Value) (steps : List Step) : List (String × Value) :=
  steps.filterMap fun step => if step.deprecated then none else (value step).map (step.field, ·)

theorem fieldsBy_cons (value : Step → Option Value) (step : Step) (steps : List Step) :
    fieldsBy value (step :: steps) =
      step.put (if step.deprecated then none else value step) (fieldsBy value steps) := by
  rw [fieldsBy, List.filterMap_cons, fieldsBy]
  cases step.deprecated with
  | true => rfl
  | false => cases value step <;> rfl

/-- The defaults of the fields that are not deprecated. -/
def CompiledSchema.defaults (s : CompiledSchema) (steps : List Step) : List (String × Value) :=
  fieldsBy s.default? steps

end Marshal
