import Marshal.Proofs.Ascending
import Marshal.Proofs.Decoding
import Marshal.Proofs.Default
import Marshal.Proofs.Rebuild

/-!
# Schemas that extend others

A schema extends an older one if it has the messages of the older one at the same
places, each with the same fields and perhaps more after them. What the older
schema spells, the newer one reads:

* a field that both have is read the same way;
* where the older schema has no more fields, the bytes end, and those appended
  take their defaults (`decodeFieldsBy_of_atEnd`);
* identities lead to messages that extend each other again, or, in an import, to
  the very same message (`ExtendedBy.messagePlan?`).

`Spells.decodes` puts these together. A schema extends itself, and then nothing is
appended anywhere (`extend_self`), so that what it spells is what it reads.
-/

namespace Marshal

open Wire Value CompiledSchema

/-! ## Extension -/

/-- What two versions of a step have in common. -/
def Step.layout (step : Step) : String × Shape × Bool := (step.field, step.shape, step.deprecated)

/-- The second plan has the steps of the first one, and perhaps more after them. -/
structure MessagePlan.ExtendedBy (p q : MessagePlan) : Prop where
  name : q.name = p.name
  steps : p.steps.map Step.layout <+: q.steps.map Step.layout

/-- The second schema has all that the first one has, at the same places, and
    perhaps more after it. -/
structure CompiledSchema.ExtendedBy (old new : CompiledSchema) : Prop where
  imports : new.imports = old.imports
  messages : ∀ (i : Nat) (p : MessagePlan), old.messages[i]? = some p →
    ∃ q : MessagePlan, new.messages[i]? = some q ∧ p.ExtendedBy q
  /-- The symbol that is declared first keeps its number. -/
  enums : ∀ (i : Nat) (e : EnumPlan), old.enums[i]? = some e →
    ∃ e' : EnumPlan, new.enums[i]? = some e' ∧ e'.name = e.name ∧ e'.default = e.default

theorem MessagePlan.ExtendedBy.refl (p : MessagePlan) : p.ExtendedBy p :=
  ⟨rfl, List.prefix_rfl⟩

namespace CompiledSchema.ExtendedBy

variable {old new o : CompiledSchema} {p : MessagePlan}

theorem refl (s : CompiledSchema) : s.ExtendedBy s where
  imports := rfl
  messages _ p hp := ⟨p, hp, .refl p⟩
  enums _ e he := ⟨e, he, rfl, rfl⟩

/-- An identity leads to messages that extend each other. -/
theorem messagePlan? (h : old.ExtendedBy new) {id : MessageId}
    (hid : old.messagePlan? id = some (o, p)) :
    ∃ n q, new.messagePlan? id = some (n, q) ∧ o.ExtendedBy n ∧ p.ExtendedBy q := by
  obtain ⟨ho, hp⟩ := messagePlan?_eq_some.1 hid
  obtain ⟨_ | j, i⟩ := id
  · cases Option.some.inj ho
    obtain ⟨q, hq, hpq⟩ := h.messages i p hp
    exact ⟨new, q, messagePlan?_eq_some.2 ⟨rfl, hq⟩, h, hpq⟩
  · -- Both schemas have the same imports, hence the same message.
    refine ⟨o, p, messagePlan?_eq_some.2 ⟨?_, hp⟩, .refl o, .refl p⟩
    rw [owner?, h.imports]
    exact ho

end CompiledSchema.ExtendedBy

/-- Steps of the same layout have the same name and shape, and are both deprecated or not. -/
theorem Step.layout_eq {step step' : Step} (h : step'.layout = step.layout) :
    step'.field = step.field ∧ step'.shape = step.shape ∧ step'.deprecated = step.deprecated := by
  obtain ⟨hfield, h⟩ := Prod.mk.inj h
  exact ⟨hfield, Prod.mk.inj h⟩

/-- Two well-formed schemas, of which the second one extends the first one. -/
structure Evolves (old new : CompiledSchema) : Prop where
  extended : old.ExtendedBy new
  old : old.WellFormed
  new : new.WellFormed

theorem Evolves.refl {s : CompiledSchema} (h : s.WellFormed) : Evolves s s := ⟨.refl s, h, h⟩

/-- Every message of the older schema is one of the newer one, with steps appended. -/
theorem Evolves.messagePlan? {old new o : CompiledSchema} (h : Evolves old new) {id : MessageId}
    {p : MessagePlan} (hid : old.messagePlan? id = some (o, p)) :
    ∃ n q, new.messagePlan? id = some (n, q) ∧ Evolves o n ∧ p ∈ o.messages ∧ q ∈ n.messages ∧
      p.ExtendedBy q := by
  obtain ⟨n, q, hid', hon, hpq⟩ := h.extended.messagePlan? hid
  obtain ⟨ho, hp⟩ := messagePlan?_eq_some.1 hid
  obtain ⟨hn, hq⟩ := messagePlan?_eq_some.1 hid'
  exact ⟨n, q, hid', ⟨hon, h.old.of_owner? ho, h.new.of_owner? hn⟩, List.mem_of_getElem? hp,
    List.mem_of_getElem? hq, hpq⟩

/-- The first of the steps that extend others is the first of these again. -/
theorem exists_of_layouts {step : Step} {steps steps' : List Step}
    (h : (step :: steps).map Step.layout <+: steps'.map Step.layout) :
    ∃ step' rest', steps' = step' :: rest' ∧ step'.layout = step.layout ∧
      steps.map Step.layout <+: rest'.map Step.layout := by
  cases steps' with
  | nil => exact absurd (List.prefix_nil.1 h) (List.cons_ne_nil _ _)
  | cons step' rest' =>
    obtain ⟨hstep, hrest⟩ := List.cons_prefix_cons.1 h
    exact ⟨step', rest', rfl, hstep.symm, hrest⟩

/-! ## Values as a newer schema reads them -/

/-- Objects of an older schema as a newer one reads them, with appended fields at
    their defaults. -/
def Rebuilding.extend :
    Rebuilding (CompiledSchema × CompiledSchema) (MessagePlan × MessagePlan) where
  enter s id := do
    let (o, p) ← s.1.messagePlan? id
    let (n, q) ← s.2.messagePlan? id
    return ((o, n), (p, q))
  shape? plans := plans.1.shape?
  fields s plans fields :=
    Ascending.insertAll (s.2.defaults (plans.2.steps.drop plans.1.steps.length)) fields

/-- A value of a message of an older schema as a newer one reads it. At every level,
    appended fields take their defaults, unless they are deprecated or optional. -/
def Value.extend (old new : CompiledSchema) (id : MessageId) (v : Value) : Value :=
  v.rebuild .extend (old, new) (.single (.nested id))

/-- A message is looked up in both schemas at once. -/
theorem Rebuilding.enter_extend {old new o n : CompiledSchema} {p q : MessagePlan} {id : MessageId}
    (ho : old.messagePlan? id = some (o, p)) (hn : new.messagePlan? id = some (n, q)) :
    extend.enter (old, new) id = some ((o, n), (p, q)) := by
  change (old.messagePlan? id).bind _ = _
  rw [ho]
  change (new.messagePlan? id).bind _ = _
  rw [hn]
  rfl

/-- A schema appends nothing to itself. -/
theorem Rebuilding.keeps_extend : extend.Keeps fun s => s.1 = s.2 := by
  rintro ⟨s, new⟩ id s' plans (rfl : s = new) h
  cases hid : s.messagePlan? id with
  | none =>
    change (s.messagePlan? id).bind _ = _ at h
    rw [hid] at h
    cases h
  | some found =>
    rw [enter_extend hid hid] at h
    cases Option.some.inj h
    -- No steps are left after those of the plan itself.
    refine ⟨rfl, fun fields => ?_⟩
    change Ascending.insertAll (CompiledSchema.defaults _ (List.drop found.2.steps.length _)) _ = _
    rw [List.drop_length]
    rfl

/-- Extending a schema by nothing changes no value. -/
theorem Value.extend_self (s : CompiledSchema) (id : MessageId) (v : Value) :
    v.extend s s id = v :=
  rebuild_eq_self Rebuilding.keeps_extend rfl _ v

/-! ## Reading -/

/-- The step of a field is the only one that has its name. -/
theorem MessagePlan.step?_of_mem {p : MessagePlan} (hp : (p.steps.map (·.field)).Nodup)
    {step : Step} (h : step ∈ p.steps) : p.step? step.field = some step := by
  rw [step?]
  revert hp h
  induction p.steps with
  | nil => exact fun _ h => absurd h List.not_mem_nil
  | cons first steps ih =>
    intro hp h
    rw [List.map_cons, List.nodup_cons] at hp
    -- No step before it has the same name.
    rcases List.mem_cons.1 h with rfl | h
    · exact List.find?_cons_of_pos (decide_eq_true rfl)
    · have hne : first.field ≠ step.field := fun he => hp.1 (he ▸ List.mem_map_of_mem h)
      rw [List.find?_cons_of_neg (by simpa using hne), ih hp.2 h]

theorem MessagePlan.shape?_of_mem {p : MessagePlan} (hp : (p.steps.map (·.field)).Nodup)
    {step : Step} (h : step ∈ p.steps) : p.shape? step.field = some step.shape := by
  rw [shape?, step?_of_mem hp h]
  rfl

theorem decodeFieldsBy_cons (value : ValueStep → Decoding Value) (s : CompiledSchema) (step : Step)
    (steps : List Step) : decodeFieldsBy value s (step :: steps) =
      decodeStepBy value s step >>= fun w => step.put w <$> decodeFieldsBy value s steps := rfl

section Missing

variable {s : CompiledSchema} {p : MessagePlan} {value : ValueStep → Decoding Value} {r : Reader}

/-- Where the bytes have ended, a step has its default, or nothing if it is deprecated. -/
theorem decodeStepBy_of_atEnd (hs : s.WellFormed) (hp : p ∈ s.messages) {step : Step}
    (hstep : step ∈ p.steps) (hr : r.atEnd = true) : decodeStepBy value s step r =
      .ok (if step.deprecated then none else s.default? step) r := by
  change (if r.atEnd then _ else _ : Decoding (Option Value)) r = _
  rw [hr, defaultStep_eq hs hp hstep]
  cases step.deprecated <;> rfl

/-- Where the bytes end, all that is left takes its defaults. -/
theorem decodeFieldsBy_of_atEnd (hs : s.WellFormed) (hp : p ∈ s.messages) {steps : List Step}
    (hsteps : steps ⊆ p.steps) (hr : r.atEnd = true) :
    decodeFieldsBy value s steps r = .ok (s.defaults steps) r := by
  induction steps with
  | nil => rfl
  | cons step steps ih =>
    obtain ⟨hstep, hrest⟩ := List.cons_subset.1 hsteps
    rw [decodeFieldsBy_cons, bind_of_ok (decodeStepBy_of_atEnd hs hp hstep hr),
      map_of_ok (ih hrest), defaults, defaults, fieldsBy_cons]

end Missing

/-! ### What is spelt -/

section Put

variable (step : Step) (w : Option Value) (fields : List (String × Value))

theorem Step.put_append (fields' : List (String × Value)) :
    step.put w fields ++ fields' = step.put w (fields ++ fields') := by
  cases w <;> rfl

/-- Fields are nested as deeply as the deepest of them. -/
theorem levelsOfFields_put :
    levelsOfFields (step.put w fields) = max (w.elim 0 levels) (levelsOfFields fields) := by
  cases w with
  | none => exact (Nat.zero_max _).symm
  | some w => rfl

/-- Fields are rebuilt one by one, also where one is missing. -/
theorem rebuildFields_put {σ π : Type} (R : Rebuilding σ π) (s : σ) (plan : π) :
    rebuildFields R s plan (step.put w fields) =
      step.put (w.map (rebuildField R s plan step.field)) (rebuildFields R s plan fields) := by
  cases w <;> rfl

/-- Fields are kept one by one, also where one is missing. -/
theorem keepFields_put {σ π : Type} (R : Rebuilding σ π) (keep : String → Bool) (s : σ) (plan : π) :
    keepFields R keep s plan (step.put w fields) =
      step.put (if keep step.field then w.map (rebuildField R s plan step.field) else none)
        (keepFields R keep s plan fields) := by
  cases w with
  | none => rw [Option.map_none, ite_self]; rfl
  | some w =>
    split
    · rename_i hkeep
      exact Ascending.restrict_cons_some (p := (step.field, w)) (if_pos hkeep) fields
    · rename_i hkeep
      exact Ascending.restrict_cons_none (p := (step.field, w)) (if_neg hkeep) fields

end Put

theorem Step.put_congr {step step' : Step} (h : step'.field = step.field) :
    step'.put = step.put := by
  funext w fields
  cases w with
  | none => rfl
  | some w => exact congrArg (fun f => (f, w) :: fields) h

/-- Fields are spelt in the order of the steps. -/
theorem SpellsFields.sublist {s : CompiledSchema} {steps : List Step}
    {fields : List (String × Value)} {b : Bytes} (h : SpellsFields s steps fields b) :
    (fields.map (·.1)).Sublist (steps.map (·.field)) := by
  induction steps generalizing fields b with
  | nil =>
    cases h
    exact .slnil
  | cons step steps ih =>
    cases h with
    | @cons _ _ _ w fields _ _ _ h =>
      -- A step may have no field, but has no more than one.
      cases (if step.deprecated then none else w : Option Value) with
      | none => exact (ih h).cons _
      | some w => exact (ih h).cons_cons _

/-- No field of an object that is spelt replaces another one. -/
theorem SpellsFields.levels_record {s : CompiledSchema} (hs : s.WellFormed) {p : MessagePlan}
    (hp : p ∈ s.messages) {fields : List (String × Value)} {b : Bytes}
    (h : SpellsFields s p.steps fields b) :
    (Value.record p.name fields).levels = levelsOfFields fields + 1 := by
  have hnodup := h.sublist.nodup (hs.consistent.fields p hp)
  rw [record, levels, levelsOfFields_perm (Ascending.perm_ofPairs hnodup)]

/-- A message is found if its identity is declared. -/
theorem CompiledSchema.find_eq_ok {s owner : CompiledSchema} {id : MessageId} {plan : MessagePlan} :
    s.find id = .ok (owner, plan) ↔ s.messagePlan? id = some (owner, plan) := by
  rw [find]
  cases s.messagePlan? id with
  | none => exact ⟨(nomatch ·), (nomatch ·)⟩
  | some found => exact ⟨fun h => congrArg some (Except.ok.inj h), fun h => Option.some.inj h ▸ rfl⟩

/-- A record of an older schema becomes the record with the appended fields. -/
theorem Value.rebuild_extend_record {old new o n : CompiledSchema} {p q : MessagePlan}
    {id : MessageId} (ho : old.messagePlan? id = some (o, p))
    (hn : new.messagePlan? id = some (n, q)) (hname : q.name = p.name)
    (fields : List (String × Value)) :
    rebuild .extend (old, new) (.single (.nested id)) (.record p.name fields) =
      .record q.name (rebuildFields .extend (o, n) (p, q) fields ++
        n.defaults (q.steps.drop p.steps.length)) := by
  rw [record, rebuild_nested (Rebuilding.enter_extend ho hn), record, Ascending.ofPairs_append,
    rebuildFields_eq, rebuildFields_eq, Ascending.ofPairs_mapValues, hname]
  rfl

/-! ### The newer schema reads it -/

/-- A field is read, or skipped, by any step of the same layout. -/
theorem decodes_layout {levels : Nat} {value : ValueStep → Decoding Value} {s : CompiledSchema}
    {step step' : Step} (hlayout : step'.layout = step.layout) {b : Bytes} (hb : 0 < b.length)
    (hskip : Reads step.shape.skip b ()) {w : Option Value} {f : Value → Value}
    (h : Decodes levels (decodeShape value step.shape) b (w.map f) (w.elim 0 Value.levels)) :
    Decodes levels (decodeStepBy value s step') b ((if step.deprecated then none else w).map f)
      ((if step.deprecated then none else w).elim 0 Value.levels) := by
  obtain ⟨-, hshape, hd⟩ := Step.layout_eq hlayout
  rw [← hshape] at hskip h
  cases hdeprecated : step.deprecated with
  | true => exact decodes_deprecated (hd.trans hdeprecated) hb hskip
  | false => exact decodes_step (hd.trans hdeprecated) hb h

mutual

/-- What an older schema spells, a newer one reads, with appended fields at their
    defaults. It needs as many levels as the value has. -/
theorem Spells.decodes {old new : CompiledSchema} (h : Evolves old new) (levels : Nat)
    {v : ValueStep} {w : Value} {b : Bytes} : Spells old v w b → b.length < 2 ^ 64 →
      Decodes levels (decodeBy (decodeObject levels) new v) b
        (w.rebuild .extend (old, new) (.single v)) w.levels
  | .scalar x, hb => by
    rw [rebuild_scalar, levels_toValue]
    exact (Decodes.onWire (Primitive.reads _ x hb)).map
  | .enum n, hb => by
    rw [rebuild_enum]
    have hn : Decodes levels (onWire Primitive.ofEnum.read) _ n.toUInt32 0 :=
      .onWire (Primitive.reads .ofEnum n.toUInt32 hb)
    exact hn.map
  | @Spells.nested _ o id p fields b hid hfields, hb => by
    obtain ⟨n, q, hid', hon, hp, hq, hpq⟩ := h.messagePlan? hid
    rw [rebuild_extend_record hid hid' hpq.name, hfields.levels_record hon.old hp]
    refine decodes_nested (find_eq_ok.2 hid') (lt_of_length_framed hb) ?_
    rintro levels rfl
    exact (SpellsFields.decodes hon levels hfields (lt_of_length_framed hb) hp hq
      (List.Subset.refl _) (List.Subset.refl _) hpq.steps).map

/-- Elements that the older schema spells are read by the newer one. -/
theorem SpellsItems.decodes {old new : CompiledSchema} (h : Evolves old new) (levels : Nat)
    {v : ValueStep} {ws : List Value} {b : Bytes} : SpellsItems old v ws b → b.length < 2 ^ 64 →
      DecodesAll levels (decodeBy (decodeObject levels) new v) b
        (rebuildItems .extend (old, new) v ws) (levelsOfItems ws)
  | .nil, _ => .nil
  | .cons hw hws, hb => by
    rw [List.length_append] at hb
    exact .cons hw.length_pos (Spells.decodes h levels hw (by omega))
      (SpellsItems.decodes h levels hws (by omega))

/-- So are keys and values. -/
theorem SpellsEntries.decodes {old new : CompiledSchema} (h : Evolves old new) (levels : Nat)
    {k v : ValueStep} {es : List (Value × Value)} {b : Bytes} :
    SpellsEntries old k v es b → b.length < 2 ^ 64 →
      DecodesAll levels
        (do return (← decodeBy (decodeObject levels) new k, ← decodeBy (decodeObject levels) new v))
        b (rebuildEntries .extend (old, new) k v es) (levelsOfEntries es)
  | .nil, _ => .nil
  | .cons hx hw hes, hb => by
    rw [List.length_append, List.length_append] at hb
    have hpos := hx.length_pos
    refine .cons ?_ ?_ (SpellsEntries.decodes h levels hes (by omega))
    · rw [List.length_append]
      omega
    · exact (Spells.decodes h levels hx (by omega)).bind (Spells.decodes h levels hw (by omega)).map

/-- So are fields that are there, or missing and optional. -/
theorem SpellsShape.decodes {old new : CompiledSchema} (h : Evolves old new) (levels : Nat)
    {shape : Shape} {w : Option Value} {b : Bytes} :
    SpellsShape old shape w b → b.length < 2 ^ 64 →
      Decodes levels (decodeShape (decodeBy (decodeObject levels) new) shape) b
        (w.map (rebuild .extend (old, new) shape)) (w.elim 0 Value.levels)
  | .single hw, hb => (Spells.decodes h levels hw hb).map
  | .absent, _ => (Decodes.onWire (reads_bool false)).bind_pure rfl
  | .present hw, hb => by
    rw [List.length_append] at hb
    rw [Option.map_some, rebuild_optional]
    exact .bind_wire (reads_bool true) (Spells.decodes h levels hw (by omega)).map
  | .repeated e hws, hb => by
    have hb := Extent.lt_of_length_write hb
    have := (decodes_sequence (SpellsItems.decodes h levels hws hb) e hb).map
      (g := fun items => some (Value.array items))
    rw [rebuildItems_eq, List.length_map, ← rebuildItems_eq] at this
    exact this
  | .map e hes, hb => by
    have hb := Extent.lt_of_length_write hb
    have := (decodes_sequence (SpellsEntries.decodes h levels hes hb) e hb).map
      (g := fun entries => some (Value.map entries))
    rw [rebuildEntries_eq, List.length_map, ← rebuildEntries_eq] at this
    exact this

/-- The fields of a message are read as far as the older schema has them. All others have defaults,
    since the frame ends before them. -/
theorem SpellsFields.decodes {old new : CompiledSchema} (h : Evolves old new) (levels : Nat)
    {p q : MessagePlan} {steps steps' : List Step} {fields : List (String × Value)} {b : Bytes} :
    SpellsFields old steps fields b → b.length < 2 ^ 64 →
      p ∈ old.messages → q ∈ new.messages → steps ⊆ p.steps → steps' ⊆ q.steps →
      steps.map Step.layout <+: steps'.map Step.layout →
      DecodesFrame levels (decodeFieldsBy (decodeBy (decodeObject levels) new) new steps') b
        (rebuildFields .extend (old, new) (p, q) fields ++
          new.defaults (steps'.drop steps.length)) (levelsOfFields fields)
  | .nil, _, _, hq, _, hsteps', _ => by
    -- The older schema has no more fields, so the frame ends here.
    intro r _ hr
    have hend : r.atEnd = true := by
      rw [Reader.atEnd_eq, hr]
      rfl
    exact ⟨fun _ => ⟨r, decodeFieldsBy_of_atEnd h.new hq hsteps' hend⟩,
      fun hlt => absurd hlt (Nat.not_lt_zero _)⟩
  | @SpellsFields.cons _ step steps w fields b bs hw hrest, hb, hp, hq, hsteps, hsteps',
      hlayouts => by
    obtain ⟨step', steps', rfl, hlayout, hlayouts⟩ := exists_of_layouts hlayouts
    obtain ⟨hstep, hsteps⟩ := List.cons_subset.1 hsteps
    have hsteps' := List.subset_of_cons_subset hsteps'
    rw [List.length_append] at hb
    have hrest := SpellsFields.decodes h levels hrest (by omega) hp hq hsteps hsteps' hlayouts
    have hshape : rebuildField .extend (old, new) (p, q) step.field =
        rebuild .extend (old, new) step.shape :=
      rebuildField_eq (MessagePlan.shape?_of_mem (h.old.consistent.fields p hp) hstep)
    have hread := SpellsShape.decodes h levels hw (by omega)
    rw [decodeFieldsBy_cons, rebuildFields_put, levelsOfFields_put, Step.put_append, hshape,
      List.length_cons, List.drop_succ_cons, ← Step.put_congr (Step.layout_eq hlayout).1]
    exact (decodes_layout hlayout hw.length_pos (hw.skips (by omega)) hread).bind_frame hrest.map

end

/-- Reading a message is reading its object from the start of the bytes, at the outermost level. -/
theorem decode_eq {s o : CompiledSchema} {id : MessageId} {p : MessagePlan}
    (hid : s.messagePlan? id = some (o, p)) (b : Bytes) : decode s id b =
      match decodeObject (nestingLimit + 1) o p (.ofBytes b) with
      | .ok v _ => .ok v
      | .error e _ => .error e := by
  rw [decode, find_eq_ok.2 hid]
  rfl

/-- What is spelt for the fields of a message is read, as long as it is not nested
    too deeply. -/
theorem decode_of_spells {old new o : CompiledSchema} (h : Evolves old new) {id : MessageId}
    {p : MessagePlan} (hid : old.messagePlan? id = some (o, p)) {fields : List (String × Value)}
    {b : Bytes} (hfields : SpellsFields o p.steps fields b) (hb : b.length < 2 ^ 64) :
    if (record p.name fields).nesting ≤ nestingLimit then
      decode new id b = .ok ((record p.name fields).extend old new id)
    else ∃ offset, decode new id b = .error (.wire (.nestingLimit offset nestingLimit)) := by
  obtain ⟨n, q, hid', hon, hp, hq, hpq⟩ := h.messagePlan? hid
  -- The object itself takes no level: all of them are left at depth zero.
  obtain ⟨hok, hdeep⟩ := (SpellsFields.decodes hon nestingLimit hfields hb hp hq
    (List.Subset.refl _) (List.Subset.refl _) hpq.steps).map (g := record q.name) (.ofBytes b)
      (Nat.zero_add _) rfl
  rw [nesting, hfields.levels_record hon.old hp, Nat.add_sub_cancel, decode_eq hid', decodeObject]
  split
  · rename_i hle
    obtain ⟨r, hr⟩ := hok hle
    rw [hr, Value.extend, rebuild_extend_record hid hid' hpq.name]
  · rename_i hlt
    obtain ⟨offset, r, hr⟩ := hdeep (Nat.lt_of_not_le hlt)
    exact ⟨offset, by rw [hr]⟩

end Marshal
