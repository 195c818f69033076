import Marshal.Proofs.RoundTrip
import Marshal.Proofs.Tracking

/-!
# Older and newer schemas

A schema and one that extends it read what the other one has written:

* `decode_restrict`: the older schema reads whatever the newer one reads, without
  the fields that were appended;
* `decode_extend`: the newer schema reads what the older one has written, with
  appended fields at their defaults.

For the first, the older reading tracks the newer one. In every frame it stops
before the appended fields, and the reading around the frame goes on after it.
Where the bytes end early both take defaults, and those of the older schema are
those of the newer one without the appended fields (`StandsIn.restrict`).
-/

namespace Marshal

open Wire Value CompiledSchema

/-! ## Values as an older schema reads them -/

/-- Objects without the fields that their messages do not have. -/
def Rebuilding.restrict : Rebuilding CompiledSchema MessagePlan where
  enter := messagePlan?
  shape? := MessagePlan.shape?
  fields _ plan fields := fields.filter fun f => (plan.step? f.1).isSome

/-- A value of a message as an older schema reads it: at every level, fields that the
    message does not have there are removed. -/
def Value.restrict (old : CompiledSchema) (id : MessageId) (v : Value) : Value :=
  v.rebuild .restrict old (.single (.nested id))

/-- Fields without those that the message does not have, and the same in them. -/
def restrictFields (s : CompiledSchema) (p : MessagePlan) :
    List (String × Value) → List (String × Value) :=
  Ascending.restrict fun f => (p.shape? f).map (rebuild .restrict s)

section Restrict

variable {s owner : CompiledSchema} {p : MessagePlan}

/-- Restricting fields keeps those that the message has. -/
theorem keepFields_restrict :
    keepFields .restrict (fun f => (p.step? f).isSome) s p = restrictFields s p := by
  refine congrArg Ascending.restrict (funext fun f => ?_)
  cases hstep : p.step? f with
  | none => simp [MessagePlan.shape?, hstep]
  | some step =>
    have hshape : p.shape? f = some step.shape := by simp [MessagePlan.shape?, hstep]
    simp [hstep, hshape, rebuildField_eq (R := .restrict) hshape]

/-- Restricting an object keeps its name and the fields that the message has. -/
theorem rebuild_restrict_record {id : MessageId} (hid : s.messagePlan? id = some (owner, p))
    (name : String) (fields : List (String × Value)) :
    rebuild .restrict s (.single (.nested id)) (.record name fields) =
      .record name (restrictFields owner p fields) := by
  rw [rebuild_record (R := .restrict) (fun f => (p.step? f).isSome) hid fun _ => rfl,
    keepFields_restrict]

/-- A field that the message has is restricted by its shape. -/
theorem restrictFields_put {step step' : Step} (hfield : step'.field = step.field)
    (h : p.shape? step.field = some step.shape) (w : Option Value)
    (fields : List (String × Value)) : restrictFields s p (step'.put w fields) =
      step.put (w.map (rebuild .restrict s step.shape)) (restrictFields s p fields) := by
  rw [Step.put_congr hfield]
  cases w with
  | none => rfl
  | some w => exact Ascending.restrict_cons_some (p := (step.field, w)) (by rw [h]; rfl) fields

/-- A field that the message does not have is left out. -/
theorem restrictFields_put_of_none {step : Step} (h : p.shape? step.field = none)
    (w : Option Value) (fields : List (String × Value)) :
    restrictFields s p (step.put w fields) = restrictFields s p fields := by
  cases w with
  | none => rfl
  | some w => exact Ascending.restrict_cons_none (p := (step.field, w)) (by rw [h]; rfl) fields

end Restrict

/-! ## Appended fields -/

/-- The older message has no field of those that were appended. -/
theorem MessagePlan.ExtendedBy.shape?_eq_none {p q : MessagePlan} (h : p.ExtendedBy q)
    (hq : (q.steps.map (·.field)).Nodup) :
    ∀ step ∈ q.steps.drop p.steps.length, p.shape? step.field = none := by
  intro step hstep
  -- The names of the newer message start with those of the older one.
  have hnames : p.steps.map (·.field) = (q.steps.take p.steps.length).map (·.field) := by
    have hlayout := List.prefix_iff_eq_take.1 h.steps
    rw [List.length_map, ← List.map_take] at hlayout
    have := congrArg (List.map Prod.fst) hlayout
    rwa [List.map_map, List.map_map] at this
  rw [← List.take_append_drop p.steps.length q.steps, List.map_append, ← hnames] at hq
  have hne := List.disjoint_of_nodup_append hq
  rw [shape?, step?, Option.map_eq_none_iff, List.find?_eq_none]
  intro old hold hfield
  exact hne (List.mem_map_of_mem hold) (of_decide_eq_true hfield ▸ List.mem_map_of_mem hstep)

/-- Enums have the same first symbol in the newer schema. -/
theorem CompiledSchema.ExtendedBy.enumPlan? {old new : CompiledSchema} (h : old.ExtendedBy new)
    {id : EnumId} {e : EnumPlan} (he : old.enumPlan? id = some e) :
    ∃ e', new.enumPlan? id = some e' ∧ e'.default = e.default := by
  obtain ⟨owner, howner, he⟩ := Option.bind_eq_some_iff.1 he
  obtain ⟨_ | j, i⟩ := id
  · cases Option.some.inj howner
    obtain ⟨e', he', _, hdefault⟩ := h.enums i e he
    exact ⟨e', he', hdefault⟩
  · refine ⟨e, Option.bind_eq_some_iff.2 ⟨owner, ?_, he⟩, rfl⟩
    rw [owner?, h.imports]
    exact howner

/-! ## Defaults -/

mutual

/-- The defaults of an older schema are those of a newer one without the fields that
    were appended. -/
theorem IsDefault.restrict {old new : CompiledSchema} (h : Evolves old new) {v : ValueStep}
    {w : Value} : IsDefault new v w → old.Resolves v →
      IsDefault old v (w.rebuild .restrict old (.single v))
  | .scalar, _ => by
    rw [rebuild_scalar]
    exact .scalar
  | .enum hid, hv => by
    obtain ⟨e, he⟩ := Option.isSome_iff_exists.1 hv
    obtain ⟨e', he', hdefault⟩ := h.extended.enumPlan? he
    cases hid.symm.trans he'
    rw [rebuild_enum, hdefault]
    exact .enum he
  | .nested hid hfields, hv => by
    obtain ⟨⟨o, p⟩, hp⟩ := Option.isSome_iff_exists.1 hv
    obtain ⟨n, q, hid', hon, hmem, hmem', hpq⟩ := h.messagePlan? hp
    cases hid.symm.trans hid'
    rw [rebuild_restrict_record hp, hpq.name]
    exact .nested hp (StandInFor.restrict hon hmem hfields (List.Subset.refl _) hpq.steps
      (hpq.shape?_eq_none (hon.new.consistent.fields _ hmem')))

/-- What stands in for a field in the newer schema does so, restricted, in the older one. -/
theorem StandsIn.restrict {old new : CompiledSchema} (h : Evolves old new) {shape : Shape}
    {w : Option Value} : StandsIn new shape w → (∀ v ∈ shape.values, old.Resolves v) →
      StandsIn old shape (w.map (rebuild .restrict old shape))
  | .single hw, hv => .single (IsDefault.restrict h hw (hv _ (List.mem_singleton_self _)))
  | .optional, _ => .optional
  | .repeated, _ => .repeated
  | .map, _ => .map

/-- The fields that stand in for those of an object do so, restricted, for those that the older
    schema has. -/
theorem StandInFor.restrict {old new : CompiledSchema} (h : Evolves old new) {p : MessagePlan}
    (hp : p ∈ old.messages) {steps steps' : List Step} {fields : List (String × Value)} :
    StandInFor new steps' fields → steps ⊆ p.steps →
      steps.map Step.layout <+: steps'.map Step.layout →
      (∀ step ∈ steps'.drop steps.length, p.shape? step.field = none) →
      StandInFor old steps (restrictFields old p fields)
  | .nil, hsteps, hlayouts, hnone => by
    cases steps with
    | nil => exact .nil
    | cons step steps => cases List.prefix_nil.1 hlayouts
  | @StandInFor.cons _ step' steps' w fields hw hfields, hsteps, hlayouts, hnone => by
    cases steps with
    | nil =>
      -- The step was appended, so that nothing is left of its field.
      rw [restrictFields_put_of_none (hnone step' List.mem_cons_self)]
      exact StandInFor.restrict h hp hfields hsteps List.nil_prefix
        fun step hstep => hnone step (List.mem_cons_of_mem _ hstep)
    | cons step steps =>
      obtain ⟨_, _, hcons, hlayout, hlayouts⟩ := exists_of_layouts hlayouts
      cases hcons
      obtain ⟨hfield, hshape, hdeprecated⟩ := Step.layout_eq hlayout
      obtain ⟨hstep, hsteps⟩ := List.cons_subset.1 hsteps
      have hold := StandsIn.restrict h hw (hshape ▸ h.old.consistent.resolves p hp step hstep)
      rw [hshape] at hold
      have hshape? := MessagePlan.shape?_of_mem (h.old.consistent.fields p hp) hstep
      rw [restrictFields_put hfield hshape?, hdeprecated, apply_ite (Option.map _)]
      exact .cons hold (StandInFor.restrict h hp hfields hsteps hlayouts hnone)

end

/-! ## Reading what a newer schema reads -/

/-- The second decoding tracks the first one, wherever that one succeeds. -/
abbrev Follows {α β : Type} (Q : α → β → Prop) (m : Decoding α) (n : Decoding β) : Prop :=
  Tracks (fun _ : Value.Error => (none : Option Value.Error)) (fun _ => True) Q m n

section Follows

variable {α β : Type}

theorem map_eq_of_forall₂ {f : α → β} {l : List α} {l' : List β}
    (h : List.Forall₂ (fun a b => f a = b) l l') : l.map f = l' :=
  List.forall₂_eq_eq_eq ▸ List.forall₂_map_left_iff.2 h

/-- Sequences follow each other if their elements do, in a frame or by their number. -/
theorem follows_sequence {P : α → β → Prop} {m : Decoding α} {n : Decoding β} (h : Follows P m n)
    (e : Extent) : Follows (List.Forall₂ P) (decodeSequence m e) (decodeSequence n e) := by
  cases e with
  | elements =>
    refine Tracks.refl.bind ?_
    rintro count _ rfl
    exact h.readTimes count
  | bytes =>
    refine Tracks.refl.bind ?_
    rintro frame _ rfl
    exact h.readToEnd.frame.within trivial

variable {old new : CompiledSchema} {value value' : ValueStep → Decoding Value}

/-- If values are followed, in whatever way objects are rebuilt, fields are. -/
theorem follows_shape {σ π : Type} {R : Rebuilding σ π} {s : σ} {shape : Shape}
    (h : ∀ v ∈ shape.values,
      Follows (fun w w' => w.rebuild R s (.single v) = w') (value' v) (value v)) :
    Follows (fun w w' => w.map (rebuild R s shape) = w') (decodeShape value' shape)
      (decodeShape value shape) := by
  cases shape with
  | single v => exact (h v (List.mem_singleton_self v)).map fun w w' hw => congrArg some hw
  | optional v =>
    refine Tracks.refl.bind ?_
    -- Both read the same truth value.
    rintro present _ rfl
    cases present with
    | false => exact .pure rfl
    | true =>
      refine (h v (List.mem_singleton_self v)).map fun w w' hw => ?_
      rw [Option.map_some, rebuild_optional, hw]
  | repeated v e =>
    refine (follows_sequence (h v (List.mem_singleton_self v)) e).map fun ws ws' hws => ?_
    rw [Option.map_some, rebuild, rebuildItems_eq, map_eq_of_forall₂ hws]
  | map k v e =>
    have hk := h k List.mem_cons_self
    have hv := h v (List.mem_cons_of_mem _ (List.mem_singleton_self v))
    have hentry : Follows (fun e e' => (rebuild R s (.single k) e.1,
        rebuild R s (.single v) e.2) = e')
        (do return (← value' k, ← value' v)) (do return (← value k, ← value v)) :=
      hk.bind fun _ _ hx => hv.map fun _ _ hw => Prod.ext hx hw
    refine (follows_sequence hentry e).map fun es es' hes => ?_
    rw [Option.map_some, rebuild, rebuildEntries_eq, map_eq_of_forall₂ hes]

/-- If objects are followed, in whatever way they are rebuilt, values are: scalars and
    enums are not looked up in a schema. -/
theorem follows_decodeBy {σ π : Type} {R : Rebuilding σ π} {s : σ}
    {object object' : CompiledSchema → MessagePlan → Decoding Value} {v : ValueStep}
    (h : ∀ id, v = .nested id → Follows (fun w w' => w.rebuild R s (.single v) = w')
      (decodeBy object' new v) (decodeBy object old v)) :
    Follows (fun w w' => w.rebuild R s (.single v) = w') (decodeBy object' new v)
      (decodeBy object old v) := by
  cases v with
  | scalar p =>
    refine Tracks.refl.map ?_
    rintro x _ rfl
    exact rebuild_scalar p _
  | enum id =>
    refine Tracks.refl.map ?_
    rintro n _ rfl
    exact rebuild_enum id _
  | nested id => exact h id rfl

/-- Results that are given without reading follow each other if they are related. -/
theorem follows_given {P : α → β → Prop} {x : Except Value.Error α} {y : Except Value.Error β}
    {a : α} {b : β} (hx : x = .ok a) (hy : y = .ok b) (h : P a b) :
    Follows P (given x) (given y) := by
  rw [hx, hy]
  exact Tracks.pure h

/-- If values are followed, so is what there is for a step. -/
theorem follows_step (h : Evolves old new) {p q : MessagePlan} (hp : p ∈ old.messages)
    (hq : q ∈ new.messages) {step step' : Step} (hstep : step ∈ p.steps) (hstep' : step' ∈ q.steps)
    (hlayout : step'.layout = step.layout) (hvalue : ∀ v, old.Resolves v →
      Follows (fun w w' => w.rebuild .restrict old (.single v) = w') (value' v) (value v)) :
    Follows (fun w w' => w.map (rebuild .restrict old step.shape) = w')
      (decodeStepBy value' new step') (decodeStepBy value old step) := by
  obtain ⟨-, hshape, hdeprecated⟩ := Step.layout_eq hlayout
  have hresolves := h.old.consistent.resolves p hp step hstep
  refine Tracks.ofReader (fun r => if r.atEnd then _ else _) (fun r => if r.atEnd then _ else _)
    fun r _ => ?_
  rw [hdeprecated]
  -- The two readers are at the same place, so the bytes end for both or for neither.
  split
  · split
    · exact .pure rfl
    · -- The defaults of both schemas are told by what stands in for the field.
      have hdefault := (standsIn_default? h.new hq hstep').restrict h (hshape ▸ hresolves)
      rw [hshape] at hdefault
      exact follows_given (defaultStep_eq h.new hq hstep') (defaultStep_eq h.old hp hstep)
        (hdefault.unique (standsIn_default? h.old hp hstep))
  · rw [hshape]
    split
    · refine Tracks.refl.bind fun _ _ _ => .pure rfl
    · exact follows_shape fun v hv => hvalue v (hresolves v hv)

/-- Nothing is left of appended fields. -/
theorem restrictFields_of_decode {p : MessagePlan} {steps : List Step}
    (h : ∀ step ∈ steps, p.shape? step.field = none) {r r' : Reader}
    {fields : List (String × Value)} (hfields : decodeFieldsBy value new steps r = .ok fields r') :
    restrictFields old p fields = [] := by
  induction steps generalizing r fields with
  | nil =>
    cases hfields
    rfl
  | cons step steps ih =>
    rw [decodeFieldsBy_cons] at hfields
    -- Whatever is read for a step that was appended is left out.
    obtain ⟨w, r₁, _, hfields⟩ := exists_of_bind_ok hfields
    obtain ⟨rest, r₂, hrest, hfields⟩ := exists_of_bind_ok hfields
    cases hfields
    rw [restrictFields_put_of_none (h step List.mem_cons_self)]
    exact ih (fun step hstep => h step (List.mem_cons_of_mem _ hstep)) hrest

/-- If values are followed, the fields of a message are, without those that were
    appended. -/
theorem follows_fields (h : Evolves old new) {p q : MessagePlan} (hp : p ∈ old.messages)
    (hq : q ∈ new.messages) {steps steps' : List Step} (hsteps : steps ⊆ p.steps)
    (hsteps' : steps' ⊆ q.steps) (hlayouts : steps.map Step.layout <+: steps'.map Step.layout)
    (hnone : ∀ step ∈ steps'.drop steps.length, p.shape? step.field = none)
    (hvalue : ∀ v, old.Resolves v →
      Follows (fun w w' => w.rebuild .restrict old (.single v) = w') (value' v) (value v)) :
    TracksFrame (fun _ => none) (fun _ => True)
      (fun fields fields' => restrictFields old p fields = fields')
      (decodeFieldsBy value' new steps') (decodeFieldsBy value old steps) := by
  induction steps generalizing steps' with
  | nil =>
    -- The older schema stops here, whatever else the newer one reads in the frame.
    refine ⟨fun _ hfields => ⟨[], _, rfl, ?_⟩, fun _ _ he => nomatch he⟩
    exact restrictFields_of_decode hnone hfields
  | cons step steps ih =>
    obtain ⟨step', steps', rfl, hlayout, hlayouts⟩ := exists_of_layouts hlayouts
    obtain ⟨hstep, hsteps⟩ := List.cons_subset.1 hsteps
    obtain ⟨hstep', hsteps'⟩ := List.cons_subset.1 hsteps'
    have hshape := MessagePlan.shape?_of_mem (h.old.consistent.fields p hp) hstep
    rw [decodeFieldsBy_cons, decodeFieldsBy_cons]
    refine (follows_step h hp hq hstep hstep' hlayout hvalue).bind_frame fun w w' hw =>
      (ih hsteps hsteps' hlayouts hnone).map fun fields fields' hfields => ?_
    rw [restrictFields_put (Step.layout_eq hlayout).1 hshape, hw, hfields]

end Follows

/-- An older schema follows a newer one in reading objects, with `levels` levels
    left. -/
def FollowsObjects (levels : Nat) : Prop :=
  ∀ (old new : CompiledSchema) (p q : MessagePlan), Evolves old new → p ∈ old.messages →
    q ∈ new.messages → p.ExtendedBy q →
    TracksFrame (fun _ => none) (fun _ => True)
      (fun w w' => ∀ s id, s.messagePlan? id = some (old, p) → w.restrict s id = w')
      (decodeObject levels new q) (decodeObject levels old p)

/-- If objects are followed, values are. -/
theorem follows_value {levels : Nat} (hobjects : FollowsObjects levels)
    {old new : CompiledSchema} (h : Evolves old new) {v : ValueStep} (hv : old.Resolves v) :
    Follows (fun w w' => w.rebuild .restrict old (.single v) = w')
      (decodeBy (decodeObject levels) new v) (decodeBy (decodeObject levels) old v) := by
  refine follows_decodeBy ?_
  rintro id rfl
  obtain ⟨⟨o, p⟩, hid⟩ := Option.isSome_iff_exists.1 hv
  obtain ⟨n, q, hid', hon, hp, hq, hpq⟩ := h.messagePlan? hid
  rw [decodeBy_nested (find_eq_ok.2 hid), decodeBy_nested (find_eq_ok.2 hid')]
  refine Tracks.refl.bind ?_
  rintro frame _ rfl
  exact ((hobjects o n p q hon hp hq hpq).within trivial).mono fun w w' hw => hw old id hid

/-- Objects are followed at all levels. -/
theorem followsObjects (levels : Nat) : FollowsObjects levels := by
  induction levels with
  | zero => exact fun _ _ _ _ _ _ _ _ => ⟨fun _ h => (nomatch h), fun _ _ he => (nomatch he)⟩
  | succ levels ih =>
    intro old new p q h hp hq hpq
    refine (follows_fields h hp hq (List.Subset.refl _) (List.Subset.refl _) hpq.steps
      (hpq.shape?_eq_none (h.new.consistent.fields q hq))
      fun v hv => follows_value ih h hv).map fun fields fields' hfields s id hid => ?_
    rw [Value.restrict, rebuild_restrict_record hid, hfields, hpq.name]

/-! ## Compatibility -/

/-- What a newer schema reads, whatever wrote it, an older one reads without the
    fields that were appended. -/
theorem decode_restrict {old new : CompiledSchema} (hold : old.IsCompiled) (hnew : new.IsCompiled)
    (hext : old.ExtendedBy new) {id : MessageId} (hid : (old.messagePlan? id).isSome) {b : Bytes}
    {w : Value} (hw : decode new id b = .ok w) : decode old id b = .ok (w.restrict old id) := by
  obtain ⟨⟨o, p⟩, hid⟩ := Option.isSome_iff_exists.1 hid
  obtain ⟨n, q, hid', hon, hp, hq, hpq⟩ :=
    Evolves.messagePlan? ⟨hext, hold.wellFormed, hnew.wellFormed⟩ hid
  have hobject := followsObjects (nestingLimit + 1) o n p q hon hp hq hpq
  rw [decode_eq hid'] at hw
  split at hw
  · rename_i v r hv
    cases Except.ok.inj hw
    obtain ⟨w', r', hw', hrestrict⟩ := hobject.ok trivial hv
    rw [decode_eq hid, hw', hrestrict old id hid]
  · cases hw

namespace Sample

/-- Fields that a later version of trees appends to those of a node. -/
def laterFields : List (Field × ResolvedType) :=
  [ (⟨"color", 4, .optional (.scalar .uint32), false⟩, .optional (.scalar .uint32)),
    (⟨"age", 5, .scalar .uint32, false⟩, .single (.scalar .uint32)),
    (⟨"rings", 6, .repeated (.scalar .uint32), false⟩, .repeated (.scalar .uint32)) ]

/-- Trees in the earlier version. -/
def earlier : CompiledSchema := compiledTree nodeFields

/-- Trees in the later version. -/
def later : CompiledSchema := compiledTree (nodeFields ++ laterFields)

theorem isCompiled_earlier : earlier.IsCompiled := ⟨.empty, tree nodeFields, .empty, rfl⟩

theorem isCompiled_later : later.IsCompiled :=
  ⟨.empty, tree (nodeFields ++ laterFields), .empty, rfl⟩

/-- Appending fields to nodes extends the schema of trees. -/
theorem extendedBy_compiledTree (fields more : List (Field × ResolvedType)) :
    (compiledTree fields).ExtendedBy (compiledTree (fields ++ more)) where
  imports := rfl
  messages := by
    rintro (_ | i) p hp
    · cases hp
      refine ⟨_, rfl, rfl, ?_⟩
      change (fields.map _).map _ <+: ((fields ++ more).map _).map _
      rw [List.map_append, List.map_append]
      exact List.prefix_append _ _
    · cases hp
  enums _ _ he := nomatch he

/-- A tree of the later version, in which both nodes have fields that were appended. -/
def sapling : Value :=
  .object "Node"
    [ ("age", .u32 7),
      ("children", .array [.object "Node" [("age", .u32 1), ("children", .array []),
        ("color", .u32 5), ("key", .u32 9), ("rings", .array [])]]),
      ("key", .u32 0), ("rings", .array [.u32 2, .u32 3]) ]

end Sample

open Sample

theorem decode_restrict_sapling :
    decode later ⟨.own, 0⟩ [0, 0, 8, 7, 9, 0, 0, 1, 5, 1, 0, 0, 7, 2, 2, 3] = .ok sapling ∧
      decode earlier ⟨.own, 0⟩ [0, 0, 8, 7, 9, 0, 0, 1, 5, 1, 0, 0, 7, 2, 2, 3] =
        .ok sproutNormal := by
  have hencode : sapling.encode later ⟨.own, 0⟩ =
      .ok [0, 0, 8, 7, 9, 0, 0, 1, 5, 1, 0, 0, 7, 2, 2, 3] := by decide +kernel
  have hnormal : sapling.normal later ⟨.own, 0⟩ = sapling := rfl
  have hread := decode_of_encode isCompiled_later.wellFormed hencode (by decide)
  rw [hnormal, if_pos (by decide)] at hread
  have hrestrict : sapling.restrict earlier ⟨.own, 0⟩ = sproutNormal := rfl
  have hold := decode_restrict isCompiled_earlier isCompiled_later
    (extendedBy_compiledTree _ _) rfl hread
  rw [hrestrict] at hold
  exact ⟨hread, hold⟩

/-- What an older schema writes and reads, a newer one reads with the fields that were
    appended at their defaults. -/
theorem decode_extend {old new : CompiledSchema} (hold : old.IsCompiled) (hnew : new.IsCompiled)
    (hext : old.ExtendedBy new) {id : MessageId} {v w : Value} {b : Bytes}
    (hv : v.encode old id = .ok b) (hb : b.length < 2 ^ 64) (hw : decode old id b = .ok w) :
    new.DefaultsStandIn ∧ decode new id b = .ok (w.extend old new id) := by
  refine ⟨hnew.wellFormed.defaultsStandIn, ?_⟩
  obtain ⟨o, p, fields, hid, hspells, hnormal⟩ := exists_spells_of_encode hold.wellFormed hv
  have hread := decode_of_spells (.refl hold.wellFormed) hid hspells hb
  have hread' := decode_of_spells ⟨hext, hold.wellFormed, hnew.wellFormed⟩ hid hspells hb
  -- Whether the value is nested too deeply is the same question for both schemas.
  split at hread
  · rename_i hnesting
    rw [extend_self, hw] at hread
    cases Except.ok.inj hread
    rwa [if_pos hnesting] at hread'
  · obtain ⟨offset, hread⟩ := hread
    cases hw.symm.trans hread

theorem decode_extend_sprout :
    decode earlier ⟨.own, 0⟩ [0, 6, 4, 3, 9, 0, 0] = .ok sproutNormal ∧
      decode later ⟨.own, 0⟩ [0, 6, 4, 3, 9, 0, 0] = .ok (.object "Node"
        [ ("age", .u32 0),
          ("children", .array [.object "Node" [("age", .u32 0), ("children", .array []),
            ("key", .u32 9), ("rings", .array [])]]),
          ("key", .u32 0), ("rings", .array []) ]) := by
  have hextend : sproutNormal.extend earlier later ⟨.own, 0⟩ = .object "Node"
      [ ("age", .u32 0),
        ("children", .array [.object "Node" [("age", .u32 0), ("children", .array []),
          ("key", .u32 9), ("rings", .array [])]]),
        ("key", .u32 0), ("rings", .array []) ] := rfl
  have hnew := (decode_extend isCompiled_earlier isCompiled_later (extendedBy_compiledTree _ _)
    encode_sprout (by decide) decode_sprout).2
  rw [hextend] at hnew
  exact ⟨decode_sprout, hnew⟩

end Marshal
