import Marshal.Proofs.Conformance
import Marshal.Proofs.Deprecation

/-!
# Filling in defaults

A field that is missing from an object is written as its default. The default may as well
be filled in before: required fields that are not deprecated are set to their defaults, and
sequences and maps to empty ones, in all objects that a value holds (`Value.filled`).

* `IsDefault.encodeBy_eq`: what is written for a default is what is written in place of a
  missing value, although deprecated fields are left out of the default in turn;
* `encodeObject_fill`: so filling in one field of an object changes nothing;
* `encode_filled`: nor does filling in all fields of all objects.
-/

namespace Marshal

open Wire Value CompiledSchema

/-! ## Filling -/

/-- What a missing field is set to, if it is. -/
def CompiledSchema.fillIn? (s : CompiledSchema) (step : Step) : Option Value :=
  match step.shape with
  | .single v => if step.deprecated then none else (s.defaultValue v).toOption
  | .optional _ => none
  | .repeated _ _ => some (.array [])
  | .map _ _ _ => some (.map [])

/-- The fields of an object, with that of a step filled in if it is missing. -/
def CompiledSchema.fill (s : CompiledSchema) (fields : List (String × Value)) (step : Step) :
    List (String × Value) :=
  match Ascending.get? step.field fields, s.fillIn? step with
  | none, some w => Ascending.insert step.field w fields
  | _, _ => fields

/-- Objects with all fields filled in that are missing. -/
def Rebuilding.filled : Rebuilding CompiledSchema MessagePlan where
  enter := messagePlan?
  shape? := MessagePlan.shape?
  fields s plan fields := plan.steps.foldl s.fill fields

/-- A value of a message, with all fields filled in that are missing from the objects in
    it. -/
def Value.filled (s : CompiledSchema) (id : MessageId) (v : Value) : Value :=
  v.rebuild .filled s (.single (.nested id))

/-! ## Encoders that agree -/

namespace Value

section Agree

variable {s : CompiledSchema} {p : MessagePlan} {k v : ValueStep} {field : String}

/-- What is written for steps depends on encoders only through what they write for each step. -/
theorem encodeStepsBy_congr {encoders encoders' : List (String × FieldEncoder)}
    {steps : List Step}
    (h : ∀ step ∈ steps, encodeFieldBy (Ascending.get? step.field encoders') s step =
      encodeFieldBy (Ascending.get? step.field encoders) s step) :
    encodeStepsBy encoders' s steps = encodeStepsBy encoders s steps := by
  induction steps with
  | nil => rfl
  | cons step steps ih =>
    rw [List.forall_mem_cons] at h
    rw [encodeStepsBy, encodeStepsBy, h.1, ih h.2]

/-- Without any fields, each step is written as its default. -/
theorem encodeStepsBy_nil (steps : List Step) :
    encodeStepsBy [] s steps = absentFields s.defaultBytes steps := by
  induction steps with
  | nil => rfl
  | cons step steps ih => rw [encodeStepsBy, absentFields, ih]; rfl

/-- Objects are written the same way if the same is written for each of the fields and they
    have the same first field that is unknown. -/
theorem encodeObject_congr {fields fields' : List (String × Value)}
    (hunknown : p.unknown? (fields'.map (·.1)) = p.unknown? (fields.map (·.1)))
    (h : ∀ step ∈ p.steps,
      encodeFieldBy ((Ascending.get? step.field fields').map fieldEncoder) s step =
        encodeFieldBy ((Ascending.get? step.field fields).map fieldEncoder) s step)
    (name field : String) : encodeObject (.object name fields') s p field =
      encodeObject (.object name fields) s p field := by
  -- Both objects have the same name and the same unknown fields, so they fail in the same way.
  by_cases hname : name = p.name
  swap
  · rw [encodeObject_of_ne hname, encodeObject_of_ne hname]
  subst hname
  cases hfound : p.unknown? (fields.map (·.1)) with
  | some unknown =>
    rw [encodeObject_of_unknown hfound, encodeObject_of_unknown (hunknown.trans hfound)]
  | none =>
    rw [encodeObject_of_known hfound, encodeObject_of_known (hunknown.trans hfound)]
    refine encodeStepsBy_congr fun step hstep => ?_
    rw [get?_fieldEncoders, get?_fieldEncoders]
    exact h step hstep

/-- Changing elements changes nothing if it changes nothing for each of them. -/
theorem encodeItems_map {g : Value → Value} {items : List Value}
    (h : ∀ w ∈ items, (g w).encodeBy (encodeObject (g w)) s field v =
      w.encodeBy (encodeObject w) s field v) :
    encodeItems s field v (items.map g) = encodeItems s field v items := by
  induction items with
  | nil => rfl
  | cons w items ih =>
    rw [List.forall_mem_cons] at h
    rw [List.map_cons, encodeItems, encodeItems, h.1, ih h.2]

theorem encodeEntries_map {f g : Value → Value} {entries : List (Value × Value)}
    (hk : ∀ x ∈ entries, (f x.1).encodeBy (encodeObject (f x.1)) s field k =
      x.1.encodeBy (encodeObject x.1) s field k)
    (hv : ∀ x ∈ entries, (g x.2).encodeBy (encodeObject (g x.2)) s field v =
      x.2.encodeBy (encodeObject x.2) s field v) :
    encodeEntries s field k v (entries.map fun x => (f x.1, g x.2)) =
      encodeEntries s field k v entries := by
  induction entries with
  | nil => rfl
  | cons x entries ih =>
    rw [List.forall_mem_cons] at hk hv
    rw [List.map_cons, encodeEntries, encodeEntries, hk.1, hv.1, ih hk.2 hv.2]

end Agree

end Value

/-! ## Defaults -/

section Default

variable {s owner : CompiledSchema}

theorem CompiledSchema.WellFormed.deprecates_self (hs : s.WellFormed) : Deprecates s s := by
  refine ⟨?_, hs, hs⟩
  induction hs with
  | intro _ _ ih =>
    refine .intro rfl (List.forall₂_same.2 fun p _ => ⟨rfl, ?_⟩) (List.forall₂_same.2 ih)
    exact List.forall₂_same.2 fun _ _ => .inl rfl

/-- How many messages may be gone through does not matter, if there are enough. -/
theorem defaultBytesWithin_congr (hs : s.WellFormed) {rank : Nat → Nat}
    (hrank : ∀ i p, s.messages[i]? = some p → ∀ e ∈ p.valueEdges, rank e.2 < rank i)
    {fuel fuel' : Nat} {v : ValueStep} (hv : s.Resolves v)
    (hfuel : ∀ i, v = .nested ⟨.own, i⟩ → rank i < fuel ∧ rank i < fuel') :
    s.defaultBytesWithin fuel' v = s.defaultBytesWithin fuel v :=
  defaultBytesWithin_deprecatedBy hs.deprecates_self hrank
    (fun _ _ _ hdeprecates => defaultBytes_deprecatedBy hdeprecates) fuel fuel' v hv hfuel

/-- What is written for a missing message is what is for an object that has no fields. -/
theorem defaultBytes_nested (hs : s.WellFormed) {id : MessageId} {p : MessagePlan}
    (hid : s.messagePlan? id = some (owner, p)) (field : String) :
    s.defaultBytes (.nested id) =
      framed <$> encodeObject (.object p.name []) owner p field := by
  have hv : s.Resolves (.nested id) := by simp [Resolves, hid]
  obtain ⟨w, _, hw, _⟩ := exists_default hs _ hv
  obtain ⟨ho, hp⟩ := messagePlan?_eq_some.1 hid
  rw [encodeObject_of_known rfl, fieldEncoders, encodeStepsBy_nil, defaultBytes]
  obtain ⟨_ | j, i⟩ := id
  · cases Option.some.inj ho
    obtain ⟨rank, hrank⟩ := hs.consistent.rank
    have hi := (hrank i p hp).1
    rw [defaultValue] at hw
    obtain ⟨fuel, hfuel⟩ := Nat.exists_eq_succ_of_ne_zero (Nat.ne_zero_of_lt hi)
    rw [hfuel] at hw ⊢
    rw [defaultBytesWithin_own hp hw]
    -- One message less is enough for what the message holds by value.
    refine congrArg _ (absentFields_deprecatedBy
      (List.forall₂_same.2 fun _ _ => .inl rfl) fun step hstep v hshape => ?_)
    refine defaultBytesWithin_congr hs (fun i q hq => (hrank i q hq).2)
      (resolves_single hs.consistent (List.mem_of_getElem? hp) hstep hshape) fun i' hv' => ?_
    have hedge := MessagePlan.mem_valueEdges.2 ⟨step, hstep, rfl, hv' ▸ hshape⟩
    have hlt : rank i' < rank i := (hrank i p hp).2 _ hedge
    omega
  · rw [defaultBytesWithin_imported ho hp hw]

end Default

mutual

/-- What is written for a default is what is written in place of a missing value. -/
theorem IsDefault.encodeBy_eq {s : CompiledSchema} (hs : s.WellFormed) (field : String)
    {v : ValueStep} {w : Value} : IsDefault s v w →
      w.encodeBy (encodeObject w) s field v = s.defaultBytes v
  | @IsDefault.scalar _ p => by
    rw [defaultBytes, defaultBytesWithin_scalar]
    cases p <;> rfl
  | @IsDefault.enum _ id plan hid => by
    rw [defaultBytes, defaultBytesWithin_enum, defaultEnum, hid]
    rfl
  | @IsDefault.nested _ owner id plan fields hid hfields => by
    obtain ⟨ho, hp⟩ := messagePlan?_eq_some.1 hid
    have howner := hs.of_owner? ho
    have hnodup := howner.consistent.fields plan (List.mem_of_getElem? hp)
    -- The object has no fields but those of the steps, and putting them in order changes none.
    have hconform := StandInFor.conforms howner hfields hnodup
    have hperm := Ascending.perm_ofPairs (hconform.nodup hnodup)
    rw [defaultBytes_nested hs hid field, encodeBy, find_eq_ok.2 hid]
    refine congrArg (framed <$> ·) (encodeObject_congr ?_ (fun step hstep => ?_) plan.name field)
    · refine unknown?_eq_none_iff.2 fun f hf => ?_
      obtain ⟨step, hstep, hname, _⟩ := hconform.mem_of_mem (hperm.mem_iff.1 hf)
      exact ⟨step, hstep, hname⟩
    · rw [Ascending.get?_ofPairs (hconform.nodup hnodup)]
      exact StandInFor.encodeFieldBy_eq howner hfields hnodup step hstep

/-- What stands in for a field is written as if it were missing. -/
theorem StandsIn.encodeFieldBy_eq {s : CompiledSchema} (hs : s.WellFormed) {step : Step}
    {shape : Shape} (hshape : step.shape = shape) {w : Option Value} : StandsIn s shape w →
      encodeFieldBy (w.map fieldEncoder) s step = encodeFieldBy none s step
  | .single hw => by
    have hvalue := IsDefault.encodeBy_eq hs step.field hw
    simp only [Option.map_some, encodeFieldBy, fieldEncoder, encodePresentBy, hshape, Shape.absent]
    exact hvalue
  | .optional => rfl
  | .repeated | .map => by
    simp only [Option.map_some, encodeFieldBy, fieldEncoder, encodePresentBy, hshape, Shape.absent]
    rfl

/-- So are the fields that stand in for those of an object. -/
theorem StandInFor.encodeFieldBy_eq {s : CompiledSchema} (hs : s.WellFormed) {steps : List Step}
    {fields : List (String × Value)} : StandInFor s steps fields →
      (steps.map (·.field)).Nodup → ∀ step ∈ steps,
        encodeFieldBy ((Ascending.get? step.field fields).map fieldEncoder) s step =
          encodeFieldBy none s step
  | .nil, _ => fun _ h => absurd h List.not_mem_nil
  | @StandInFor.cons _ first steps w fields hw hfields, hnodup => by
    rw [List.map_cons, List.nodup_cons] at hnodup
    have hsublist := (StandInFor.conforms hs hfields hnodup.2).sublist
    have hnot : first.field ∉ fields.map (·.1) := fun hmem =>
      hnodup.1 ((hsublist.trans (List.filter_sublist.map _)).subset hmem)
    rw [List.forall_mem_cons]
    refine ⟨?_, fun step hstep => ?_⟩
    · rw [get?_put_self hnot]
      split_ifs
      · rfl
      · exact StandsIn.encodeFieldBy_eq hs rfl hw
    · rw [get?_put_of_ne fun he => hnodup.1 (he ▸ List.mem_map_of_mem hstep)]
      exact StandInFor.encodeFieldBy_eq hs hfields hnodup.2 step hstep

end

/-! ## Objects -/

section Object

variable {s : CompiledSchema} {p : MessagePlan} {step : Step} {w : Value}

/-- What a missing field is filled in with is what stands in for it. -/
theorem standsIn_fillIn? (hs : s.WellFormed) (hp : p ∈ s.messages) (hstep : step ∈ p.steps)
    (h : s.fillIn? step = some w) : StandsIn s step.shape (some w) := by
  rw [fillIn?] at h
  split at h
  · rename_i v hshape
    obtain ⟨w', _, hw', _, hdefault, _⟩ :=
      exists_default hs v (resolves_single hs.consistent hp hstep hshape)
    split_ifs at h
    rw [toOption_eq_some, hw'] at h
    cases h
    rw [hshape]
    exact .single hdefault
  · cases h
  · rename_i hshape
    cases h
    rw [hshape]
    exact .repeated
  · rename_i hshape
    cases h
    rw [hshape]
    exact .map

/-- The same is written for an object once a field is filled in. -/
theorem encodeObject_fill (hs : s.WellFormed) (hp : p ∈ s.messages) (hstep : step ∈ p.steps)
    (name : String) (fields : List (String × Value)) (field : String) :
    encodeObject (.object name (s.fill fields step)) s p field =
      encodeObject (.object name fields) s p field := by
  have hnodup := hs.consistent.fields p hp
  rw [fill]
  split
  · rename_i w hget hfill
    refine encodeObject_congr ?_ (fun step' hstep' => ?_) name field
    · exact Ascending.find?_insert (by simp [MessagePlan.step?_of_mem hnodup hstep]) w fields
    · -- The step that is filled in was missing before, and all others are as they were.
      by_cases hname : step'.field = step.field
      · cases List.inj_on_of_nodup_map hnodup hstep' hstep hname
        rw [Ascending.get?_insert_self, hget]
        exact StandsIn.encodeFieldBy_eq hs rfl (standsIn_fillIn? hs hp hstep hfill)
      · rw [Ascending.get?_insert_of_ne hname]
  · rfl

/-- Filling in all fields changes nothing that is written. -/
theorem encodeObject_foldl_fill (hs : s.WellFormed) (hp : p ∈ s.messages) {steps : List Step}
    (hsteps : steps ⊆ p.steps) (name : String) (fields : List (String × Value)) (field : String) :
    encodeObject (.object name (steps.foldl s.fill fields)) s p field =
      encodeObject (.object name fields) s p field := by
  induction steps generalizing fields with
  | nil => rfl
  | cons step steps ih =>
    obtain ⟨hstep, hsteps⟩ := List.cons_subset.1 hsteps
    exact (ih hsteps _).trans (encodeObject_fill hs hp hstep name fields field)

end Object

/-! ## Values -/

namespace Value

/-- The same is written for the value as that of a field once it is filled. -/
def FieldFilled (w : Value) : Prop :=
  ∀ (s : CompiledSchema) (step : Step), s.WellFormed →
    fieldEncoder (w.rebuild .filled s step.shape) s step = fieldEncoder w s step

section Filled

variable {s owner : CompiledSchema} {p : MessagePlan} {w : Value}

/-- A value that is filled as that of a field is filled by itself. -/
theorem FieldFilled.encodeBy_eq (h : FieldFilled w) (hs : s.WellFormed) (field : String)
    (v : ValueStep) : (w.rebuild .filled s (.single v)).encodeBy
      (encodeObject (w.rebuild .filled s (.single v))) s field v =
        w.encodeBy (encodeObject w) s field v :=
  h s ⟨field, 0, .required, .single v, false, false⟩ hs

/-- The same is written for an object once it is filled, if this is so for its fields. -/
theorem encodeObject_filled (h : ∀ x ∈ w.parts, FieldFilled x) (hs : s.WellFormed)
    {id : MessageId} (hid : s.messagePlan? id = some (owner, p)) (field : String) :
    encodeObject (w.rebuild .filled s (.single (.nested id))) owner p field =
      encodeObject w owner p field := by
  obtain ⟨ho, hp⟩ := messagePlan?_eq_some.1 hid
  have howner := hs.of_owner? ho
  have hmem := List.mem_of_getElem? hp
  cases w with
  | object name fields =>
    rw [rebuild_nested (R := .filled) hid]
    -- First the missing fields, then what is inside of those that are there.
    refine (encodeObject_foldl_fill howner hmem (List.Subset.refl _) ..).trans ?_
    rw [rebuildFields_eq]
    refine encodeObject_congr ?_ (fun step hstep => ?_) name field
    · rw [List.map_map]
      rfl
    · have hshape := MessagePlan.shape?_of_mem (howner.consistent.fields p hmem) hstep
      rw [Ascending.get?_map, rebuildField_eq (R := .filled) hshape]
      cases hget : Ascending.get? step.field fields with
      | none => rfl
      | some w => exact h w (List.mem_map_of_mem (Ascending.mem_of_get? hget)) owner step howner
  | _ => rfl

/-- A value is written as before if its parts are when they are filled in. -/
theorem encodeBy_filled (h : ∀ x ∈ w.parts, FieldFilled x) (hs : s.WellFormed) (field : String)
    (v : ValueStep) : (w.rebuild .filled s (.single v)).encodeBy
      (encodeObject (w.rebuild .filled s (.single v))) s field v =
        w.encodeBy (encodeObject w) s field v := by
  cases v with
  | scalar p => rw [rebuild_scalar]
  | enum id => rw [rebuild_enum]
  | nested id =>
    rw [encodeBy, encodeBy]
    cases hid : s.messagePlan? id with
    | none =>
      rw [find, hid]
      rfl
    | some found =>
      rw [find_eq_ok.2 hid]
      exact congrArg (framed <$> ·) (encodeObject_filled h hs hid field)

end Filled

/-- All values are written as before when they are filled in, by induction on their parts. -/
theorem fieldFilled (w : Value) : FieldFilled w := by
  induction w using Value.induct with
  | h w ih =>
    rintro s ⟨field, _, _, shape, _, _⟩ hs
    cases shape with
    | single v => exact encodeBy_filled ih hs field v
    | optional v =>
      rw [rebuild_optional]
      exact congrArg ((Primitive.bool.write true ++ ·) <$> ·) (encodeBy_filled ih hs field v)
    | repeated v e =>
      cases w with
      | array items =>
        have hitems : encodeItems s field v (items.map (rebuild .filled s (.single v))) =
            encodeItems s field v items :=
          encodeItems_map fun w hw => (ih w hw).encodeBy_eq hs field v
        rw [rebuild, rebuildItems_eq]
        change e.write _ <$> encodeItems s field v (items.map _) = _
        rw [hitems, List.length_map]
        rfl
      | _ => rfl
    | map k v e =>
      cases w with
      | map entries =>
        have hentries : encodeEntries s field k v (entries.map fun x =>
            (rebuild .filled s (.single k) x.1, rebuild .filled s (.single v) x.2)) =
              encodeEntries s field k v entries :=
          encodeEntries_map (fun x hx => (of_mem_entries ih hx).1.encodeBy_eq hs field k)
            fun x hx => (of_mem_entries ih hx).2.encodeBy_eq hs field v
        rw [rebuild, rebuildEntries_eq]
        change e.write _ <$> encodeEntries s field k v (entries.map _) = _
        rw [hentries, List.length_map]
        rfl
      | _ => rfl

end Value

/-- The same is written for a value once all missing fields are filled in, at every level. -/
theorem encode_filled {t : ImportTable} (ht : t.Built) {schema : Schema} {s : CompiledSchema}
    (hs : schema.compile t = .ok s) (id : MessageId) (v : Value) :
    (v.filled s id).encode s id = v.encode s id := by
  have hwf := IsCompiled.wellFormed ⟨t, schema, ht, hs⟩
  rw [encode, encode]
  cases hid : s.messagePlan? id with
  | none =>
    rw [find, hid]
    rfl
  | some found =>
    rw [find_eq_ok.2 hid]
    exact encodeObject_filled (fun x _ => fieldFilled x) hwf hid ""

namespace Sample

/-- The fields of an orchard, which has a first tree and others. -/
def orchardFields : List (Field × ResolvedType) :=
  [ (⟨"first", 1, .named "Tree", false⟩, .single (.message ⟨.own, 1⟩)),
    (⟨"others", 2, .repeated (.named "Tree"), true⟩, .repeated (.message ⟨.own, 1⟩)) ]

/-- The fields of a tree. -/
def treeFields : List (Field × ResolvedType) :=
  [ (⟨"height", 1, .scalar .uint32, false⟩, .single (.scalar .uint32)),
    (⟨"age", 2, .scalar .uint32, true⟩, .single (.scalar .uint32)) ]

/-- Orchards. -/
def orchard : Schema where
  name := "orchard.proto"
  messages := [⟨"Orchard", orchardFields.map (·.1)⟩, ⟨"Tree", treeFields.map (·.1)⟩]

/-- The schema of orchards once it is compiled. -/
def compiledOrchard : CompiledSchema where
  name := "orchard.proto"
  package := none
  imports := []
  enums := []
  messages :=
    [ ⟨⟨.own, 0⟩, "Orchard", orchardFields.map fun f => (FieldMapping.ofType f.1 f.2).step⟩,
      ⟨⟨.own, 1⟩, "Tree", treeFields.map fun f => (FieldMapping.ofType f.1 f.2).step⟩ ]
  mappings := [orchardFields.map fun f => .ofType f.1 f.2, treeFields.map fun f => .ofType f.1 f.2]
  services := []
  order := ⟨[], [.message 1, .message 0]⟩

/-- An orchard that is filled. Its tree has no age, which is deprecated. -/
def filledOrchard : Value :=
  .object "Orchard" [("first", .object "Tree" [("height", .u32 0)]), ("others", .array [])]

end Sample

open Sample

theorem encode_filled_orchard :
    (object "Orchard" []).filled compiledOrchard ⟨.own, 0⟩ = filledOrchard ∧
      -- An age is written for the tree all the same.
      filledOrchard.encode compiledOrchard ⟨.own, 0⟩ = .ok [2, 0, 0, 0] := by
  have hcompile : orchard.compile .empty = .ok compiledOrchard := rfl
  have hfilled : (object "Orchard" []).filled compiledOrchard ⟨.own, 0⟩ = filledOrchard := rfl
  have hempty : (object "Orchard" []).encode compiledOrchard ⟨.own, 0⟩ = .ok [2, 0, 0, 0] := by
    decide +kernel
  have hencode := encode_filled .empty hcompile ⟨.own, 0⟩ (object "Orchard" [])
  rw [hfilled, hempty] at hencode
  exact ⟨hfilled, hencode⟩

end Marshal
