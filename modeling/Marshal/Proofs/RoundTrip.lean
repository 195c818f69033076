import Marshal.Proofs.Extension
import Marshal.Value.Encode

/-!
# Round trip

What is written for a value spells its *normal form* (`spells_encodeObject`): at
every level, fields that are absent have their defaults, and there are none that
are deprecated. So it is read as the normal form.

* `decode_encode`: this is so for all values, up to the nesting limit.
-/

namespace Marshal

open Wire Value CompiledSchema

/-! ## The normal form -/

/-- Objects in their normal form: the fields of the message that are not deprecated,
    with those that are absent at their defaults. -/
def Rebuilding.normal : Rebuilding CompiledSchema MessagePlan where
  enter := messagePlan?
  shape? := MessagePlan.shape?
  fields s plan fields := Ascending.ofPairs
    (fieldsBy (fun step => (Ascending.get? step.field fields).or (s.default? step)) plan.steps)

/-- The normal form of a value of a message. -/
def Value.normal (s : CompiledSchema) (id : MessageId) (v : Value) : Value :=
  v.rebuild .normal s (.single (.nested id))

/-! ## What is written -/

namespace Value

variable {s : CompiledSchema} {p : MessagePlan} {w : Value} {b : Bytes}

/-- A value that is taken for one of a primitive is the value that it makes. -/
theorem toValue_of_ofValue? {p : Primitive} {x : p.Carrier} (h : p.ofValue? w = some x) :
    w = p.toValue x := by
  cases p <;> cases w <;> cases h <;> rfl

/-- The fields of the normal form, given the fields of an object. -/
def normalFields (s : CompiledSchema) (p : MessagePlan) (fields : List (String × Value))
    (steps : List Step) : List (String × Value) :=
  fieldsBy (fun step => (Ascending.get? step.field (rebuildFields .normal s p fields)).or
    (s.default? step)) steps

/-- The encoder of a field spells the normal form of the value. -/
def SpellsField (encode : FieldEncoder) (w : Value) : Prop :=
  ∀ (s : CompiledSchema) (step : Step) (b : Bytes), s.WellFormed → encode s step = .ok b →
    SpellsShape s step.shape (some (w.rebuild .normal s step.shape)) b

/-- What is written for the value as an object spells its normal form. -/
def SpellsObject (w : Value) : Prop :=
  ∀ (s : CompiledSchema) (p : MessagePlan) (field : String) (b : Bytes), s.WellFormed →
    p ∈ s.messages → encodeObject w s p field = .ok b →
    ∃ fields, w = .object p.name fields ∧ SpellsFields s p.steps (normalFields s p fields p.steps) b

/-- What is written for the value as a sequence spells its normal form. -/
def SpellsArray (w : Value) : Prop :=
  ∀ (s : CompiledSchema) (field : String) (v : ValueStep) (e : Extent) (b : Bytes), s.WellFormed →
    encodeArray w s field v e = .ok b →
    SpellsShape s (.repeated v e) (some (w.rebuild .normal s (.repeated v e))) b

/-- What is written for the value as a map spells its normal form. -/
def SpellsMap (w : Value) : Prop :=
  ∀ (s : CompiledSchema) (field : String) (k v : ValueStep) (e : Extent) (b : Bytes),
    s.WellFormed → encodeMap w s field k v e = .ok b →
    SpellsShape s (.map k v e) (some (w.rebuild .normal s (.map k v e))) b

/-- What is written for a field spells its normal form, which is its default if the field is
    absent. -/
theorem spells_encodeFieldBy (hs : s.WellFormed) (hp : p ∈ s.messages) {step : Step}
    (hstep : step ∈ p.steps) {encoder : Option FieldEncoder} {found : Option Value}
    (h : Option.Rel SpellsField encoder found) (hb : encodeFieldBy encoder s step = .ok b) :
    SpellsShape s step.shape ((found.map (rebuild .normal s step.shape)).or (s.default? step))
      b := by
  cases h with
  | some h => exact h s step b hs hb
  | none =>
    obtain ⟨w, b', hw, hb', _, hspells⟩ := exists_absent hs hp hstep
    cases hb'.symm.trans hb
    rw [default?, hw]
    exact hspells

/-- What is written for the steps of a message, given what is for the fields that are
    present. -/
theorem spells_encodeStepsBy (hs : s.WellFormed) (hp : p ∈ s.messages)
    {encoders : List (String × FieldEncoder)} {fields : List (String × Value)}
    (h : ∀ f, Option.Rel SpellsField (Ascending.get? f encoders) (Ascending.get? f fields))
    {steps : List Step} (hsteps : steps ⊆ p.steps) (hb : encodeStepsBy encoders s steps = .ok b) :
    SpellsFields s steps (normalFields s p fields steps) b := by
  induction steps generalizing b with
  | nil =>
    cases Except.ok.inj hb
    exact .nil
  | cons step steps ih =>
    -- What is written for the first step spells its field, or its default, and so on.
    obtain ⟨hstep, hsteps⟩ := List.cons_subset.1 hsteps
    obtain ⟨b₁, hb₁, hb⟩ := bind_eq_ok.1 hb
    obtain ⟨b₂, hb₂, hb⟩ := bind_eq_ok.1 hb
    cases Except.ok.inj hb
    rw [normalFields, fieldsBy_cons]
    refine .cons ?_ (ih hsteps hb₂)
    rw [rebuildFields_eq, Ascending.get?_map,
      rebuildField_eq (MessagePlan.shape?_of_mem (hs.consistent.fields p hp) hstep)]
    exact spells_encodeFieldBy hs hp hstep (h step.field) hb₁

/-- Only an object of the name of a message that has all its fields is written as one of the
    message. -/
theorem encodeObject_eq_ok {field : String} (hb : encodeObject w s p field = .ok b) :
    ∃ fields, w = .object p.name fields ∧
      encodeStepsBy (fieldEncoders fields) s p.steps = .ok b := by
  cases w with
  | object name fields =>
    rw [encodeObject, encodeObjectBy] at hb
    split at hb
    · cases hb
    · rename_i hname
      -- The object has the name of the message, and no unknown field.
      cases Decidable.not_not.1 hname
      split at hb
      · cases hb
      · exact ⟨fields, rfl, hb⟩
  | _ => cases hb

/-- What is written for a value, given what is if it is an object. -/
theorem spells_encodeBy (h : SpellsObject w) (hs : s.WellFormed) {field : String} {v : ValueStep}
    (hb : w.encodeBy (encodeObject w) s field v = .ok b) :
    Spells s v (w.rebuild .normal s (.single v)) b := by
  cases v with
  | scalar p =>
    rw [encodeBy] at hb
    split at hb
    · rename_i x hx
      cases Except.ok.inj hb
      rw [rebuild_scalar, toValue_of_ofValue? hx]
      exact .scalar x
    · cases hb
  | enum id =>
    cases w with
    | enum n =>
      cases Except.ok.inj hb
      exact .enum n
    | _ => cases hb
  | nested id =>
    obtain ⟨⟨owner, p⟩, hfind, hb⟩ := bind_eq_ok.1 hb
    obtain ⟨payload, hpayload, rfl⟩ := map_eq_ok.1 hb
    have hid := find_eq_ok.1 hfind
    obtain ⟨ho, hp⟩ := messagePlan?_eq_some.1 hid
    obtain ⟨fields, rfl, hspells⟩ := h owner p field payload (hs.of_owner? ho)
      (List.mem_of_getElem? hp) hpayload
    rw [rebuild_nested (R := .normal) hid]
    exact .nested hid hspells

/-- What is written for a field that is present, given what is for its value. -/
theorem spells_encodePresentBy (hobject : SpellsObject w) (harray : SpellsArray w)
    (hmap : SpellsMap w) :
    SpellsField (encodePresentBy w (encodeObject w) (encodeArray w) (encodeMap w)) w := by
  intro s step b hs hb
  rw [encodePresentBy] at hb
  split at hb
  · rename_i v hshape
    rw [hshape]
    exact .single (spells_encodeBy hobject hs hb)
  · rename_i v hshape
    obtain ⟨payload, hpayload, rfl⟩ := map_eq_ok.1 hb
    rw [hshape, rebuild_optional]
    exact .present (spells_encodeBy hobject hs hpayload)
  · rename_i v e hshape
    rw [hshape]
    exact harray s step.field v e b hs hb
  · rename_i k v e hshape
    rw [hshape]
    exact hmap s step.field k v e b hs hb

mutual

/-- What is written for any object spells its normal form, by induction on the value. -/
theorem spells_encodeObject : ∀ w : Value, SpellsObject w
  | .object name fields => by
    intro s p field b hs hp hb
    obtain ⟨fields', hfields, hb⟩ := encodeObject_eq_ok hb
    cases hfields
    exact ⟨fields, rfl, spells_encodeStepsBy hs hp (spells_fieldEncoders fields)
      (List.Subset.refl _) hb⟩
  | .bool _ | .u32 _ | .u64 _ | .i32 _ | .i64 _ | .f32 _ | .f64 _ | .string _ | .bytes _ | .enum _
  | .array _ | .map _ => by
    intro s p field b _ _ hb
    cases hb

/-- What is written for elements spells their normal forms. -/
theorem spells_encodeItems : ∀ (items : List Value) {s : CompiledSchema} (_ : s.WellFormed)
    {field : String} {v : ValueStep} {b : Bytes}, encodeItems s field v items = .ok b →
    SpellsItems s v (rebuildItems .normal s v items) b
  | [], _, _, _, _, _, hb => by
    cases Except.ok.inj hb
    exact .nil
  | w :: items, s, hs, field, v, b, hb => by
    obtain ⟨b₁, hb₁, hb⟩ := bind_eq_ok.1 hb
    obtain ⟨b₂, hb₂, hb⟩ := bind_eq_ok.1 hb
    cases Except.ok.inj hb
    exact .cons (spells_encodeBy (spells_encodeObject w) hs hb₁) (spells_encodeItems items hs hb₂)

/-- What is written for keys and values spells their normal forms. -/
theorem spells_encodeEntries : ∀ (entries : List (Value × Value)) {s : CompiledSchema}
    (_ : s.WellFormed) {field : String} {k v : ValueStep} {b : Bytes},
    encodeEntries s field k v entries = .ok b →
    SpellsEntries s k v (rebuildEntries .normal s k v entries) b
  | [], _, _, _, _, _, _, hb => by
    cases Except.ok.inj hb
    exact .nil
  | (x, w) :: entries, s, hs, field, k, v, b, hb => by
    obtain ⟨a, ha, hb⟩ := bind_eq_ok.1 hb
    obtain ⟨b₁, hb₁, hb⟩ := bind_eq_ok.1 hb
    obtain ⟨b₂, hb₂, hb⟩ := bind_eq_ok.1 hb
    cases Except.ok.inj hb
    exact .cons (spells_encodeBy (spells_encodeObject x) hs ha)
      (spells_encodeBy (spells_encodeObject w) hs hb₁) (spells_encodeEntries entries hs hb₂)

/-- What is written for any sequence spells its normal form. -/
theorem spells_encodeArray : ∀ w : Value, SpellsArray w
  | .array items => by
    intro s field v e b hs hb
    obtain ⟨payload, hpayload, rfl⟩ := map_eq_ok.1 hb
    have h := SpellsShape.repeated e (spells_encodeItems items hs hpayload)
    rw [rebuildItems_eq, List.length_map, ← rebuildItems_eq] at h
    exact h
  | .bool _ | .u32 _ | .u64 _ | .i32 _ | .i64 _ | .f32 _ | .f64 _ | .string _ | .bytes _ | .enum _
  | .map _ | .object _ _ => by
    intro s field v e b _ hb
    cases hb

/-- What is written for any map spells its normal form. -/
theorem spells_encodeMap : ∀ w : Value, SpellsMap w
  | .map entries => by
    intro s field k v e b hs hb
    obtain ⟨payload, hpayload, rfl⟩ := map_eq_ok.1 hb
    have h := SpellsShape.map e (spells_encodeEntries entries hs hpayload)
    rw [rebuildEntries_eq, List.length_map, ← rebuildEntries_eq] at h
    exact h
  | .bool _ | .u32 _ | .u64 _ | .i32 _ | .i64 _ | .f32 _ | .f64 _ | .string _ | .bytes _ | .enum _
  | .array _ | .object _ _ => by
    intro s field k v e b _ hb
    cases hb

/-- Every encoder of a field writes what spells the field. -/
theorem spells_fieldEncoders : ∀ (fields : List (String × Value)) (f : String),
    Option.Rel SpellsField (Ascending.get? f (fieldEncoders fields)) (Ascending.get? f fields)
  | [], _ => .none
  | (name, w) :: fields, f => by
    rw [fieldEncoders, Ascending.get?, Ascending.get?]
    split
    · exact .some (spells_encodePresentBy (spells_encodeObject w) (spells_encodeArray w)
        (spells_encodeMap w))
    · exact spells_fieldEncoders fields f

end

/-- A value of a message is written step by step. -/
theorem encode_eq_ok {id : MessageId} (hb : w.encode s id = .ok b) :
    ∃ o p fields, s.messagePlan? id = some (o, p) ∧ w = .object p.name fields ∧
      encodeStepsBy (fieldEncoders fields) o p.steps = .ok b := by
  obtain ⟨⟨o, p⟩, hfind, hb⟩ := bind_eq_ok.1 hb
  obtain ⟨fields, hw, hb⟩ := encodeObject_eq_ok hb
  exact ⟨o, p, fields, find_eq_ok.1 hfind, hw, hb⟩

/-- What is written for a value of a message spells the fields of its normal form. -/
theorem exists_spells_of_encode (hs : s.WellFormed) {id : MessageId}
    (hb : w.encode s id = .ok b) :
    ∃ o p fields, s.messagePlan? id = some (o, p) ∧ SpellsFields o p.steps fields b ∧
      w.normal s id = .record p.name fields := by
  obtain ⟨o, p, fields, hid, rfl, hsteps⟩ := encode_eq_ok hb
  obtain ⟨ho, hp⟩ := messagePlan?_eq_some.1 hid
  have hspells := spells_encodeStepsBy (hs.of_owner? ho) (List.mem_of_getElem? hp)
    (spells_fieldEncoders fields) (List.Subset.refl _) hsteps
  exact ⟨o, p, _, hid, hspells, rebuild_nested (R := .normal) hid p.name fields⟩

end Value

/-! ## What is read -/

/-- A well-formed schema reads what it writes for a value as the normal form of it. -/
theorem decode_of_encode {s : CompiledSchema} (hs : s.WellFormed) {id : MessageId} {v : Value}
    {b : Bytes} (hv : v.encode s id = .ok b) (hb : b.length < 2 ^ 64) :
    if (v.normal s id).nesting ≤ nestingLimit then decode s id b = .ok (v.normal s id)
    else ∃ offset, decode s id b = .error (.wire (.nestingLimit offset nestingLimit)) := by
  obtain ⟨o, p, fields, hid, hspells, hnormal⟩ := exists_spells_of_encode hs hv
  have hdecode := decode_of_spells (.refl hs) hid hspells hb
  rwa [extend_self, ← hnormal] at hdecode

/-- What is written for a value is read as its normal form if that is nested at most
    as deeply as the limit allows, and runs into the limit otherwise. Lengths are
    words of 64 bits, which no list of bytes in memory exceeds. -/
theorem decode_encode {t : ImportTable} (ht : t.Built) {schema : Schema} {s : CompiledSchema}
    (hs : schema.compile t = .ok s) {id : MessageId} {v : Value} {b : Bytes}
    (hv : v.encode s id = .ok b) (hb : b.length < 2 ^ 64) :
    s.DefaultsStandIn ∧
      if (v.normal s id).nesting ≤ nestingLimit then decode s id b = .ok (v.normal s id)
      else ∃ offset, decode s id b = .error (.wire (.nestingLimit offset nestingLimit)) := by
  have hwf := IsCompiled.wellFormed ⟨t, schema, ht, hs⟩
  exact ⟨hwf.defaultsStandIn, decode_of_encode hwf hv hb⟩

namespace Sample

/-- The fields of a node of a tree, with the types that they are resolved to. -/
def nodeFields : List (Field × ResolvedType) :=
  [ (⟨"key", 1, .scalar .uint32, false⟩, .single (.scalar .uint32)),
    (⟨"weight", 2, .scalar .sint32, true⟩, .single (.scalar .sint32)),
    (⟨"children", 3, .repeated (.named "Node"), false⟩, .repeated (.message ⟨.own, 0⟩)) ]

/-- Trees, whose nodes have the fields. -/
def tree (fields : List (Field × ResolvedType)) : Schema where
  name := "tree.proto"
  messages := [⟨"Node", fields.map (·.1)⟩]

/-- The schema of trees once it is compiled. -/
def compiledTree (fields : List (Field × ResolvedType)) : CompiledSchema where
  name := "tree.proto"
  package := none
  imports := []
  enums := []
  messages := [⟨⟨.own, 0⟩, "Node", fields.map fun f => (FieldMapping.ofType f.1 f.2).step⟩]
  mappings := [fields.map fun f => .ofType f.1 f.2]
  services := []
  order := ⟨[], [.message 0]⟩

/-- A node of weight 3 that has no key, with a leaf below it. -/
def sprout : Value :=
  .object "Node" [("children", .array [.object "Node" [("key", .u32 9)]]), ("weight", .i32 3)]

/-- The sprout in normal form: with a key and without a weight. -/
def sproutNormal : Value :=
  .object "Node"
    [ ("children", .array [.object "Node" [("children", .array []), ("key", .u32 9)]]),
      ("key", .u32 0) ]

theorem compile_tree : (tree nodeFields).compile .empty = .ok (compiledTree nodeFields) := rfl

theorem encode_sprout :
    sprout.encode (compiledTree nodeFields) ⟨.own, 0⟩ = .ok [0, 6, 4, 3, 9, 0, 0] := by
  decide +kernel

theorem normal_sprout : sprout.normal (compiledTree nodeFields) ⟨.own, 0⟩ = sproutNormal := rfl

theorem decode_sprout :
    decode (compiledTree nodeFields) ⟨.own, 0⟩ [0, 6, 4, 3, 9, 0, 0] = .ok sproutNormal := by
  have hwf := IsCompiled.wellFormed ⟨.empty, tree nodeFields, .empty, compile_tree⟩
  have hdecode := decode_of_encode hwf encode_sprout (by decide)
  rwa [normal_sprout, if_pos (by decide)] at hdecode

end Sample

open Sample

theorem decode_encode_sprout :
    sprout.encode (compiledTree nodeFields) ⟨.own, 0⟩ = .ok [0, 6, 4, 3, 9, 0, 0] ∧
      decode (compiledTree nodeFields) ⟨.own, 0⟩ [0, 6, 4, 3, 9, 0, 0] = .ok sproutNormal := by
  have hdecode := (decode_encode .empty compile_tree encode_sprout (by decide)).2
  rw [normal_sprout, if_pos (by decide)] at hdecode
  exact ⟨encode_sprout, hdecode⟩

end Marshal
