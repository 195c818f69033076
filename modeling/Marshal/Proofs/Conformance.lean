import Marshal.Proofs.Writing

/-!
# Values that conform to a schema

A value *conforms* to a message if it is an object of its name that has all fields it
has to have, and no others: none that is deprecated or not declared, every one that is
required, a sequence or a map, and optional ones or not, with values that conform in
turn (`Conforms`).

* `StandsIn.conforms`: defaults conform;
* `yields_object`: whatever bytes are read, by whatever levels are left, what is read
  conforms, and there are no errors but those of the wire;
* `Conforms.exists_encode`: what conforms can be written.
-/

namespace Marshal

open Wire Value CompiledSchema

mutual

/-- The value is one of those that a step describes. -/
inductive Conforms : CompiledSchema → ValueStep → Value → Prop
  | scalar {s : CompiledSchema} {p : Primitive} (x : p.Carrier) :
    Conforms s (.scalar p) (p.toValue x)
  | enum {s : CompiledSchema} {id : EnumId} (n : Int32) : Conforms s (.enum id) (.enum n)
  | nested {s owner : CompiledSchema} {id : MessageId} {plan : MessagePlan}
      {fields : List (String × Value)} :
    s.messagePlan? id = some (owner, plan) → Ascending.Sorted fields →
    -- There are no fields but those of the message that are not deprecated,
    (∀ f ∈ fields, ∃ step ∈ plan.steps, step.field = f.1 ∧ step.deprecated = false) →
    -- and of these all that have to be there.
    (∀ step ∈ plan.steps, step.deprecated = false →
      ConformsShape owner step.shape (Ascending.get? step.field fields)) →
    Conforms s (.nested id) (.object plan.name fields)

/-- The value of a field, or its absence, is one of those that its shape describes. -/
inductive ConformsShape : CompiledSchema → Shape → Option Value → Prop
  | single {s : CompiledSchema} {v : ValueStep} {w : Value} :
    Conforms s v w → ConformsShape s (.single v) (some w)
  | absent {s : CompiledSchema} {v : ValueStep} : ConformsShape s (.optional v) none
  | present {s : CompiledSchema} {v : ValueStep} {w : Value} :
    Conforms s v w → ConformsShape s (.optional v) (some w)
  | repeated {s : CompiledSchema} {v : ValueStep} {e : Extent} {items : List Value} :
    (∀ w ∈ items, Conforms s v w) → ConformsShape s (.repeated v e) (some (.array items))
  | map {s : CompiledSchema} {k v : ValueStep} {e : Extent} {entries : List (Value × Value)} :
    (∀ entry ∈ entries, Conforms s k entry.1) → (∀ entry ∈ entries, Conforms s v entry.2) →
    ConformsShape s (.map k v e) (some (.map entries))

end

/-! ## Fields one after the other -/

/-- The value of a field is one of those that its step describes, or there is none since
    the field is deprecated. -/
def ConformsStep (s : CompiledSchema) (step : Step) (w : Option Value) : Prop :=
  if step.deprecated then w = none else ConformsShape s step.shape w

/-- The fields are those of the steps that are not deprecated, with values that conform. -/
structure ConformFields (s : CompiledSchema) (steps : List Step) (fields : List (String × Value)) :
    Prop where
  sublist : (fields.map (·.1)).Sublist ((steps.filter (!·.deprecated)).map (·.field))
  shape : ∀ step ∈ steps, step.deprecated = false →
    ConformsShape s step.shape (Ascending.get? step.field fields)

namespace ConformFields

variable {s : CompiledSchema} {step : Step} {steps : List Step} {fields : List (String × Value)}

theorem nil : ConformFields s [] [] := ⟨.slnil, fun _ h => absurd h List.not_mem_nil⟩

/-- Every field is that of a step which is not deprecated. -/
theorem mem_of_mem (h : ConformFields s steps fields) {f : String × Value} (hf : f ∈ fields) :
    ∃ step ∈ steps, step.field = f.1 ∧ step.deprecated = false := by
  obtain ⟨step, hstep, hname⟩ := List.mem_map.1 (h.sublist.subset (List.mem_map_of_mem hf))
  simp only [List.mem_filter, Bool.not_eq_eq_eq_not, Bool.not_true] at hstep
  exact ⟨step, hstep.1, hname, hstep.2⟩

/-- No field is there twice. -/
theorem nodup (h : ConformFields s steps fields) (hsteps : (steps.map (·.field)).Nodup) :
    (fields.map (·.1)).Nodup :=
  (h.sublist.trans (List.filter_sublist.map _)).nodup hsteps

/-- A step in front puts its field in front. -/
theorem cons (hsteps : ((step :: steps).map (·.field)).Nodup) {w : Option Value}
    (hw : ConformsStep s step w) (h : ConformFields s steps fields) :
    ConformFields s (step :: steps) (step.put w fields) := by
  rw [List.map_cons, List.nodup_cons] at hsteps
  -- The fields that are there already belong to later steps.
  have hnot : step.field ∉ fields.map (·.1) := fun hmem =>
    hsteps.1 ((h.sublist.trans (List.filter_sublist.map _)).subset hmem)
  rw [ConformsStep] at hw
  refine ⟨?_, fun step' hstep' hd => ?_⟩
  · cases hd : step.deprecated with
    | true =>
      rw [if_pos hd] at hw
      simpa [hw, hd, Step.put] using h.sublist
    | false =>
      rw [List.filter_cons_of_pos (by simp [hd]), List.map_cons]
      cases w with
      | none => exact h.sublist.cons _
      | some w => exact h.sublist.cons_cons _
  · rcases List.mem_cons.1 hstep' with rfl | hstep'
    · rw [get?_put_self hnot]
      rwa [if_neg (by simp [hd])] at hw
    · rw [get?_put_of_ne fun he => hsteps.1 (he ▸ List.mem_map_of_mem hstep')]
      exact h.shape step' hstep' hd

end ConformFields

/-- An object conforms if its fields do. -/
theorem Conforms.record {s owner : CompiledSchema} {id : MessageId} {p : MessagePlan}
    (hid : s.messagePlan? id = some (owner, p)) (hp : (p.steps.map (·.field)).Nodup)
    {fields : List (String × Value)} (h : ConformFields owner p.steps fields) :
    Conforms s (.nested id) (.record p.name fields) := by
  have hnodup := h.nodup hp
  refine .nested hid (Ascending.sorted_ofPairs fields) (fun f hf => ?_) fun step hstep hd => ?_
  · exact h.mem_of_mem ((Ascending.perm_ofPairs hnodup).mem_iff.1 hf)
  · rw [Ascending.get?_ofPairs hnodup]
    exact h.shape step hstep hd

/-! ## Defaults -/

mutual

/-- What stands in for a missing value conforms. -/
theorem IsDefault.conforms {s : CompiledSchema} (hs : s.WellFormed) {v : ValueStep} {w : Value} :
    IsDefault s v w → Conforms s v w
  | .scalar => .scalar _
  | .enum _ => .enum _
  | .nested hid hfields => by
    obtain ⟨ho, hp⟩ := messagePlan?_eq_some.1 hid
    have howner := hs.of_owner? ho
    have hnodup := howner.consistent.fields _ (List.mem_of_getElem? hp)
    exact .record hid hnodup (StandInFor.conforms howner hfields hnodup)

/-- What stands in for a missing field conforms. -/
theorem StandsIn.conforms {s : CompiledSchema} (hs : s.WellFormed) {shape : Shape}
    {w : Option Value} : StandsIn s shape w → ConformsShape s shape w
  | .single hw => .single (IsDefault.conforms hs hw)
  | .optional => .absent
  | .repeated => .repeated fun _ h => absurd h List.not_mem_nil
  | .map => .map (fun _ h => absurd h List.not_mem_nil) fun _ h => absurd h List.not_mem_nil

/-- The fields that stand in for those of an object conform. -/
theorem StandInFor.conforms {s : CompiledSchema} (hs : s.WellFormed) {steps : List Step}
    {fields : List (String × Value)} : StandInFor s steps fields →
      (steps.map (·.field)).Nodup → ConformFields s steps fields
  | .nil, _ => .nil
  | @StandInFor.cons _ step _ _ _ hw hfields, hsteps => by
    have hshape := StandsIn.conforms hs hw
    refine .cons hsteps ?_ (StandInFor.conforms hs hfields (List.nodup_cons.1 hsteps).2)
    rw [ConformsStep]
    split
    · rfl
    · exact hshape

end

/-! ## Reading -/

/-- Whatever is read satisfies `P`, and there are no errors but those of the wire. -/
def Yields {α : Type} (m : Decoding α) (P : α → Prop) : Prop :=
  ∀ r, (∃ a r', m r = .ok a r' ∧ P a) ∨ ∃ e r', m r = .error (.wire e) r'

namespace Yields

variable {α β : Type} {m : Decoding α} {P : α → Prop} {Q : β → Prop}

theorem pure {a : α} (h : P a) : Yields (Pure.pure a) P := fun r => .inl ⟨a, r, rfl, h⟩

/-- Readings in a row yield what the second one does. -/
theorem bind {f : α → Decoding β} (hm : Yields m P) (hf : ∀ a, P a → Yields (f a) Q) :
    Yields (m >>= f) Q := by
  intro r
  rcases hm r with ⟨a, r₁, ha, hP⟩ | ⟨e, r₁, he⟩
  · rw [bind_of_ok ha]
    exact hf a hP r₁
  · exact .inr ⟨e, r₁, bind_of_error he⟩

theorem mono {P' : α → Prop} (hm : Yields m P) (h : ∀ a, P a → P' a) : Yields m P' := fun r =>
  (hm r).imp_left fun ⟨a, r', ha, hP⟩ => ⟨a, r', ha, h a hP⟩

theorem map {f : α → β} (hm : Yields m P) (h : ∀ a, P a → Q (f a)) : Yields (f <$> m) Q :=
  hm.bind fun a hP => .pure (h a hP)

/-- A reading of the wire yields anything, or an error of the wire. -/
theorem onWire (read : WireReading α) : Yields (onWire read) fun _ => True := by
  intro r
  cases hread : read r with
  | ok a r' => exact .inl ⟨a, r', onWire_of_ok hread, trivial⟩
  | error e r' => exact .inr ⟨e, r', by rw [Value.onWire, hread]⟩

theorem given {x : Except Value.Error α} {a : α} (hx : x = .ok a) (h : P a) :
    Yields (given x) P := by
  rw [hx]
  exact .pure h

/-- Readings may depend on the reader as a whole. -/
theorem ofReader (f : Reader → Decoding α) (h : ∀ r, Yields (f r) P) :
    Yields (fun r => f r r) P := fun r => h r r

/-- A reading yields the same in a frame. -/
theorem within (hm : Yields m P) (frame : Reader) : Yields (within frame m) P := by
  intro r
  rcases hm frame with ⟨a, r₁, ha, hP⟩ | ⟨e, r₁, he⟩
  · exact .inl ⟨a, r, within_of_ok ha r, hP⟩
  · exact .inr ⟨e, r, by rw [Wire.within, he]⟩

/-- Every element is what reading once yields. -/
theorem readTimes (hm : Yields m P) (count : Nat) :
    Yields (readTimes m count) fun as => ∀ a ∈ as, P a := by
  induction count with
  | zero => exact .pure fun _ h => absurd h List.not_mem_nil
  | succ count ih =>
    exact hm.bind fun a ha => ih.map fun as has => List.forall_mem_cons.2 ⟨ha, has⟩

/-- So is every element that is read up to the end. -/
theorem readBounded (hm : Yields m P) (bound : Nat) :
    Yields (readBounded m bound) fun as => ∀ a ∈ as, P a := by
  induction bound with
  | zero => exact .pure fun _ h => absurd h List.not_mem_nil
  | succ bound ih =>
    refine ofReader (fun r => if r.atEnd then Pure.pure [] else _) fun r => ?_
    split
    · exact .pure fun _ h => absurd h List.not_mem_nil
    · exact hm.bind fun a ha => ih.map fun as has => List.forall_mem_cons.2 ⟨ha, has⟩

theorem readToEnd (hm : Yields m P) : Yields (readToEnd m) fun as => ∀ a ∈ as, P a :=
  ofReader (fun r => Wire.readBounded m r.remaining) fun r => hm.readBounded r.remaining

/-- So is every element of a sequence. -/
theorem sequence (hm : Yields m P) (e : Extent) :
    Yields (decodeSequence m e) fun as => ∀ a ∈ as, P a := by
  cases e with
  | elements => exact (onWire readLength).bind fun count _ => hm.readTimes count
  | bytes => exact (onWire readFrame).bind fun frame _ => hm.readToEnd.within frame

end Yields

section Fields

variable {s : CompiledSchema} {p : MessagePlan} {value : ValueStep → Decoding Value}

/-- If values conform, what is read for a field does. -/
theorem yields_shape {shape : Shape} (h : ∀ v ∈ shape.values, Yields (value v) (Conforms s v)) :
    Yields (decodeShape value shape) (ConformsShape s shape) := by
  cases shape with
  | single v => exact (h v (List.mem_singleton_self v)).map fun w hw => .single hw
  | optional v =>
    refine (Yields.onWire readBool).bind fun present _ => ?_
    cases present with
    | false => exact .pure .absent
    | true => exact (h v (List.mem_singleton_self v)).map fun w hw => .present hw
  | repeated v e =>
    exact ((h v (List.mem_singleton_self v)).sequence e).map fun items hitems => .repeated hitems
  | map k v e =>
    -- An entry is a key and a value, both of which conform.
    have hentry : Yields (do return (← value k, ← value v))
        fun entry => Conforms s k entry.1 ∧ Conforms s v entry.2 :=
      (h k List.mem_cons_self).bind fun _ hx =>
        (h v (List.mem_cons_of_mem _ (List.mem_singleton_self v))).map fun _ hw => ⟨hx, hw⟩
    exact (hentry.sequence e).map fun entries hentries =>
      .map (fun entry hentry => (hentries entry hentry).1)
        fun entry hentry => (hentries entry hentry).2

/-- If values conform, what there is for a step does. -/
theorem yields_step (hs : s.WellFormed) (hp : p ∈ s.messages) {step : Step} (hstep : step ∈ p.steps)
    (h : ∀ v, s.Resolves v → Yields (value v) (Conforms s v)) :
    Yields (decodeStepBy value s step) (ConformsStep s step) := by
  refine Yields.ofReader (fun r => if r.atEnd then _ else _) fun r => ?_
  change Yields _ fun w => if step.deprecated then w = none else ConformsShape s step.shape w
  -- A deprecated step gives nothing, at the end of the bytes or before it.
  cases step.deprecated with
  | true =>
    simp only [↓reduceIte]
    split
    · exact .pure rfl
    · exact (Yields.onWire _).bind fun _ _ => .pure rfl
  | false =>
    simp only [Bool.false_eq_true, ↓reduceIte]
    split
    · exact .given (defaultStep_eq hs hp hstep) ((standsIn_default? hs hp hstep).conforms hs)
    · exact yields_shape fun v hv => h v (hs.consistent.resolves p hp step hstep v hv)

/-- If values conform, the fields of a message do. -/
theorem yields_fields (hs : s.WellFormed) (hp : p ∈ s.messages)
    (h : ∀ v, s.Resolves v → Yields (value v) (Conforms s v)) {steps : List Step}
    (hsteps : steps ⊆ p.steps) (hnodup : (steps.map (·.field)).Nodup) :
    Yields (decodeFieldsBy value s steps) (ConformFields s steps) := by
  induction steps with
  | nil => exact .pure .nil
  | cons step steps ih =>
    obtain ⟨hstep, hsteps⟩ := List.cons_subset.1 hsteps
    rw [decodeFieldsBy_cons]
    exact (yields_step hs hp hstep h).bind fun w hw =>
      (ih hsteps (List.nodup_cons.1 hnodup).2).map fun fields hfields => .cons hnodup hw hfields

end Fields

/-- What is read as an object conforms to its message, wherever that is looked up. -/
theorem yields_object (levels : Nat) {s : CompiledSchema} (hs : s.WellFormed) {p : MessagePlan}
    (hp : p ∈ s.messages) : Yields (decodeObject levels s p) fun w =>
      ∀ s' id, s'.messagePlan? id = some (s, p) → Conforms s' (.nested id) w := by
  induction levels generalizing s p with
  | zero => exact fun r => .inr ⟨_, r, rfl⟩
  | succ levels ih =>
    -- The object takes one level, and its fields are read with those that are left.
    have hnodup := hs.consistent.fields p hp
    refine (yields_fields hs hp (fun v hv => ?_) (List.Subset.refl _) hnodup).map
      fun fields hfields s' id hid => .record hid hnodup hfields
    cases v with
    | scalar p => exact (Yields.onWire _).map fun x _ => .scalar x
    | enum id => exact (Yields.onWire _).map fun n _ => .enum _
    | nested id =>
      obtain ⟨⟨owner, plan⟩, hid⟩ := Option.isSome_iff_exists.1 hv
      obtain ⟨ho, hplan⟩ := messagePlan?_eq_some.1 hid
      rw [decodeBy_nested (find_eq_ok.2 hid)]
      refine (Yields.onWire readMessageFrame).bind fun frame _ => ?_
      exact ((ih (hs.of_owner? ho) (List.mem_of_getElem? hplan)).within frame).mono
        fun w hw => hw s id hid

/-! ## Writing -/

mutual

/-- What conforms fits. -/
theorem Conforms.fits {s : CompiledSchema} (hs : s.WellFormed) {v : ValueStep} {w : Value} :
    Conforms s v w → Fits s v w
  | .scalar x => .scalar x
  | .enum n => .enum n
  | .nested hid _ hknown hshape => by
    obtain ⟨ho, hp⟩ := messagePlan?_eq_some.1 hid
    have howner := hs.of_owner? ho
    have hnodup := howner.consistent.fields _ (List.mem_of_getElem? hp)
    refine .nested hid (fun f hf => ?_) fun step hstep w hget => ?_
    · obtain ⟨step, hstep, hname, _⟩ := hknown f hf
      exact ⟨step, hstep, hname⟩
    · -- The step is the one of the field's name, which is not deprecated.
      obtain ⟨step', hstep', hname, hd⟩ := hknown _ (Ascending.mem_of_get? hget)
      cases List.inj_on_of_nodup_map hnodup hstep' hstep hname
      exact ConformsShape.fits howner (hshape step hstep hd) hget

/-- A field that conforms fits, if it is there. -/
theorem ConformsShape.fits {s : CompiledSchema} (hs : s.WellFormed) {shape : Shape}
    {w' : Option Value} : ConformsShape s shape w' → ∀ {w : Value}, w' = some w →
      FitsShape s shape w
  | .single hw, _, rfl => .single (Conforms.fits hs hw)
  | .present hw, _, rfl => .optional (Conforms.fits hs hw)
  | .repeated hitems, _, rfl => .repeated fun w hw => Conforms.fits hs (hitems w hw)
  | .map hkeys hvalues, _, rfl =>
    .map (fun e he => Conforms.fits hs (hkeys e he)) fun e he => Conforms.fits hs (hvalues e he)

end

/-- An object that conforms to a message can be written as one of it. -/
theorem Conforms.exists_encode {s : CompiledSchema} (hs : s.IsCompiled) {id : MessageId} {w : Value}
    (h : Conforms s (.nested id) w) : ∃ b, w.encode s id = .ok b := by
  have hid : (s.messagePlan? id).isSome := by
    cases h with
    | nested hid => rw [hid]; rfl
  exact (decides_encode hs hid w).exists_ok (h.fits hs.wellFormed)

/-- What is read conforms. -/
theorem decode_conforms {s : CompiledSchema} (hs : s.WellFormed) {id : MessageId}
    (hid : (s.messagePlan? id).isSome) (b : Bytes) :
    (∃ e, decode s id b = .error (.wire e)) ∨
      ∃ v, decode s id b = .ok v ∧ Conforms s (.nested id) v := by
  obtain ⟨⟨owner, p⟩, hid⟩ := Option.isSome_iff_exists.1 hid
  obtain ⟨ho, hp⟩ := messagePlan?_eq_some.1 hid
  rw [decode_eq hid]
  rcases yields_object (nestingLimit + 1) (hs.of_owner? ho) (List.mem_of_getElem? hp) (.ofBytes b)
    with ⟨v, r, hv, hconforms⟩ | ⟨e, r, he⟩
  · exact .inr ⟨v, by rw [hv], hconforms s id hid⟩
  · exact .inl ⟨e, by rw [he]⟩

/-- Whatever bytes are read as an object of a message, there is an error of the wire, or
    an object that conforms to the message and can be written. -/
theorem decode_safe {t : ImportTable} (ht : t.Built) {schema : Schema} {s : CompiledSchema}
    (hs : schema.compile t = .ok s) {id : MessageId} (hid : (s.messagePlan? id).isSome)
    (b : Bytes) :
    (∃ e, decode s id b = .error (.wire e)) ∨
      ∃ v, decode s id b = .ok v ∧ Conforms s (.nested id) v ∧ ∃ b', v.encode s id = .ok b' := by
  have hc : s.IsCompiled := ⟨t, schema, ht, hs⟩
  rcases decode_conforms hc.wellFormed hid b with he | ⟨v, hv, hconforms⟩
  · exact .inl he
  · exact .inr ⟨v, hv, hconforms, hconforms.exists_encode hc⟩

open Sample

theorem decode_safe_sprout :
    decode (compiledTree nodeFields) ⟨.own, 0⟩ [0, 6, 4, 3, 9, 0, 0] = .ok sproutNormal ∧
      Conforms (compiledTree nodeFields) (.nested ⟨.own, 0⟩) sproutNormal ∧
      ∃ b, sproutNormal.encode (compiledTree nodeFields) ⟨.own, 0⟩ = .ok b := by
  have hid : ((compiledTree nodeFields).messagePlan? ⟨.own, 0⟩).isSome := rfl
  rcases decode_safe .empty compile_tree hid [0, 6, 4, 3, 9, 0, 0] with
    ⟨e, he⟩ | ⟨v, hv, hconforms, hwrite⟩
  · cases decode_sprout.symm.trans he
  · cases Except.ok.inj (decode_sprout.symm.trans hv)
    exact ⟨decode_sprout, hconforms, hwrite⟩

end Marshal
