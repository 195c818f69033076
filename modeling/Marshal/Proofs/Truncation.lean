import Marshal.Proofs.Rereading
import Marshal.Proofs.Scanning

/-!
# Bytes that end early

What is written for a value can be cut off anywhere. If the cut is between two fields of the
object itself, the fields before it are read as they are and those after it take their defaults
(`decode_of_first`): the reader takes the bytes for those of a writer that knew fewer fields. At
any other place the cut is noticed.

No place of a cut has to be looked at for this. Reading a field does not depend on what comes
after it, so if it succeeded on the bytes before the cut, it would stop there on the whole bytes
too. But there it goes on to the end of the field (`exists_first_of_decode`).
-/

namespace Marshal

open Wire Value CompiledSchema

/-! ## Cuts between fields -/

/-- What is written for the first `k` fields of an object of a message. -/
def Value.encodeFirst (v : Value) (s : CompiledSchema) (id : MessageId) (k : Nat) :
    Except Value.Error Bytes := do
  let (owner, plan) ← s.find id
  match v with
  | .object _ fields => encodeStepsBy (fieldEncoders fields) owner (plan.steps.take k)
  | _ => unexpected "" (.message plan.name) v

/-- An object of a message with its first `k` fields as they are, and the others at their
    defaults. -/
def Value.truncate (s : CompiledSchema) (id : MessageId) (k : Nat) (w : Value) : Value :=
  match s.messagePlan? id with
  | some (owner, plan) =>
    .record plan.name (fieldsBy (fun step => w.get? step.field) (plan.steps.take k) ++
      owner.defaults (plan.steps.drop k))
  | none => w

theorem levelsOfFields_append (fields fields' : List (String × Value)) :
    levelsOfFields (fields ++ fields') = max (levelsOfFields fields) (levelsOfFields fields') := by
  induction fields with
  | nil => exact (Nat.zero_max _).symm
  | cons f fields ih => rw [List.cons_append, levelsOfFields, levelsOfFields, ih, Nat.max_assoc]

theorem fieldsBy_append (value : Step → Option Value) (steps steps' : List Step) :
    fieldsBy value (steps ++ steps') = fieldsBy value steps ++ fieldsBy value steps' :=
  List.filterMap_append

/-- The fields of an object are found by their steps. -/
theorem get?_fieldsBy (value : Step → Option Value) {steps : List Step}
    (hsteps : (steps.map (·.field)).Nodup) {step : Step} (hstep : step ∈ steps)
    (hd : step.deprecated = false) :
    Ascending.get? step.field (fieldsBy value steps) = value step := by
  induction steps with
  | nil => exact absurd hstep List.not_mem_nil
  | cons first steps ih =>
    rw [List.map_cons, List.nodup_cons] at hsteps
    rw [fieldsBy_cons]
    rcases List.mem_cons.1 hstep with rfl | hstep
    · have hnot : step.field ∉ (fieldsBy value steps).map (·.1) := fun hmem =>
        hsteps.1 ((sublist_fieldsBy value steps).subset hmem)
      rw [get?_put_self hnot, hd]
      rfl
    · have hne : step.field ≠ first.field := fun he => hsteps.1 (he ▸ List.mem_map_of_mem hstep)
      rw [get?_put_of_ne hne, ih hsteps.2 hstep]

section First

variable {s o : CompiledSchema} {id : MessageId} {p : MessagePlan} {b : Bytes}

/-- Where the bytes end after the first fields of a message, the others take their defaults. -/
theorem decode_of_first (hs : s.WellFormed) (hid : s.messagePlan? id = some (o, p))
    {first rest : List Step} (hsteps : first ++ rest = p.steps) {fields : List (String × Value)}
    (hfields : SpellsFields o first fields b) (hb : b.length < 2 ^ 64)
    (hlevels : levelsOfFields fields ≤ nestingLimit) :
    decode s id b = .ok (.record p.name (fields ++ o.defaults rest)) := by
  obtain ⟨ho, hp⟩ := messagePlan?_eq_some.1 hid
  have hfirst : first ⊆ p.steps := hsteps ▸ List.subset_append_left _ _
  have hlayouts : first.map Step.layout <+: p.steps.map Step.layout :=
    hsteps ▸ (List.prefix_append first rest).map Step.layout
  have hdecodes := SpellsFields.decodes (.refl (hs.of_owner? ho)) nestingLimit hfields hb
    (List.mem_of_getElem? hp) (List.mem_of_getElem? hp) hfirst (List.Subset.refl _) hlayouts
  rw [rebuildFields_eq_self Rebuilding.keeps_extend rfl, ← hsteps, List.drop_left, hsteps]
    at hdecodes
  obtain ⟨r, hr⟩ := ((hdecodes.map (g := record p.name)) (.ofBytes b) (Nat.zero_add _) rfl).1
    hlevels
  rw [decode_eq hid, decodeObject, hr]

end First

/-! ## Other cuts -/

section Cut

variable {s : CompiledSchema} {p : MessagePlan} {levels : Nat}

/-- What is written for a field is read, or skipped, by its step. -/
theorem decodes_encodeFieldBy (hs : s.WellFormed) (hp : p ∈ s.messages) {step : Step}
    (hstep : step ∈ p.steps) {encoder : Option FieldEncoder} {found : Option Value}
    (h : Option.Rel SpellsField encoder found) {b : Bytes}
    (hb : encodeFieldBy encoder s step = .ok b) (hlen : b.length < 2 ^ 64) :
    ∃ w need, Decodes levels (decodeStepBy (decodeBy (decodeObject levels) s) s step) b w need := by
  have hspells := spells_encodeFieldBy hs hp hstep h hb
  have hdecodes := SpellsShape.decodes (.refl hs) levels hspells hlen
  exact ⟨_, _, decodes_layout rfl hspells.length_pos (hspells.skips hlen) hdecodes⟩

/-- A step is not read from bytes that are cut off in it. -/
theorem decodeStepBy_of_cut {value : ValueStep → Decoding Value} (hvalue : ∀ v, Scans (value v))
    {step : Step} {b : Bytes} {w w' : Option Value} {need : Nat} {r r' : Reader}
    (h : Decodes levels (decodeStepBy value s step) b w need)
    (hdepth : r.depth + levels = nestingLimit) (hindex : r.index ≤ r.data.length)
    (hr : r.atEnd = false) {tail : Bytes} (hb : r.rest ++ tail = b) (htail : tail ≠ []) :
    decodeStepBy value s step r ≠ .ok w' r' := by
  intro hw
  obtain ⟨hprecedes, happend⟩ := scans_step hvalue hr hw
  -- On the whole bytes it stops after all of them, so on the others past their end.
  have hwhole : (r.append tail).rest = b ++ [] := by
    rw [Reader.rest_append hindex, hb, List.append_nil]
  have hindex' : r'.index = r.index + b.length :=
    congrArg Reader.index (h.eq_advance (r := r.append tail) hdepth hwhole (happend tail))
  have hlt : r.rest.length < b.length := by
    rw [← hb, List.length_append]
    exact Nat.lt_add_of_pos_right (List.length_pos_of_ne_nil htail)
  have hle := hprecedes.within hindex
  rw [← Reader.remaining_eq, Reader.remaining] at hlt
  omega

/-- If the fields of a message are read from bytes that are cut off somewhere, the cut is
    between two of them. -/
theorem exists_first_of_decode (hs : s.WellFormed) (hp : p ∈ s.messages)
    {encoders : List (String × FieldEncoder)} {fields : List (String × Value)}
    (h : ∀ f, Option.Rel SpellsField (Ascending.get? f encoders) (Ascending.get? f fields))
    {steps : List Step} (hsteps : steps ⊆ p.steps) {b : Bytes}
    (hb : encodeStepsBy encoders s steps = .ok b) (hlen : b.length < 2 ^ 64) {r r' : Reader}
    (hdepth : r.depth + levels = nestingLimit) (hindex : r.index ≤ r.data.length)
    (hr : r.rest <+: b) {out : List (String × Value)}
    (hout : decodeFieldsBy (decodeBy (decodeObject levels) s) s steps r = .ok out r') :
    ∃ k, encodeStepsBy encoders s (steps.take k) = .ok r.rest := by
  induction steps generalizing b r r' out with
  | nil =>
    cases Except.ok.inj hb
    rw [List.prefix_nil.1 hr]
    exact ⟨0, rfl⟩
  | cons step steps ih =>
    by_cases hend : r.rest = []
    · exact ⟨0, by rw [hend]; rfl⟩
    have hatEnd : r.atEnd = false := by
      rw [Reader.atEnd_eq]
      exact List.isEmpty_eq_false_iff.2 hend
    obtain ⟨hstep, hsteps⟩ := List.cons_subset.1 hsteps
    obtain ⟨b₁, hb₁, hb⟩ := bind_eq_ok.1 hb
    obtain ⟨b₂, hb₂, hb⟩ := bind_eq_ok.1 hb
    cases Except.ok.inj hb
    rw [List.length_append] at hlen
    rw [decodeFieldsBy_cons] at hout
    obtain ⟨w, r₁, hw, hout⟩ := exists_of_bind_ok hout
    obtain ⟨out₁, r₂, hout₁, -⟩ := exists_of_bind_ok hout
    have hvalue : ∀ v, Scans (decodeBy (decodeObject levels) s v) := scans_value _ s
    obtain ⟨_, _, hdecodes⟩ : ∃ w need,
        Decodes levels (decodeStepBy (decodeBy (decodeObject levels) s) s step) b₁ w need :=
      decodes_encodeFieldBy hs hp hstep (h step.field) hb₁ (by omega)
    by_cases hfirst : b₁ <+: r.rest
    · -- All of the step is there, so that it is read, and the cut is somewhere after it.
      obtain ⟨tail, htail⟩ := hfirst
      have hr₁ := hdecodes.eq_advance hdepth htail.symm hw
      have hrest₁ : r₁.rest = tail := by rw [hr₁, Reader.rest_advance htail.symm]
      have hprecedes := (scans_step hvalue hatEnd hw).1
      have hcut₁ : r₁.rest <+: b₂ := by
        rw [hrest₁, ← List.prefix_append_right_inj b₁, htail]
        exact hr
      have hdepth₁ : r₁.depth + levels = nestingLimit := by rw [hprecedes.depth, hdepth]
      have hindex₁ : r₁.index ≤ r₁.data.length := by
        rw [hprecedes.data]
        exact hprecedes.within hindex
      obtain ⟨k, hk⟩ := ih hsteps hb₂ (by omega) hdepth₁ hindex₁ hcut₁ hout₁
      refine ⟨k + 1, ?_⟩
      rw [List.take_succ_cons, encodeStepsBy, hb₁, hk, hrest₁, ← htail]
      rfl
    · -- The cut is inside the step, which is then not read.
      obtain ⟨tail, htail⟩ :=
        (List.prefix_or_prefix_of_prefix hr (List.prefix_append b₁ b₂)).resolve_right hfirst
      have hne : tail ≠ [] := by
        rintro rfl
        exact hfirst (htail ▸ (List.append_nil r.rest).symm ▸ List.prefix_rfl)
      exact absurd hw (decodeStepBy_of_cut hvalue hdecodes hdepth hindex hatEnd htail hne)

end Cut

/-! ## All cuts -/

section Truncated

variable {s o : CompiledSchema} {id : MessageId} {p : MessagePlan}

theorem encodeFirst_eq (hid : s.messagePlan? id = some (o, p)) (name : String)
    (fields : List (String × Value)) (k : Nat) :
    (Value.object name fields).encodeFirst s id k =
      encodeStepsBy (fieldEncoders fields) o (p.steps.take k) := by
  rw [encodeFirst, find_eq_ok.2 hid]
  rfl

/-- What is written for all fields is all that is written. -/
theorem encodeFirst_of_le (hid : s.messagePlan? id = some (o, p)) {v : Value} {b : Bytes}
    (hb : v.encode s id = .ok b) {k : Nat} (hk : p.steps.length ≤ k) :
    v.encodeFirst s id k = .ok b := by
  obtain ⟨_, _, fields, hid', rfl, hsteps⟩ := encode_eq_ok hb
  cases hid.symm.trans hid'
  rw [encodeFirst_eq hid, List.take_of_length_le hk, hsteps]

/-- The fields of a record before a cut are those that it is made of. -/
theorem truncate_record (hid : s.messagePlan? id = some (o, p)) (hp : (p.steps.map (·.field)).Nodup)
    (value : Step → Option Value) (k : Nat) :
    (Value.record p.name (fieldsBy value p.steps)).truncate s id k =
      .record p.name (fieldsBy value (p.steps.take k) ++ o.defaults (p.steps.drop k)) := by
  have hfields : fieldsBy (fun step => (Value.record p.name (fieldsBy value p.steps)).get?
      step.field) (p.steps.take k) = fieldsBy value (p.steps.take k) := by
    refine fieldsBy_congr fun step hstep hd => ?_
    change Ascending.get? step.field (Ascending.ofPairs _) = _
    rw [Ascending.get?_ofPairs ((sublist_fieldsBy value p.steps).nodup hp),
      get?_fieldsBy value hp (List.mem_of_mem_take hstep) hd]
  rw [truncate, hid]
  dsimp only
  rw [hfields]

theorem exists_decodeFieldsBy (hid : s.messagePlan? id = some (o, p)) {b : Bytes} {w : Value}
    (hw : decode s id b = .ok w) : ∃ fields r, w = .record p.name fields ∧
      decodeFieldsBy (decodeBy (decodeObject nestingLimit) o) o p.steps (.ofBytes b) =
        .ok fields r := by
  rw [decode_eq hid, decodeObject] at hw
  split at hw
  · rename_i r hr
    cases hw
    obtain ⟨fields, r', hfields, hrecord⟩ := exists_of_bind_ok hr
    obtain ⟨hrecord, -⟩ := EStateM.Result.ok.inj hrecord
    exact ⟨fields, r', hrecord.symm, hfields⟩
  · cases hw

/-- What is spelt and can be read is not nested too deeply. -/
theorem of_decode_of_spells (hs : s.WellFormed) (hid : s.messagePlan? id = some (o, p))
    {fields : List (String × Value)} {b : Bytes} (hfields : SpellsFields o p.steps fields b)
    (hb : b.length < 2 ^ 64) {w : Value} (hw : decode s id b = .ok w) :
    levelsOfFields fields ≤ nestingLimit ∧ w = .record p.name fields := by
  obtain ⟨ho, hp⟩ := messagePlan?_eq_some.1 hid
  have hdecode := decode_of_spells (.refl hs) hid hfields hb
  rw [extend_self, nesting, hfields.levels_record (hs.of_owner? ho) (List.mem_of_getElem? hp),
    Nat.add_sub_cancel, hw] at hdecode
  split at hdecode
  · exact ⟨‹_›, Except.ok.inj hdecode⟩
  · obtain ⟨_, herror⟩ := hdecode
    cases herror

end Truncated

/-- What is written for a value that can be read is cut off. After the first `k` fields of the
    object, it is read as the object with these fields and the defaults of all others. Cut off
    anywhere else, it is an error of the wire. -/
theorem decode_truncated {t : ImportTable} (ht : t.Built) {schema : Schema} {s : CompiledSchema}
    (hs : schema.compile t = .ok s) {id : MessageId} {v w : Value} {b p : Bytes}
    (hv : v.encode s id = .ok b) (hb : b.length < 2 ^ 64) (hw : decode s id b = .ok w)
    (hp : p <+: b) :
    s.DefaultsStandIn ∧
      (∀ k, v.encodeFirst s id k = .ok p → decode s id p = .ok (w.truncate s id k)) ∧
      ((∀ k, v.encodeFirst s id k ≠ .ok p) → ∃ e, decode s id p = .error (.wire e)) := by
  have hwf := IsCompiled.wellFormed ⟨t, schema, ht, hs⟩
  obtain ⟨o, plan, fields, hid, rfl, hsteps⟩ := encode_eq_ok hv
  obtain ⟨ho, hplan⟩ := messagePlan?_eq_some.1 hid
  have howner := hwf.of_owner? ho
  have hmem := List.mem_of_getElem? hplan
  have hspells := spells_fieldEncoders fields
  have hall := spells_encodeStepsBy howner hmem hspells (List.Subset.refl _) hsteps
  -- The value that is read is the normal form, which is not nested too deeply.
  obtain ⟨hlevels, rfl⟩ := of_decode_of_spells hwf hid hall hb hw
  refine ⟨hwf.defaultsStandIn, fun k hk => ?_, fun hk => ?_⟩
  · rw [encodeFirst_eq hid] at hk
    have hfirst := spells_encodeStepsBy howner hmem hspells (List.take_subset k _) hk
    have hle : levelsOfFields (normalFields o plan fields (plan.steps.take k)) ≤ nestingLimit := by
      rw [normalFields, ← List.take_append_drop k plan.steps, fieldsBy_append,
        levelsOfFields_append] at hlevels
      exact Nat.le_trans (Nat.le_max_left _ _) hlevels
    rw [decode_of_first hwf hid (List.take_append_drop k _) hfirst
      (Nat.lt_of_le_of_lt hp.length_le hb) hle, normalFields, normalFields,
      truncate_record hid (howner.consistent.fields plan hmem)]
  · rcases decode_conforms hwf (by rw [hid]; rfl) p with he | ⟨u, hu, -⟩
    · exact he
    · obtain ⟨out, r, -, hout⟩ := exists_decodeFieldsBy hid hu
      obtain ⟨k, hfirst⟩ := exists_first_of_decode howner hmem hspells (List.Subset.refl _) hsteps
        hb (r := .ofBytes p) (Nat.zero_add _) (Nat.zero_le _) hp hout
      exact absurd ((encodeFirst_eq hid _ fields k).trans hfirst) (hk k)

open Sample

/-- Between its weight and its children, and inside the children. -/
theorem decode_truncated_sprout :
    decode (compiledTree nodeFields) ⟨.own, 0⟩ [0, 6] =
        .ok (.object "Node" [("children", .array []), ("key", .u32 0)]) ∧
      ∃ e, decode (compiledTree nodeFields) ⟨.own, 0⟩ [0, 6, 4, 3, 9] = .error (.wire e) := by
  have hnone : sprout.encodeFirst (compiledTree nodeFields) ⟨.own, 0⟩ 0 = .ok [] := rfl
  have hkey : sprout.encodeFirst (compiledTree nodeFields) ⟨.own, 0⟩ 1 = .ok [0] := by
    decide +kernel
  have hweight : sprout.encodeFirst (compiledTree nodeFields) ⟨.own, 0⟩ 2 = .ok [0, 6] := by
    decide +kernel
  have hbetween := (decode_truncated .empty compile_tree encode_sprout (by decide) decode_sprout
    (p := [0, 6]) ⟨[4, 3, 9, 0, 0], rfl⟩).2.1 2 hweight
  have hinside := (decode_truncated .empty compile_tree encode_sprout (by decide) decode_sprout
    (p := [0, 6, 4, 3, 9]) ⟨[0, 0], rfl⟩).2.2
  refine ⟨hbetween.trans rfl, hinside fun k hk => ?_⟩
  rcases k with _ | _ | _ | k
  · cases hnone.symm.trans hk
  · cases hkey.symm.trans hk
  · cases hweight.symm.trans hk
  · cases (encodeFirst_of_le rfl encode_sprout (Nat.le_add_left 3 k)).symm.trans hk

end Marshal
