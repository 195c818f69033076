import Marshal.Proofs.Deprecation
import Marshal.Proofs.Evolution
import Marshal.Proofs.Skipping

/-!
# Reading deprecated fields

What was read before some fields were deprecated is read afterwards without them
(`Value.deprecate`). The newer reading follows the older one step by step, at the same
places: where a field was read, one that is deprecated now is skipped by its shape,
which stops where reading it did (`follows_skipped`), and where the bytes have ended, the
defaults of the newer schema are those of the older one without the fields
(`StandsIn.deprecate`).

* `deprecation_keeps_wire`: deprecating fields changes nothing that is written, and
  leaves out these fields, and no others, of what is read.
-/

namespace Marshal

open Wire Value CompiledSchema

/-! ## Values without what was deprecated -/

/-- The field has been deprecated in the second one of two versions of a message. -/
def MessagePlan.deprecates (p q : MessagePlan) (field : String) : Bool :=
  (p.step? field).any (!·.deprecated) && (q.step? field).any (·.deprecated)

/-- Objects without the fields that have been deprecated. -/
def Rebuilding.deprecate :
    Rebuilding (CompiledSchema × CompiledSchema) (MessagePlan × MessagePlan) where
  enter := Rebuilding.extend.enter
  shape? plans := plans.1.shape?
  fields _ plans fields := fields.filter fun f => !plans.1.deprecates plans.2 f.1

/-- A value of a message without the fields, at every level, that the newer schema has
    deprecated and the older one has not. -/
def Value.deprecate (old new : CompiledSchema) (id : MessageId) (v : Value) : Value :=
  v.rebuild .deprecate (old, new) (.single (.nested id))

/-- Fields without those that have been deprecated, and the same in them. -/
def deprecateFields (s : CompiledSchema × CompiledSchema) (plans : MessagePlan × MessagePlan) :
    List (String × Value) → List (String × Value) :=
  keepFields .deprecate (fun f => !plans.1.deprecates plans.2 f) s plans

/-- Leaving out what was deprecated keeps the name of an object. -/
theorem rebuild_deprecate_record {old new o n : CompiledSchema} {p q : MessagePlan}
    {id : MessageId} (ho : old.messagePlan? id = some (o, p))
    (hn : new.messagePlan? id = some (n, q)) (name : String) (fields : List (String × Value)) :
    rebuild .deprecate (old, new) (.single (.nested id)) (.record name fields) =
      .record name (deprecateFields (o, n) (p, q) fields) :=
  rebuild_record (R := .deprecate) (fun f => !p.deprecates q f) (Rebuilding.enter_extend ho hn)
    (fun _ => rfl) name fields

/-- Steps of two versions of a message that are the same but for deprecation. -/
structure MessagePlan.StepsAt (p q : MessagePlan) (step step' : Step) : Prop where
  mem : step ∈ p.steps
  mem' : step' ∈ q.steps
  deprecated : step.DeprecatedBy step'

/-- Steps at the same place of both plans are the same but for deprecation. -/
theorem MessagePlan.DeprecatedBy.stepsAt {p q : MessagePlan} (h : p.DeprecatedBy q) :
    List.Forall₂ (p.StepsAt q) p.steps q.steps :=
  (forall₂_mem h.steps).imp fun _ _ h => ⟨h.1, h.2.1, h.2.2⟩

section Steps

variable {old new : CompiledSchema} {p q : MessagePlan} {step step' : Step}

/-- What is left of the value of a field. -/
def leftOf (s : CompiledSchema × CompiledSchema) (step step' : Step) (w : Option Value) :
    Option Value :=
  if !step.deprecated && step'.deprecated then none else w.map (rebuild .deprecate s step.shape)

/-- A field is left out if its step was deprecated. -/
theorem deprecateFields_put (h : Deprecates old new) (hp : p ∈ old.messages) (hq : q ∈ new.messages)
    (hstep : p.StepsAt q step step') (w : Option Value) (fields : List (String × Value)) :
    deprecateFields (old, new) (p, q) (step.put w fields) =
      step'.put (leftOf (old, new) step step' w) (deprecateFields (old, new) (p, q) fields) := by
  have hfields := h.old.consistent.fields p hp
  -- The field is found by its name in both plans, with these two steps.
  have hnewly : p.deprecates q step.field = (!step.deprecated && step'.deprecated) := by
    rw [MessagePlan.deprecates, MessagePlan.step?_of_mem hfields hstep.mem,
      ← hstep.deprecated.field,
      MessagePlan.step?_of_mem (h.new.consistent.fields q hq) hstep.mem']
    rfl
  have hshape : rebuildField .deprecate (old, new) (p, q) step.field =
      rebuild .deprecate (old, new) step.shape :=
    rebuildField_eq (MessagePlan.shape?_of_mem hfields hstep.mem)
  rw [deprecateFields, keepFields_put, Step.put_congr hstep.deprecated.field, hnewly, hshape,
    leftOf]
  cases !step.deprecated && step'.deprecated <;> rfl

/-- Of a field that is absent if it is deprecated the same is left once it is. -/
theorem leftOf_ite (h : step.DeprecatedBy step') (s : CompiledSchema × CompiledSchema)
    (w : Option Value) : leftOf s step step' (if step.deprecated then none else w) =
      if step'.deprecated then none else w.map (rebuild .deprecate s step.shape) := by
  rw [leftOf]
  cases hd : step.deprecated with
  | true => simp [h.deprecated hd]
  | false => simp

end Steps

/-! ## Defaults -/

mutual

/-- The defaults of a newer schema are those of an older one without the fields that
    have been deprecated. -/
theorem IsDefault.deprecate {old new : CompiledSchema} (h : Deprecates old new) {v : ValueStep}
    {w : Value} : IsDefault old v w →
      IsDefault new v (w.rebuild .deprecate (old, new) (.single v))
  | .scalar => by
    rw [rebuild_scalar]
    exact .scalar
  | .enum hid => by
    rw [rebuild_enum]
    exact .enum ((h.deprecated.enumPlan? _).trans hid)
  | .nested hid hfields => by
    obtain ⟨n, q, hid', hon, hp, hq, hpq⟩ := h.messagePlan? hid
    rw [rebuild_deprecate_record hid hid', ← hpq.name]
    exact .nested hid' (StandInFor.deprecate hon hp hq hfields hpq.stepsAt)

/-- What stands in for a field does so, without what was deprecated, in the newer schema. -/
theorem StandsIn.deprecate {old new : CompiledSchema} (h : Deprecates old new) {shape : Shape}
    {w : Option Value} : StandsIn old shape w →
      StandsIn new shape (w.map (rebuild .deprecate (old, new) shape))
  | .single hw => .single (IsDefault.deprecate h hw)
  | .optional => .optional
  | .repeated => .repeated
  | .map => .map

/-- The fields that stand in for those of an object do so without those that were deprecated. -/
theorem StandInFor.deprecate {old new : CompiledSchema} (h : Deprecates old new)
    {p q : MessagePlan} (hp : p ∈ old.messages) (hq : q ∈ new.messages) {steps steps' : List Step}
    {fields : List (String × Value)} : StandInFor old steps fields →
      List.Forall₂ (p.StepsAt q) steps steps' →
      StandInFor new steps' (deprecateFields (old, new) (p, q) fields)
  | .nil, .nil => .nil
  | .cons hw hfields, .cons hstep hsteps => by
    have hnew := StandsIn.deprecate h hw
    rw [deprecateFields_put h hp hq hstep, leftOf_ite hstep.deprecated]
    rw [← hstep.deprecated.shape] at hnew ⊢
    exact .cons hnew (StandInFor.deprecate h hp hq hfields hsteps)

end

/-! ## Reading -/

section Follows

variable {old new : CompiledSchema} {p q : MessagePlan} {value value' : ValueStep → Decoding Value}

/-- Where a field was read it can be skipped. -/
theorem follows_skipped {α : Type} {read : Decoding α} {skip : WireReading Unit}
    (h : Skips skip read) : Follows (fun _ w => none = w) read
      (do onWire skip; return (none : Option Value)) where
  ok _ ha := ⟨trivial, none, bind_of_ok (onWire_of_ok (h.apply ha)), rfl⟩
  error _ _ he := nomatch he

/-- If values are followed, so is what there is for a step. -/
theorem follows_deprecated_step (h : Deprecates old new) (hp : p ∈ old.messages)
    (hq : q ∈ new.messages) {step step' : Step} (hstep : p.StepsAt q step step')
    (hskip : ∀ v, Skips (skip v.kind) (value v)) (hvalue : ∀ v, old.Resolves v →
      Follows (fun w w' => w.rebuild .deprecate (old, new) (.single v) = w') (value v) (value' v)) :
    Follows (fun w w' => leftOf (old, new) step step' w = w') (decodeStepBy value old step)
      (decodeStepBy value' new step') := by
  have hshape := hstep.deprecated.shape
  refine Tracks.ofReader (fun r => if r.atEnd then _ else _) (fun r => if r.atEnd then _ else _)
    fun r _ => ?_
  simp only [leftOf, hshape]
  cases hd : step.deprecated with
  | true =>
    -- The field was deprecated before.
    simp only [hstep.deprecated.deprecated hd, Bool.not_true, Bool.false_and, Bool.false_eq_true,
      ↓reduceIte]
    split
    · exact .pure rfl
    · exact Tracks.refl.bind fun _ _ _ => .pure rfl
  | false =>
    cases hd' : step'.deprecated with
    | true =>
      simp only [Bool.not_false, Bool.and_self, Bool.false_eq_true, ↓reduceIte]
      split
      · exact follows_given (defaultStep_eq h.old hp hstep.mem) (b := none) rfl rfl
      · exact follows_skipped (skips_shape hskip step.shape)
    | false =>
      simp only [Bool.and_false, Bool.false_eq_true, ↓reduceIte]
      split
      · -- The defaults of both schemas are told by what stands in for the field.
        have hdefault := (standsIn_default? h.old hp hstep.mem).deprecate h
        have hnew := standsIn_default? h.new hq hstep.mem'
        rw [hshape] at hnew
        exact follows_given (defaultStep_eq h.old hp hstep.mem)
          (defaultStep_eq h.new hq hstep.mem') (hdefault.unique hnew)
      · exact follows_shape fun v hv =>
          hvalue v (h.old.consistent.resolves p hp step hstep.mem v hv)

/-- If values are followed, the fields of a message are, without those that have been
    deprecated. -/
theorem follows_deprecated_fields (h : Deprecates old new) (hp : p ∈ old.messages)
    (hq : q ∈ new.messages) (hskip : ∀ v, Skips (skip v.kind) (value v))
    (hvalue : ∀ v, old.Resolves v →
      Follows (fun w w' => w.rebuild .deprecate (old, new) (.single v) = w') (value v) (value' v))
    {steps steps' : List Step} (hsteps : List.Forall₂ (p.StepsAt q) steps steps') :
    Follows (fun fields fields' => deprecateFields (old, new) (p, q) fields = fields')
      (decodeFieldsBy value old steps) (decodeFieldsBy value' new steps') := by
  induction hsteps with
  | nil => exact .pure rfl
  | cons hstep _ ih =>
    rw [decodeFieldsBy_cons, decodeFieldsBy_cons]
    refine (follows_deprecated_step h hp hq hstep hskip hvalue).bind fun w w' hw =>
      ih.map fun fields fields' hfields => ?_
    rw [deprecateFields_put h hp hq hstep, hw, hfields]

end Follows

/-- A newer schema follows an older one in reading objects, with `levels` levels left. -/
def FollowsDeprecated (levels : Nat) : Prop :=
  ∀ (old new : CompiledSchema) (p q : MessagePlan), Deprecates old new → p ∈ old.messages →
    q ∈ new.messages → p.DeprecatedBy q →
    Follows (fun w w' => ∀ s s' id, s.messagePlan? id = some (old, p) →
        s'.messagePlan? id = some (new, q) → w.deprecate s s' id = w')
      (decodeObject levels old p) (decodeObject levels new q)

/-- If objects are followed, values are. -/
theorem follows_deprecated_value {levels : Nat} (hobjects : FollowsDeprecated levels)
    {old new : CompiledSchema} (h : Deprecates old new) {v : ValueStep} (hv : old.Resolves v) :
    Follows (fun w w' => w.rebuild .deprecate (old, new) (.single v) = w')
      (decodeBy (decodeObject levels) old v) (decodeBy (decodeObject levels) new v) := by
  refine follows_decodeBy ?_
  rintro id rfl
  obtain ⟨⟨o, p⟩, hid⟩ := Option.isSome_iff_exists.1 hv
  obtain ⟨n, q, hid', hon, hp, hq, hpq⟩ := h.messagePlan? hid
  rw [decodeBy_nested (find_eq_ok.2 hid), decodeBy_nested (find_eq_ok.2 hid')]
  refine Tracks.refl.bind ?_
  rintro frame _ rfl
  exact ((hobjects o n p q hon hp hq hpq).frame.within trivial).mono
    fun w w' hw => hw old new id hid hid'

/-- Objects are followed at all levels. -/
theorem followsDeprecated (levels : Nat) : FollowsDeprecated levels := by
  induction levels with
  | zero => exact fun _ _ _ _ _ _ _ _ => ⟨fun _ h => (nomatch h), fun _ _ he => (nomatch he)⟩
  | succ levels ih =>
    intro old new p q h hp hq hpq
    refine (follows_deprecated_fields h hp hq (skips_value _ old)
      (fun v hv => follows_deprecated_value ih h hv) hpq.stepsAt).map
        fun fields fields' hfields s s' id hid hid' => ?_
    rw [Value.deprecate, rebuild_deprecate_record hid hid', hfields, hpq.name]

/-- What was read is read without the fields that have been deprecated. -/
theorem decode_deprecatedBy {old new : CompiledSchema} (h : Deprecates old new) {id : MessageId}
    {b : Bytes} {v : Value} (hv : decode old id b = .ok v) :
    decode new id b = .ok (v.deprecate old new id) := by
  obtain ⟨⟨o, p⟩, hfind, _⟩ := bind_eq_ok.1 hv
  have hid := find_eq_ok.1 hfind
  obtain ⟨n, q, hid', hon, hp, hq, hpq⟩ := h.messagePlan? hid
  rw [decode_eq hid] at hv
  split at hv
  · rename_i w r hw
    cases Except.ok.inj hv
    obtain ⟨-, w', hw', hdeprecate⟩ :=
      (followsDeprecated (nestingLimit + 1) o n p q hon hp hq hpq).ok trivial hw
    rw [decode_eq hid', hw', hdeprecate old new id hid hid']
  · cases hv

/-- Deprecating fields of a schema, or of what it imports, does not change the wire: the
    same is written for every value, or the same error is found, and whatever bytes were
    read are read as the same value without the fields that have been deprecated. -/
theorem deprecation_keeps_wire {old new : CompiledSchema} (hnew : new.IsCompiled)
    (h : old.DeprecatedBy new) (id : MessageId) :
    (∀ v : Value, v.encode new id = v.encode old id) ∧
      ∀ (b : Bytes) (v : Value), decode old id b = .ok v →
        decode new id b = .ok (v.deprecate old new id) := by
  have hdeprecates : Deprecates old new := ⟨h, h.wellFormed hnew.wellFormed, hnew.wellFormed⟩
  exact ⟨fun v => encode_deprecatedBy hdeprecates v id,
    fun _ _ hv => decode_deprecatedBy hdeprecates hv⟩

namespace Sample

/-- The fields of a node of a tree whose key is deprecated as well as its weight. -/
def keylessFields : List (Field × ResolvedType) :=
  [ (⟨"key", 1, .scalar .uint32, true⟩, .single (.scalar .uint32)),
    (⟨"weight", 2, .scalar .sint32, true⟩, .single (.scalar .sint32)),
    (⟨"children", 3, .repeated (.named "Node"), false⟩, .repeated (.message ⟨.own, 0⟩)) ]

/-- Trees whose keys are deprecated. -/
def keyless : CompiledSchema := compiledTree keylessFields

theorem isCompiled_keyless : keyless.IsCompiled := ⟨.empty, tree keylessFields, .empty, rfl⟩

theorem deprecatedBy_keyless : earlier.DeprecatedBy keyless :=
  .intro rfl (.cons ⟨rfl, .cons (.inr rfl) (.cons (.inl rfl) (.cons (.inl rfl) .nil))⟩ .nil) .nil

end Sample

open Sample

theorem deprecation_keeps_wire_sprout :
    sprout.encode keyless ⟨.own, 0⟩ = .ok [0, 6, 4, 3, 9, 0, 0] ∧
      decode keyless ⟨.own, 0⟩ [0, 6, 4, 3, 9, 0, 0] =
        .ok (.object "Node" [("children", .array [.object "Node" [("children", .array [])]])]) := by
  have hleft : sproutNormal.deprecate earlier keyless ⟨.own, 0⟩ =
      .object "Node" [("children", .array [.object "Node" [("children", .array [])]])] := rfl
  obtain ⟨hwrite, hkeyless⟩ :=
    deprecation_keeps_wire isCompiled_keyless deprecatedBy_keyless ⟨.own, 0⟩
  exact ⟨(hwrite sprout).trans encode_sprout, hleft ▸ hkeyless _ _ decode_sprout⟩

end Marshal
