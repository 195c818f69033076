import Marshal.Proofs.Ascending
import Marshal.Value.Basic

/-!
# Rebuilding the objects in a value

Some functions on values change the fields of every object in them, by the plan
of its message, and leave the rest as it is. They differ in what becomes of the
fields and in what they look up the messages in, which a *rebuilding* says; that
they go to every object, in elements of sequences and in values of maps, is said
once, here.

* `rebuildItems_eq`, `rebuildEntries_eq`, `rebuildFields_eq`: everything at hand
  is rebuilt by itself;
* `rebuild_eq_self`: where a rebuilding keeps the fields of all objects, it keeps
  the value;
* `rebuild_record`: where it leaves out fields by their names, they may as well be
  left out before they are put in order.
-/

namespace Marshal

/-- The shape of a field. -/
def MessagePlan.shape? (p : MessagePlan) (field : String) : Option Shape :=
  (p.step? field).map (·.shape)

/-- How to rebuild objects, with messages looked up in a `σ`, of which there is a
    `π` each. -/
structure Rebuilding (σ π : Type) where
  /-- The message of an identity, and what the identities in it are looked up in. -/
  enter : σ → MessageId → Option (σ × π)
  /-- The shape of a field of the message. -/
  shape? : π → String → Option Shape
  /-- What becomes of the fields of an object of the message, in which objects have
      been rebuilt already. -/
  fields : σ → π → List (String × Value) → List (String × Value)

/-- Every object whose message is looked up where `P` holds keeps its fields. -/
def Rebuilding.Keeps {σ π : Type} (R : Rebuilding σ π) (P : σ → Prop) : Prop :=
  ∀ s id s' plan, P s → R.enter s id = some (s', plan) →
    P s' ∧ ∀ fields, R.fields s' plan fields = fields

namespace Value

variable {σ π : Type}

mutual

/-- The value of a field with all objects in it rebuilt. -/
def rebuild (R : Rebuilding σ π) (s : σ) : Shape → Value → Value
  | .single (.nested id), .object name fields | .optional (.nested id), .object name fields =>
    match R.enter s id with
    | some (owner, plan) => .object name (R.fields owner plan (rebuildFields R owner plan fields))
    | none => .object name fields
  | .repeated element _, .array items => .array (rebuildItems R s element items)
  | .map key value _, .map entries => .map (rebuildEntries R s key value entries)
  | _, v => v

/-- Elements with all objects in them rebuilt. -/
def rebuildItems (R : Rebuilding σ π) (s : σ) (step : ValueStep) : List Value → List Value
  | [] => []
  | v :: rest => rebuild R s (.single step) v :: rebuildItems R s step rest

/-- Keys and values with all objects in them rebuilt. -/
def rebuildEntries (R : Rebuilding σ π) (s : σ) (key value : ValueStep) :
    List (Value × Value) → List (Value × Value)
  | [] => []
  | (k, v) :: rest => (rebuild R s (.single key) k, rebuild R s (.single value) v) ::
    rebuildEntries R s key value rest

/-- Fields with all objects in them rebuilt. Those that the message does not have
    are left as they are. -/
def rebuildFields (R : Rebuilding σ π) (s : σ) (plan : π) :
    List (String × Value) → List (String × Value)
  | [] => []
  | (name, v) :: rest =>
    (name, match R.shape? plan name with
      | some shape => rebuild R s shape v
      | none => v) :: rebuildFields R s plan rest

end

variable {R : Rebuilding σ π} {s : σ}

/-! ## One by one -/

/-- Whether a field is optional makes no difference to the objects in it. -/
theorem rebuild_optional (v : ValueStep) (w : Value) :
    rebuild R s (.optional v) w = rebuild R s (.single v) w := by
  cases v with
  | nested id => cases w <;> rfl
  | scalar p | enum id => cases w <;> rfl

/-- There are no objects in a value of a primitive. -/
theorem rebuild_scalar (p : Wire.Primitive) (w : Value) :
    rebuild R s (.single (.scalar p)) w = w := by
  cases w <;> rfl

/-- There are no objects in a number of an enum. -/
theorem rebuild_enum (id : EnumId) (w : Value) : rebuild R s (.single (.enum id)) w = w := by
  cases w <;> rfl

/-- The fields of an object are rebuilt before the object is. -/
theorem rebuild_nested {id : MessageId} {s' : σ} {plan : π} (h : R.enter s id = some (s', plan))
    (name : String) (fields : List (String × Value)) :
    rebuild R s (.single (.nested id)) (.object name fields) =
      .object name (R.fields s' plan (rebuildFields R s' plan fields)) := by
  rw [rebuild, h]

/-- Elements are rebuilt one by one. -/
theorem rebuildItems_eq (v : ValueStep) (items : List Value) :
    rebuildItems R s v items = items.map (rebuild R s (.single v)) := by
  induction items with
  | nil => rfl
  | cons w items ih => rw [rebuildItems, ih, List.map_cons]

/-- Keys and values are rebuilt one by one. -/
theorem rebuildEntries_eq (key value : ValueStep) (entries : List (Value × Value)) :
    rebuildEntries R s key value entries = entries.map fun e =>
      (rebuild R s (.single key) e.1, rebuild R s (.single value) e.2) := by
  induction entries with
  | nil => rfl
  | cons e entries ih => rw [rebuildEntries, ih, List.map_cons]

/-- What becomes of the value of a field, by the name of the field. -/
def rebuildField (R : Rebuilding σ π) (s : σ) (plan : π) (name : String) (v : Value) : Value :=
  match R.shape? plan name with
  | some shape => rebuild R s shape v
  | none => v

theorem rebuildField_eq {plan : π} {name : String} {shape : Shape}
    (h : R.shape? plan name = some shape) : rebuildField R s plan name = rebuild R s shape := by
  funext v
  rw [rebuildField, h]

/-- Fields are rebuilt one by one, each by the shape that its name has in the message. -/
theorem rebuildFields_eq (plan : π) (fields : List (String × Value)) :
    rebuildFields R s plan fields = fields.map fun f => (f.1, rebuildField R s plan f.1 f.2) := by
  induction fields with
  | nil => rfl
  | cons f fields ih => rw [rebuildFields, ih, List.map_cons, rebuildField]

/-! ## Leaving out fields -/

/-- The fields that are kept, by their names, with all objects in them rebuilt. -/
def keepFields (R : Rebuilding σ π) (keep : String → Bool) (s : σ) (plan : π) :
    List (String × Value) → List (String × Value) :=
  Ascending.restrict fun f => if keep f then some (rebuildField R s plan f) else none

/-- It does not matter whether fields are left out before or after they are rebuilt. -/
theorem filter_rebuildFields (keep : String → Bool) (plan : π) (fields : List (String × Value)) :
    (rebuildFields R s plan fields).filter (keep ·.1) = keepFields R keep s plan fields := by
  rw [rebuildFields_eq]
  induction fields with
  | nil => rfl
  | cons f fields ih =>
    rw [List.map_cons, List.filter_cons, ih]
    split
    · rename_i hkeep
      -- The field is kept, with the objects in it rebuilt.
      exact (Ascending.restrict_cons_some (p := f) (if_pos hkeep) fields).symm
    · rename_i hkeep
      exact (Ascending.restrict_cons_none (p := f) (if_neg hkeep) fields).symm

/-- Fields may as well be left out of a record before they are put in order. -/
theorem rebuild_record (keep : String → Bool) {id : MessageId} {s' : σ} {plan : π}
    (henter : R.enter s id = some (s', plan))
    (hkeep : ∀ fields, R.fields s' plan fields = fields.filter (keep ·.1)) (name : String)
    (fields : List (String × Value)) :
    rebuild R s (.single (.nested id)) (.record name fields) =
      .record name (keepFields R keep s' plan fields) := by
  rw [record, rebuild_nested henter, hkeep, filter_rebuildFields, record, keepFields,
    Ascending.restrict_ofPairs]

/-! ## Keeping a value -/

variable {P : σ → Prop}

mutual

/-- If the fields of every object are kept, the value is. -/
theorem rebuild_eq_self (h : R.Keeps P) {s : σ} (hs : P s) : ∀ (shape : Shape) (w : Value),
    rebuild R s shape w = w
  | shape, .object name fields => by
    -- By induction on the value. An object is only gone into by the shape of a message.
    have hobject (id : MessageId) :
        rebuild R s (.single (.nested id)) (.object name fields) = .object name fields := by
      rw [rebuild]
      split
      · rename_i s' plan henter
        obtain ⟨hs', hkeep⟩ := h s id s' plan hs henter
        rw [hkeep, rebuildFields_eq_self h hs' plan fields]
      · rfl
    -- Other shapes do not go into an object.
    match shape with
    | .single (.nested id) => exact hobject id
    | .optional (.nested id) => exact (rebuild_optional ..).trans (hobject id)
    | .single (.scalar _) | .single (.enum _) | .optional (.scalar _) | .optional (.enum _)
    | .repeated _ _ | .map _ _ _ => rfl
  | shape, .array items => by
    match shape with
    | .repeated element _ => rw [rebuild, rebuildItems_eq_self h hs element items]
    | .single v | .optional v => cases v <;> rfl
    | .map _ _ _ => rfl
  | shape, .map entries => by
    match shape with
    | .map key value _ => rw [rebuild, rebuildEntries_eq_self h hs key value entries]
    | .single v | .optional v => cases v <;> rfl
    | .repeated _ _ => rfl
  | shape, .bool _ | shape, .u32 _ | shape, .u64 _ | shape, .i32 _ | shape, .i64 _ | shape, .f32 _
  | shape, .f64 _ | shape, .string _ | shape, .bytes _ | shape, .enum _ => by
    match shape with
    | .single v | .optional v => cases v <;> rfl
    | .repeated _ _ | .map _ _ _ => rfl

/-- If the fields of every object are kept, elements are. -/
theorem rebuildItems_eq_self (h : R.Keeps P) {s : σ} (hs : P s) (v : ValueStep) :
    ∀ items : List Value, rebuildItems R s v items = items
  | [] => rfl
  | w :: items => by rw [rebuildItems, rebuild_eq_self h hs, rebuildItems_eq_self h hs v items]

/-- If the fields of every object are kept, keys and values are. -/
theorem rebuildEntries_eq_self (h : R.Keeps P) {s : σ} (hs : P s) (key value : ValueStep) :
    ∀ entries : List (Value × Value), rebuildEntries R s key value entries = entries
  | [] => rfl
  | (x, w) :: entries => by
    rw [rebuildEntries, rebuild_eq_self h hs, rebuild_eq_self h hs,
      rebuildEntries_eq_self h hs key value entries]

/-- If the fields of every object are kept, so are the values of fields, and those that the message
    does not have are kept in any case. -/
theorem rebuildFields_eq_self (h : R.Keeps P) {s : σ} (hs : P s) (plan : π) :
    ∀ fields : List (String × Value), rebuildFields R s plan fields = fields
  | [] => rfl
  | (name, w) :: fields => by
    rw [rebuildFields, rebuildFields_eq_self h hs plan fields]
    split
    · rw [rebuild_eq_self h hs]
    · rfl

end

end Value

end Marshal
