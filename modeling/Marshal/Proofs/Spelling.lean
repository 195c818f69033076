import Marshal.Proofs.Reading
import Marshal.Value.Default

/-!
# Spellings

The format of messages, as a relation between values and bytes that knows
neither how values are written nor how bytes are read. The spelling of a message
is that of its fields one after the other, and what a deprecated field spells is
no part of the value.

* `Spells.length_pos`: nothing is spelt by no bytes at all;
* `SpellsShape.skips`: what a field spells can be skipped.
-/

namespace Marshal

open Wire

/-- The fields with the value of one more step put first, if it has one. -/
def Step.put (step : Step) (w : Option Value) (fields : List (String × Value)) :
    List (String × Value) :=
  match w with
  | some w => (step.field, w) :: fields
  | none => fields

mutual

/-- The bytes spell a value, by a value step of a schema. -/
inductive Spells : CompiledSchema → ValueStep → Value → Bytes → Prop
  | scalar {s : CompiledSchema} {p : Primitive} (x : p.Carrier) :
    Spells s (.scalar p) (p.toValue x) (p.write x)
  | enum {s : CompiledSchema} {id : EnumId} (n : Int32) :
    Spells s (.enum id) (.enum n) (Primitive.ofEnum.write n.toUInt32)
  | nested {s owner : CompiledSchema} {id : MessageId} {plan : MessagePlan}
      {fields : List (String × Value)} {b : Bytes} :
    s.messagePlan? id = some (owner, plan) → SpellsFields owner plan.steps fields b →
    Spells s (.nested id) (.record plan.name fields) (framed b)

/-- The bytes spell elements one after the other. -/
inductive SpellsItems : CompiledSchema → ValueStep → List Value → Bytes → Prop
  | nil {s : CompiledSchema} {v : ValueStep} : SpellsItems s v [] []
  | cons {s : CompiledSchema} {v : ValueStep} {w : Value} {ws : List Value} {b bs : Bytes} :
    Spells s v w b → SpellsItems s v ws bs → SpellsItems s v (w :: ws) (b ++ bs)

/-- The bytes spell keys and values in turn. -/
inductive SpellsEntries :
    CompiledSchema → ValueStep → ValueStep → List (Value × Value) → Bytes → Prop
  | nil {s : CompiledSchema} {k v : ValueStep} : SpellsEntries s k v [] []
  | cons {s : CompiledSchema} {k v : ValueStep} {x w : Value} {es : List (Value × Value)}
      {a b bs : Bytes} :
    Spells s k x a → Spells s v w b → SpellsEntries s k v es bs →
    SpellsEntries s k v ((x, w) :: es) (a ++ b ++ bs)

/-- The bytes spell a field, which may be absent. -/
inductive SpellsShape : CompiledSchema → Shape → Option Value → Bytes → Prop
  | single {s : CompiledSchema} {v : ValueStep} {w : Value} {b : Bytes} :
    Spells s v w b → SpellsShape s (.single v) (some w) b
  | absent {s : CompiledSchema} {v : ValueStep} :
    SpellsShape s (.optional v) none (Primitive.bool.write false)
  | present {s : CompiledSchema} {v : ValueStep} {w : Value} {b : Bytes} :
    Spells s v w b → SpellsShape s (.optional v) (some w) (Primitive.bool.write true ++ b)
  | repeated {s : CompiledSchema} {v : ValueStep} {ws : List Value} {b : Bytes} (e : Extent) :
    SpellsItems s v ws b → SpellsShape s (.repeated v e) (some (.array ws)) (e.write ws.length b)
  | map {s : CompiledSchema} {k v : ValueStep} {es : List (Value × Value)} {b : Bytes}
      (e : Extent) :
    SpellsEntries s k v es b → SpellsShape s (.map k v e) (some (.map es)) (e.write es.length b)

/-- The bytes spell the fields of a message, of which those that are neither
    absent nor deprecated make up the value. -/
inductive SpellsFields : CompiledSchema → List Step → List (String × Value) → Bytes → Prop
  | nil {s : CompiledSchema} : SpellsFields s [] [] []
  | cons {s : CompiledSchema} {step : Step} {steps : List Step} {w : Option Value}
      {fields : List (String × Value)} {b bs : Bytes} :
    SpellsShape s step.shape w b → SpellsFields s steps fields bs →
    SpellsFields s (step :: steps) (step.put (if step.deprecated then none else w) fields) (b ++ bs)

end

/-! ## Lengths -/

theorem Wire.Extent.lt_of_length_write {e : Extent} {count n : Nat} {payload : Bytes}
    (h : (e.write count payload).length < n) : payload.length < n := by
  cases e with
  | elements =>
    rw [write, List.length_append] at h
    omega
  | bytes => exact lt_of_length_framed h

section Length

variable {s : CompiledSchema} {k v : ValueStep} {w : Value} {b : Bytes}

/-- A value takes a byte at least. -/
theorem Spells.length_pos (h : Spells s v w b) : 0 < b.length := by
  cases h with
  | scalar x => exact Primitive.length_write_pos _ x
  | enum n => exact Primitive.length_write_pos _ _
  | nested _ _ => exact Primitive.length_write_pos .bytes _

/-- There are at most as many elements as bytes. -/
theorem SpellsItems.length_le {ws : List Value} (h : SpellsItems s v ws b) :
    ws.length ≤ b.length := by
  induction ws generalizing b with
  | nil => exact Nat.zero_le _
  | cons w ws ih =>
    cases h with
    | cons hw hws =>
      have := hw.length_pos
      have := ih hws
      rw [List.length_cons, List.length_append]
      omega

/-- There are at most as many entries as bytes. -/
theorem SpellsEntries.length_le {es : List (Value × Value)} (h : SpellsEntries s k v es b) :
    es.length ≤ b.length := by
  induction es generalizing b with
  | nil => exact Nat.zero_le _
  | cons e es ih =>
    cases h with
    | cons hx _ hes =>
      have := hx.length_pos
      have := ih hes
      rw [List.length_cons, List.length_append, List.length_append]
      omega

/-- A field takes a byte at least, even if it is absent. -/
theorem SpellsShape.length_pos {shape : Shape} {w : Option Value} (h : SpellsShape s shape w b) :
    0 < b.length := by
  cases h with
  | single h => exact h.length_pos
  | absent => exact Nat.one_pos
  | present _ =>
    rw [List.length_append]
    exact Nat.add_pos_left Nat.one_pos _
  | repeated e _ | map e _ =>
    cases e with
    | elements =>
      rw [Extent.write, List.length_append]
      exact Nat.add_pos_left (length_varint_pos _) _
    | bytes => exact Primitive.length_write_pos .bytes _

end Length

/-! ## Skipping -/

section Skip

variable {s : CompiledSchema} {k v : ValueStep} {w : Value} {b : Bytes}

/-- What a value spells is skipped by its kind. -/
theorem Spells.skips (h : Spells s v w b) (hb : b.length < 2 ^ 64) : Reads (skip v.kind) b () := by
  cases h with
  | scalar x => exact Primitive.skips _ x hb
  | enum n => exact Primitive.skips .ofEnum _ hb
  | nested _ _ => exact skips_frame hb

theorem SpellsItems.skips {ws : List Value} (h : SpellsItems s v ws b) (hb : b.length < 2 ^ 64) :
    ∃ us, Reads (readTimes (skip v.kind) ws.length) b us := by
  induction ws generalizing b with
  | nil =>
    cases h
    exact ⟨[], .pure []⟩
  | cons w ws ih =>
    cases h with
    | cons hw hws =>
      rw [List.length_append] at hb
      obtain ⟨us, hus⟩ := ih hws (by omega)
      exact ⟨() :: us, (hw.skips (by omega)).bind hus.map⟩

theorem SpellsEntries.skips {es : List (Value × Value)} (h : SpellsEntries s k v es b)
    (hb : b.length < 2 ^ 64) :
    ∃ us, Reads (readTimes (do skip k.kind; skip v.kind) es.length) b us := by
  induction es generalizing b with
  | nil =>
    cases h
    exact ⟨[], .pure []⟩
  | cons e es ih =>
    cases h with
    | cons hx hw hes =>
      rw [List.length_append, List.length_append] at hb
      obtain ⟨us, hus⟩ := ih hes (by omega)
      exact ⟨() :: us, ((hx.skips (by omega)).bind (hw.skips (by omega))).bind hus.map⟩

/-- What a field spells is skipped by its shape. -/
theorem SpellsShape.skips {shape : Shape} {w : Option Value} (h : SpellsShape s shape w b)
    (hb : b.length < 2 ^ 64) : Reads shape.skip b () := by
  cases h with
  | single h => exact h.skips hb
  | absent => exact (reads_bool false).bind_nil (.pure ())
  | present h =>
    rw [List.length_append] at hb
    exact (reads_bool true).bind (h.skips (by omega))
  | repeated e h =>
    -- Counted elements are skipped one by one, framed ones all at once.
    cases e with
    | elements =>
      obtain ⟨us, hus⟩ := h.skips (Extent.lt_of_length_write hb)
      exact .counted h.length_le (Extent.lt_of_length_write hb) hus.map
    | bytes => exact skips_frame hb
  | map e h =>
    cases e with
    | elements =>
      obtain ⟨us, hus⟩ := h.skips (Extent.lt_of_length_write hb)
      exact .counted h.length_le (Extent.lt_of_length_write hb) hus.map
    | bytes => exact skips_frame hb

end Skip

end Marshal
