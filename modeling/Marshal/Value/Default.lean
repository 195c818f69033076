import Marshal.Value.Basic

/-!
# Defaults

What stands in for a field that is missing: the zero of a scalar, the first
symbol of an enum, an object of a nested message with its own defaults, an
empty sequence or map, and nothing for an optional field. Deprecated fields are
left out of such objects.

A message that holds others by value has their defaults in its own. Going from
a schema to one it imports the schema gets smaller, and within a schema no
message holds itself, so as many steps as there are messages are enough.

* `CompiledSchema.defaultValue` is the value that stands in for a missing one;
* `CompiledSchema.defaultBytes` is what is written for it.
-/

namespace Marshal

open Wire

/-- What stands in for a missing field, given what does for a value. -/
def Shape.default? (value : ValueStep → Except Value.Error Value) :
    Shape → Except Value.Error (Option Value)
  | .single v => some <$> value v
  | .optional _ => .ok none
  | .repeated _ _ => .ok (some (.array []))
  | .map _ _ _ => .ok (some (.map []))

/-- The fields of an object that has none of its own. -/
def defaultFields (value : ValueStep → Except Value.Error Value) :
    List Step → Except Value.Error (List (String × Value))
  | [] => .ok []
  | step :: rest =>
    if step.deprecated then defaultFields value rest
    else do
      let v ← step.shape.default? value
      let fields ← defaultFields value rest
      return match v with
        | some v => (step.field, v) :: fields
        | none => fields

/-- The number of an enum that is missing. -/
def CompiledSchema.defaultEnum (s : CompiledSchema) (id : EnumId) : Int32 :=
  match s.enumPlan? id with
  | some plan => plan.default
  | none => 0

namespace CompiledSchema

/-- What stands in for a missing value, going through at most `fuel` messages of
    this schema, given what stands in for the values of each import. -/
def defaultBy (s : CompiledSchema) (imports : List (ValueStep → Except Value.Error Value)) :
    (fuel : Nat) → ValueStep → Except Value.Error Value
  | _, .scalar p => .ok (p.toValue p.zero)
  | _, .enum id => .ok (.enum (s.defaultEnum id))
  | 0, .nested ⟨.own, index⟩ => .error (.unknownId ⟨.own, index⟩)
  | fuel + 1, .nested ⟨.own, index⟩ =>
    match s.messages[index]? with
    | some plan => .record plan.name <$> defaultFields (s.defaultBy imports fuel) plan.steps
    | none => .error (.unknownId ⟨.own, index⟩)
  | _, .nested ⟨.imported i, index⟩ =>
    match s.messagePlan? ⟨.imported i, index⟩, imports[i]? with
    | some (_, plan), some value => .record plan.name <$> defaultFields value plan.steps
    | _, _ => .error (.unknownId ⟨.imported i, index⟩)

mutual

/-- `defaultValue`, going through at most `fuel` messages of this schema. -/
def defaultWithin : CompiledSchema → (fuel : Nat) → ValueStep → Except Value.Error Value
  | s@⟨_, _, imports, _, _, _, _, _⟩ => s.defaultBy (defaultsOf imports)

/-- What stands in for the values of each of the schemas. -/
def defaultsOf : List CompiledSchema → List (ValueStep → Except Value.Error Value)
  | [] => []
  | s :: rest => s.defaultWithin s.messages.length :: defaultsOf rest

end

/-- The value that stands in for a missing one. -/
def defaultValue (s : CompiledSchema) (v : ValueStep) : Except Value.Error Value :=
  s.defaultWithin s.messages.length v

/-- What stands in for a missing field. -/
def defaultStep (s : CompiledSchema) (step : Step) : Except Value.Error (Option Value) :=
  step.shape.default? s.defaultValue

end CompiledSchema

/-! ## On the wire -/

/-- What is written for a sequence: what its extent counts, and the payload. -/
def Wire.Extent.write (e : Extent) (count : Nat) (payload : Bytes) : Bytes :=
  match e with
  | .elements => varint count ++ payload
  | .bytes => framed payload

/-- What is written for an absent field, given what is for an absent value. -/
def Shape.absent (value : ValueStep → Except Value.Error Bytes) :
    Shape → Except Value.Error Bytes
  | .single v => value v
  | .optional _ => .ok (Primitive.bool.write false)
  | .repeated _ extent | .map _ _ extent => .ok (extent.write 0 [])

/-- What is written for an object that has no fields of its own. -/
def absentFields (value : ValueStep → Except Value.Error Bytes) :
    List Step → Except Value.Error Bytes
  | [] => .ok []
  | step :: rest => do
    let bytes ← step.shape.absent value
    let others ← absentFields value rest
    return bytes ++ others

namespace CompiledSchema

/-- What is written for a missing value, going through at most `fuel` messages of
    this schema, given what is written for the values of each import. A default
    has to exist before anything is written for it. -/
def defaultBytesBy (s : CompiledSchema) (imports : List (ValueStep → Except Value.Error Bytes)) :
    (fuel : Nat) → ValueStep → Except Value.Error Bytes
  | _, .scalar p => .ok (p.write p.zero)
  | _, .enum id => .ok (Primitive.ofEnum.write (s.defaultEnum id).toUInt32)
  | 0, .nested ⟨.own, index⟩ => .error (.unknownId ⟨.own, index⟩)
  | fuel + 1, .nested ⟨.own, index⟩ => do
    let _ ← s.defaultWithin (fuel + 1) (.nested ⟨.own, index⟩)
    match s.messages[index]? with
    | some plan => framed <$> absentFields (s.defaultBytesBy imports fuel) plan.steps
    | none => .error (.unknownId ⟨.own, index⟩)
  | fuel, .nested ⟨.imported i, index⟩ => do
    let _ ← s.defaultWithin fuel (.nested ⟨.imported i, index⟩)
    match s.messagePlan? ⟨.imported i, index⟩, imports[i]? with
    | some (_, plan), some bytes => framed <$> absentFields bytes plan.steps
    | _, _ => .error (.unknownId ⟨.imported i, index⟩)

mutual

/-- `defaultBytes`, going through at most `fuel` messages of this schema. -/
def defaultBytesWithin : CompiledSchema → (fuel : Nat) → ValueStep → Except Value.Error Bytes
  | s@⟨_, _, imports, _, _, _, _, _⟩ => s.defaultBytesBy (defaultBytesOf imports)

/-- What is written for the missing values of each of the schemas. -/
def defaultBytesOf : List CompiledSchema → List (ValueStep → Except Value.Error Bytes)
  | [] => []
  | s :: rest => s.defaultBytesWithin s.messages.length :: defaultBytesOf rest

end

/-- What is written for a missing value. -/
def defaultBytes (s : CompiledSchema) (v : ValueStep) : Except Value.Error Bytes :=
  s.defaultBytesWithin s.messages.length v

end CompiledSchema

end Marshal
