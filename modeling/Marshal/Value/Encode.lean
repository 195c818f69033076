import Marshal.Value.Default

/-!
# Encoding

An object is written by the plan of its message: its fields one after the other
in the order of the steps, each in the layout of its step. A required field
that is absent is written as its default, and deprecated fields are written
like any other. An object may hold no field that its message does not have.
-/

namespace Marshal

open Wire

namespace Value

/-- An encoder of an object: what is written for it by the plan of a message of
    a schema, as the value of a field. -/
abbrev ObjectEncoder := CompiledSchema → MessagePlan → (field : String) → Except Error Bytes

/-- An encoder of a sequence: what is written for it as the value of a field of a
    schema, given the steps of what it holds. -/
abbrev SequenceEncoder :=
  CompiledSchema → (field : String) → ValueStep → Extent → Except Error Bytes

/-- An encoder of a map: what is written for it as the value of a field of a
    schema, given the steps of its keys and values. -/
abbrev MapEncoder :=
  CompiledSchema → (field : String) → (key value : ValueStep) → Extent → Except Error Bytes

/-- An encoder of a field: what is written for it by a step of a schema. -/
abbrev FieldEncoder := CompiledSchema → Step → Except Error Bytes

/-- A value that is not what its field expects. -/
def unexpected {α : Type} (field : String) (expected : Expected) (v : Value) : Except Error α :=
  .error (.mismatch field expected (.value v.kind))

/-- What is written for a value, given what is if it is an object. -/
def encodeBy (v : Value) (object : ObjectEncoder) (s : CompiledSchema) (field : String) :
    ValueStep → Except Error Bytes
  | .scalar p =>
    match p.ofValue? v with
    | some x => .ok (p.write x)
    | none => unexpected field (.primitive p) v
  | .enum _ =>
    match v with
    | .enum n => .ok (Primitive.ofEnum.write n.toUInt32)
    | _ => unexpected field .enum v
  | .nested id => do
    let (owner, plan) ← s.find id
    framed <$> object owner plan field

/-- What is written for a field that is present, given what is if its value is an
    object, a sequence or a map. -/
def encodePresentBy (v : Value) (object : ObjectEncoder) (array : SequenceEncoder)
    (map : MapEncoder) : FieldEncoder := fun s step =>
  match step.shape with
  | .single inner => v.encodeBy object s step.field inner
  | .optional inner =>
    (Primitive.bool.write true ++ ·) <$> v.encodeBy object s step.field inner
  | .repeated element extent => array s step.field element extent
  | .map key value extent => map s step.field key value extent

/-- What is written for a field that may be absent. -/
def encodeFieldBy (field : Option FieldEncoder) (s : CompiledSchema) (step : Step) :
    Except Error Bytes :=
  match field with
  | some encode => encode s step
  | none => step.shape.absent s.defaultBytes

/-- What is written for the steps of a message, given encoders of the fields
    that are present. -/
def encodeStepsBy (fields : List (String × FieldEncoder)) (s : CompiledSchema) :
    List Step → Except Error Bytes
  | [] => .ok []
  | step :: rest => do
    let bytes ← encodeFieldBy (Ascending.get? step.field fields) s step
    let others ← encodeStepsBy fields s rest
    return bytes ++ others

/-- What is written for an object, given encoders of its fields. -/
def encodeObjectBy (name : String) (fields : List (String × FieldEncoder)) : ObjectEncoder :=
  fun s plan field =>
    if name ≠ plan.name then .error (.mismatch field (.message plan.name) (.message name))
    else match fields.find? fun f => (plan.step? f.1).isNone with
      | some (unknown, _) => .error (.mismatch unknown (.fieldOf plan.name) .unknownField)
      | none => encodeStepsBy fields s plan.steps

mutual

/-- What is written for a value as the object of a message. -/
def encodeObject : Value → ObjectEncoder
  | .object name fields => encodeObjectBy name (fieldEncoders fields)
  | v => fun _ plan field => unexpected field (.message plan.name) v

/-- What is written for elements one after the other. -/
def encodeItems (s : CompiledSchema) (field : String) (step : ValueStep) :
    List Value → Except Error Bytes
  | [] => .ok []
  | v :: rest => do
    let bytes ← v.encodeBy (encodeObject v) s field step
    let others ← encodeItems s field step rest
    return bytes ++ others

/-- What is written for keys and values in turn. -/
def encodeEntries (s : CompiledSchema) (field : String) (key value : ValueStep) :
    List (Value × Value) → Except Error Bytes
  | [] => .ok []
  | (k, v) :: rest => do
    let keyBytes ← k.encodeBy (encodeObject k) s field key
    let valueBytes ← v.encodeBy (encodeObject v) s field value
    let others ← encodeEntries s field key value rest
    return keyBytes ++ valueBytes ++ others

/-- What is written for a value as a sequence. -/
def encodeArray : Value → SequenceEncoder
  | .array items => fun s field element extent =>
    extent.write items.length <$> encodeItems s field element items
  | v => fun _ field _ _ => unexpected field .array v

/-- What is written for a value as a map. -/
def encodeMap : Value → MapEncoder
  | .map entries => fun s field key value extent =>
    extent.write entries.length <$> encodeEntries s field key value entries
  | v => fun _ field _ _ _ => unexpected field .map v

/-- The encoders of fields that are present. -/
def fieldEncoders : List (String × Value) → List (String × FieldEncoder)
  | [] => []
  | (name, v) :: rest =>
    (name, encodePresentBy v (encodeObject v) (encodeArray v) (encodeMap v)) :: fieldEncoders rest

end

/-- What is written for a value in the field `field`. -/
def encodeValue (v : Value) (s : CompiledSchema) (field : String) (step : ValueStep) :
    Except Error Bytes :=
  v.encodeBy (encodeObject v) s field step

/-- Writes an object of a message. -/
def encode (v : Value) (s : CompiledSchema) (id : MessageId) : Except Error Bytes := do
  let (owner, plan) ← s.find id
  encodeObject v owner plan ""

/-- Writes an object of the message that it names. -/
def encodeNamed (v : Value) (s : CompiledSchema) : Except Error Bytes :=
  match v with
  | .object name _ =>
    match s.message? name with
    | some plan => v.encode s plan.id
    | none => .error (.unknownName name)
  | _ => unexpected "" .object v

end Value

end Marshal
