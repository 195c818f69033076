import Marshal.Value.Default

/-!
# Decoding

An object is read by the plan of its message. Where the bytes end before a
step, the writer knew fewer fields, and the rest take their defaults. What a
deprecated field holds is skipped, and so are bytes left after the last step,
which belong to fields that the writer knew and this plan does not.

Reading a nested message takes a level of depth, of which there are
`nestingLimit`. So messages are read by recursion on the levels left.
-/

namespace Marshal

open Wire

namespace Value

/-- Readings of values. -/
abbrev Decoding (α : Type) := Reading Error α

/-- A reading of the wire as part of reading a value. -/
def onWire {α : Type} (read : WireReading α) : Decoding α := fun r =>
  match read r with
  | .ok a r => .ok a r
  | .error e r => .error (.wire e) r

/-- What needs no reading. -/
def given {α : Type} : Except Error α → Decoding α
  | .ok a => fun r => .ok a r
  | .error e => fun r => .error e r

/-- Reads a value, given how objects are read. -/
def decodeBy (object : CompiledSchema → MessagePlan → Decoding Value) (s : CompiledSchema) :
    ValueStep → Decoding Value
  | .scalar p => p.toValue <$> onWire p.read
  | .enum _ => (fun n => .enum (UInt32.toInt32 n)) <$> onWire Primitive.ofEnum.read
  | .nested id => do
    let (owner, plan) ← given (s.find id)
    let frame ← onWire readMessageFrame
    within frame (object owner plan)

/-- Reads a sequence. -/
def decodeSequence {α : Type} (element : Decoding α) : Extent → Decoding (List α)
  | .elements => do
    let count ← onWire readLength
    readTimes element count
  | .bytes => do
    let frame ← onWire readFrame
    within frame (readToEnd element)

/-- Reads a field, given how its values are read. Of an optional field that is
    absent there is no value. -/
def decodeShape (value : ValueStep → Decoding Value) : Shape → Decoding (Option Value)
  | .single v => some <$> value v
  | .optional v => do
    if ← onWire readBool then some <$> value v else return none
  | .repeated element extent => (fun items => some (.array items)) <$>
    decodeSequence (value element) extent
  | .map key v extent => (fun entries => some (.map entries)) <$>
    decodeSequence (do return (← value key, ← value v)) extent

/-- Reads what there is for a step: its field, its default if the bytes end
    before it, or nothing if it is deprecated. -/
def decodeStepBy (value : ValueStep → Decoding Value) (s : CompiledSchema) (step : Step) :
    Decoding (Option Value) := do
  if (← get).atEnd then
    if step.deprecated then return none else given (s.defaultStep step)
  else if step.deprecated then
    onWire step.shape.skip
    return none
  else decodeShape value step.shape

/-- Reads the fields of a message. -/
def decodeFieldsBy (value : ValueStep → Decoding Value) (s : CompiledSchema) :
    List Step → Decoding (List (String × Value))
  | [] => return []
  | step :: rest => do
    let v ← decodeStepBy value s step
    let fields ← decodeFieldsBy value s rest
    return match v with
      | some v => (step.field, v) :: fields
      | none => fields

/-- Reads an object of a message, with messages nested in it, of at most
    `levels` levels together. -/
def decodeObject : (levels : Nat) → CompiledSchema → MessagePlan → Decoding Value
  | 0, _, _ => do
    let r ← get
    throw (.wire (.nestingLimit r.index nestingLimit))
  | levels + 1, s, plan =>
    .record plan.name <$> decodeFieldsBy (decodeBy (decodeObject levels) s) s plan.steps

/-- Reads a value. A reader at depth `d` has `nestingLimit - d` levels left. -/
def decodeValue (s : CompiledSchema) (v : ValueStep) : Decoding Value := fun r =>
  decodeBy (decodeObject (nestingLimit - r.depth)) s v r

/-- Reads a field by its step, whether or not it is deprecated. -/
def decodeStep (s : CompiledSchema) (step : Step) : Decoding (Option Value) := fun r =>
  decodeShape (decodeBy (decodeObject (nestingLimit - r.depth)) s) step.shape r

/-- Reads bytes as an object of a message. -/
def decode (s : CompiledSchema) (id : MessageId) (bytes : Bytes) : Except Error Value := do
  let (owner, plan) ← s.find id
  match decodeObject (nestingLimit + 1) owner plan (.ofBytes bytes) with
  | .ok v _ => .ok v
  | .error e _ => .error e

/-- Reads bytes as an object of the message of a name. -/
def decodeNamed (s : CompiledSchema) (name : String) (bytes : Bytes) : Except Error Value :=
  match s.message? name with
  | some plan => decode s plan.id bytes
  | none => .error (.unknownName name)

end Value

end Marshal
