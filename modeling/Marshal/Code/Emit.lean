import Marshal.Code.Distinct

/-!
# Generated code

A compiled schema as a module of Rust: its enums and messages in the order of
emission, each message with an encoder and a decoder that go through its plan,
and its services as traits.

* An enum has one variant for each symbol, and one that keeps the numbers
  without a symbol.
* A message has one field for each step. A decoder leaves the fields at their
  defaults from where the bytes end, and goes past those that are deprecated.
* Types of the standard library are spelled out, since a schema may have types
  of the same names.
-/

namespace Marshal.Code

open Wire

/-! ## Types -/

/-- The path of a type of the schema `owner`, from a schema for which that has
    the origin `origin`. -/
def typePath (origin : Origin) (owner : CompiledSchema) (name : String) : TypePath :=
  match origin with
  | .own => ⟨none, typeIdent name⟩
  | .imported _ => ⟨some owner.importAlias, typeIdent name⟩

/-- The type of a message. -/
def messageType (s : CompiledSchema) (id : MessageId) : Except EmitError TypePath :=
  match s.messagePlan? id with
  | some (owner, plan) => .ok (typePath id.origin owner plan.name)
  | none => .error (.unknownMessage id)

/-- The type of an enum. -/
def enumType (s : CompiledSchema) (id : EnumId) : Except EmitError TypePath :=
  match s.owner? id.origin, s.enumPlan? id with
  | some owner, some plan => .ok (typePath id.origin owner plan.name)
  | _, _ => .error (.unknownEnum id)

/-- The type of a single value. -/
def valueType (s : CompiledSchema) : ValueStep → Except EmitError TypeExpr
  | .scalar p => .ok (.primitive p)
  | .enum id => .named <$> enumType s id
  | .nested id => .named <$> messageType s id

/-- The type of a field. An optional message is kept behind a pointer, so that
    messages can hold themselves. -/
def fieldType (s : CompiledSchema) : Shape → Except EmitError TypeExpr
  | .single v => valueType s v
  | .optional v@(.nested _) => (fun type => .option (.box type)) <$> valueType s v
  | .optional v => .option <$> valueType s v
  | .repeated element _ => .vec <$> valueType s element
  | .map key value _ => do
    let key ← valueType s key
    return .map key (← valueType s value)

/-! ## Encoders -/

/-- How an operand stands for the value to be written. -/
inductive Access
  /-- It names the value. -/
  | place
  /-- It is a reference to the value. -/
  | reference
  deriving DecidableEq

/-- The argument for a value of a primitive. -/
def scalarArgument (p : Primitive) (x : Operand) (access : Access) : Argument :=
  match writesByRef p, access with
  | true, .place => .borrow x
  | false, .reference => .deref x
  | _, _ => .plain x

/-- A call that writes a value. -/
def writeValue (v : ValueStep) (x : Operand) (access : Access) : WriteCall :=
  match v with
  | .scalar p => .value (writeCall p) (scalarArgument p x access)
  | .enum _ => .value (writeCall Primitive.ofEnum) (.number x)
  | .nested _ =>
    match access with
    | .place => .message (.borrow x)
    | .reference => .message (.plain x)

/-- A loop that writes the elements of a list. -/
def writeElements (field : String) (element : ValueStep) : WriteStmt :=
  .forItems field [.call (writeValue element (.var "item") .reference)]

/-- A loop that writes the keys and values of a map. -/
def writeEntries (field : String) (key value : ValueStep) : WriteStmt :=
  .forEntries field
    [ .call (writeValue key (.var "key") .reference),
      .call (writeValue value (.var "value") .reference) ]

/-- Statements that write a sequence after its extent. -/
def writeSequence (field : String) (loop : WriteStmt) : Extent → List WriteStmt
  | .elements => [.call (.length field), loop]
  | .bytes => [.frame [loop]]

/-- The method by which an optional value is seen. -/
def viewMethod : ValueStep → String
  | .nested _ => "as_deref"
  | _ => "as_ref"

/-- Statements that write a field. -/
def encodeField (step : Step) : List WriteStmt :=
  let field := fieldIdent step.field
  match step.shape with
  | .single v => [.call (writeValue v (.field field) .place)]
  | .optional v =>
    [ .ifPresent field (viewMethod v)
        [.call (.bool true), .call (writeValue v (.var "value") .reference)] (.bool false) ]
  | .repeated element extent => writeSequence field (writeElements field element) extent
  | .map key value extent => writeSequence field (writeEntries field key value) extent

/-! ## Decoders -/

/-- An expression that reads a value from the buffer `buf`. -/
def readValue (s : CompiledSchema) (v : ValueStep) (buf : Buffer) : Except EmitError ReadExpr :=
  match v with
  | .scalar p => .ok (.call buf (readCall p))
  | .enum id => do
    let type ← enumType s id
    return .fromNumber type (.call buf (readCall Primitive.ofEnum))
  | .nested id => .message buf <$> messageType s id

/-- A statement that reads an element of a list. -/
def readElement (s : CompiledSchema) (field : String) (element : ValueStep) (buf : Buffer) :
    Except EmitError ReadStmt :=
  .push field <$> readValue s element buf

/-- A statement that reads a key of a map and its value. -/
def readEntry (s : CompiledSchema) (field : String) (key value : ValueStep) (buf : Buffer) :
    Except EmitError ReadStmt := do
  let key ← readValue s key buf
  return .insert field key (← readValue s value buf)

/-- A statement that reads a sequence after its extent. An item of it is read
    from the buffer that is given. -/
def readSequence (item : Buffer → Except EmitError ReadStmt) : Extent → Except EmitError ReadStmt
  | .elements => (fun item => .counted [item]) <$> item .bb
  | .bytes => (fun item => .framed [item]) <$> item .frame

/-- A statement that reads a field. -/
def decodeField (s : CompiledSchema) (step : Step) : Except EmitError ReadStmt :=
  let field := fieldIdent step.field
  match step.shape with
  | .single v => .assign field <$> readValue s v .bb
  | .optional v => do
    let read ← readValue s v .bb
    let read := match v with
      | .nested _ => .boxed read
      | _ => read
    return .assign field (.ifPresent read)
  | .repeated element extent => readSequence (readElement s field element) extent
  | .map key value extent => readSequence (readEntry s field key value) extent

/-- A statement that goes past a field. -/
def skipField : Shape → ReadStmt
  | .single v => .skip v.kind
  | .optional v => .skipPresent [.skip v.kind]
  | .repeated _ .bytes | .map _ _ .bytes => .skip .bytes
  | .repeated element .elements => .skipCounted [.skip element.kind]
  | .map key value .elements => .skipCounted [.skip key.kind, .skip value.kind]

/-- Statements that read a field, or go past it if it is deprecated, unless the
    bytes are at their end. -/
def decodeStep (s : CompiledSchema) (step : Step) : Except EmitError (List ReadStmt) := do
  let body ← if step.deprecated then .ok (skipField step.shape) else decodeField s step
  return [.returnIfEmpty, body]

/-! ## Declarations -/

/-- The declaration of a field. -/
def fieldCode (s : CompiledSchema) (step : Step) : Except EmitError FieldCode := do
  let type ← fieldType s step.shape
  return ⟨fieldIdent step.field, type, step.deprecated⟩

/-- A message with its encoder and its decoder. -/
def structCode (s : CompiledSchema) (p : MessagePlan) : Except EmitError StructCode := do
  let fields ← p.steps.mapM (fieldCode s)
  let decoder ← p.steps.mapM (decodeStep s)
  return ⟨typeIdent p.name, fields, p.steps.flatMap encodeField, decoder.flatten⟩

/-- An enum. -/
def enumCode (p : EnumPlan) : EnumCode :=
  ⟨typeIdent p.name, p.values.map fun v => (typeIdent v.name, v.value)⟩

/-- A declaration of the schema. -/
def typeItem (s : CompiledSchema) (d : Declaration) : Except EmitError TypeItem :=
  match d with
  | .enum index =>
    match s.enums[index]? with
    | some p => .ok (.enum (enumCode p))
    | none => .error (.missingDeclaration d)
  | .message index =>
    match s.messages[index]? with
    | some p => .struct <$> structCode s p
    | none => .error (.missingDeclaration d)

/-- The signature of a method. -/
def methodCode (s : CompiledSchema) (m : MethodPlan) : Except EmitError MethodCode := do
  let input ← messageType s m.input
  let output ← messageType s m.output
  return ⟨fieldIdent m.name, input, output⟩

/-- A service as a trait. -/
def traitCode (s : CompiledSchema) (p : ServicePlan) : Except EmitError TraitCode := do
  let methods ← p.methods.mapM (methodCode s)
  return ⟨typeIdent p.name, methods⟩

/-- The use of an import, under its alias. -/
def useCode (s : CompiledSchema) (position : Nat) : Except EmitError UseCode := do
  let i ← importAt s position
  return ⟨i.modulePath, i.importAlias⟩

/-! ## Modules -/

/-- The parts of a module, whose names have been checked. -/
def moduleParts (s : CompiledSchema) : Except EmitError Module := do
  let uses ← s.order.imports.mapM (useCode s)
  let types ← s.order.declarations.mapM (typeItem s)
  let traits ← s.services.mapM (traitCode s)
  return ⟨s.name, uses, types, traits⟩

/-- The module of a compiled schema. -/
def moduleOf (s : CompiledSchema) : Except EmitError Module := do
  checkNames s
  moduleParts s

/-- The text of the module of a compiled schema. -/
def emit (s : CompiledSchema) (o : Options) : Except EmitError String :=
  Module.text o <$> moduleOf s

end Marshal.Code
