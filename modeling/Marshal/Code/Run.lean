import Marshal.Ascending
import Marshal.Code.Emit
import Marshal.Value.Basic
import Marshal.Wire.Reader

/-!
# Running generated code

What the encoders and decoders of generated code do. A decoder starts from the
default of its message and goes through its statements, which read from the
buffer and fill in the fields, up to a return. An encoder goes through its
statements, each of which writes some bytes.

Code that asks for a method, a type, a field or a variable that is not there, or
for one of another type, is *stuck*. Nothing is run for such code, as it would
not have been built in the first place.

* `program`: the module of a schema together with those that it uses;
* `decodeRecord` and `encodeRecord`: reading bytes as a message of a program, and
  writing it again.
-/

namespace Marshal.Code

open Wire

/-! ## Data -/

/-- A value of a type of generated code. -/
inductive Datum
  | scalar (v : Value)
  /-- The variant of an enum at a position. -/
  | symbol (type : EnumCode) (position : Nat)
  /-- A number for which an enum has no variant. -/
  | unrecognized (type : EnumCode) (number : Int32)
  | option (value : Option Datum)
  | box (value : Datum)
  | vec (items : List Datum)
  /-- Keys and values, under the places of the keys in their order. -/
  | map (entries : List (Int × Datum × Datum))
  | struct (type : StructCode) (fields : List (String × Datum))

namespace Datum

/-- The place of a key in the order of its type. Variants are in the order in
    which they are declared, and numbers without one come after them. -/
def ordinal : Datum → Int
  | .scalar v => v.ordinal
  | .symbol _ position => position
  | .unrecognized type number => type.variants.length + 0x80000000 + number.toInt
  | _ => 0

/-- The symbol of an enum for a number: the first variant that has it. -/
def ofNumber (type : EnumCode) (number : Int32) : Datum :=
  match type.variants.findIdx? (·.2 = number) with
  | some position => .symbol type position
  | none => .unrecognized type number

/-- The default of an enum: the first variant, if there is one. -/
def first (type : EnumCode) : Datum :=
  match type.variants with
  | [] => .unrecognized type 0
  | _ :: _ => .symbol type 0

end Datum

/-! ## Programs -/

/-- The types of a module, and the modules that it uses under their aliases. -/
structure Program where
  types : List TypeItem
  uses : List (String × Program)

mutual

/-- The module of a compiled schema with those of the schemas that it uses. -/
def program : CompiledSchema → Except EmitError Program
  | ⟨name, package, imports, enums, messages, mappings, services, order⟩ => do
    let m ← moduleOf ⟨name, package, imports, enums, messages, mappings, services, order⟩
    let uses ← order.imports.mapM fun position =>
      match (programs imports)[position]? with
      | some (qualifier, used) => (qualifier, ·) <$> used
      | none => .error (.missingImport position)
    return ⟨m.types, uses⟩

/-- The modules of schemas under their aliases. -/
def programs : List CompiledSchema → List (String × Except EmitError Program)
  | [] => []
  | s :: rest => (s.importAlias, program s) :: programs rest

end

namespace Program

mutual

/-- The number of types in a program. -/
def size : Program → Nat
  | ⟨types, uses⟩ => types.length + sizeAll uses

/-- The number of types in the modules that are used. -/
def sizeAll : List (String × Program) → Nat
  | [] => 0
  | (_, used) :: rest => size used + sizeAll rest

end

/-- The type of a path, with the module that it is in. -/
def type? (prog : Program) (path : TypePath) : Option (Program × TypeItem) := do
  let owner ← match path.qualifier with
    | none => some prog
    | some qualifier => Ascending.get? qualifier prog.uses
  let item ← owner.types.find? (·.name = path.name)
  return (owner, item)

/-! ### Defaults -/

/-- The default of a type, given those of messages. -/
def defaultBy (message : Program → StructCode → Option Datum) (prog : Program) :
    TypeExpr → Option Datum
  | .primitive p => some (.scalar (p.toValue p.zero))
  | .named path =>
    match prog.type? path with
    | some (_, .enum code) => some (.first code)
    | some (owner, .struct code) => message owner code
    | none => none
  | .option _ => some (.option none)
  | .box type => .box <$> defaultBy message prog type
  | .vec _ => some (.vec [])
  | .map _ _ => some (.map [])

/-- The defaults of fields, given those of messages. -/
def defaultFieldsBy (message : Program → StructCode → Option Datum) (prog : Program) :
    List FieldCode → Option (List (String × Datum))
  | [] => some []
  | field :: rest => do
    let d ← defaultBy message prog field.type
    let others ← defaultFieldsBy message prog rest
    return (field.name, d) :: others

/-- The default of a message, which has at most `fuel` levels of messages. -/
def defaultWithin : (fuel : Nat) → Program → StructCode → Option Datum
  | 0, _, _ => none
  | fuel + 1, prog, code => .struct code <$> defaultFieldsBy (defaultWithin fuel) prog code.fields

/-- The fields of the default of a message. No message is in its own default, so
    that there are at most as many levels as types. -/
def defaultFields (prog : Program) (code : StructCode) : Option (List (String × Datum)) :=
  defaultFieldsBy (defaultWithin prog.size) prog code.fields

end Program

/-! ## Decoders -/

/-- Why running code stopped. -/
inductive Stop
  | wire (e : Wire.Error)
  | stuck

/-- How statements end early. -/
inductive Halt
  /-- The message is returned. -/
  | returned
  | stopped (why : Stop)

/-- What a decoder works on: its buffer, the frame inside a loop over one, and the
    fields of the message. -/
structure Locals where
  bb : Reader
  frame : Option Reader
  message : List (String × Datum)

/-- A run of a part of a decoder. -/
abbrev Exec (α : Type) := EStateM Halt Locals α

/-- A reading of the wire as a part of running code. -/
def wire {α : Type} (read : WireReading α) : Reading Stop α := fun r =>
  match read r with
  | .ok a r => .ok a r
  | .error e r => .error (.wire e) r

namespace Exec

/-- Code that is not well-formed. -/
def stuck {α : Type} : Exec α := throw (.stopped .stuck)

/-- Reads from a buffer. -/
def reading {α : Type} (buf : Buffer) (read : Reading Stop α) : Exec α := fun l =>
  match buf with
  | .bb =>
    match read l.bb with
    | .ok a r => .ok a { l with bb := r }
    | .error e r => .error (.stopped e) { l with bb := r }
  | .frame =>
    match l.frame with
    | none => .error (.stopped .stuck) l
    | some frame =>
      match read frame with
      | .ok a r => .ok a { l with frame := some r }
      | .error e r => .error (.stopped e) { l with frame := some r }

/-- Fields with the one of a name changed. -/
def changeField (name : String) (f : Datum → Option Datum) :
    List (String × Datum) → Option (List (String × Datum))
  | [] => none
  | (n, d) :: rest =>
    if n = name then (fun d => (n, d) :: rest) <$> f d
    else ((n, d) :: ·) <$> changeField name f rest

/-- Changes a field of the message. -/
def change (name : String) (f : Datum → Option Datum) : Exec Unit := fun l =>
  match changeField name f l.message with
  | some message => .ok () { l with message }
  | none => .error (.stopped .stuck) l

/-- Runs a part as many times as it says. -/
def times (body : Exec Unit) : Nat → Exec Unit
  | 0 => return ()
  | n + 1 => do
    body
    times body n

/-- Runs a part until the frame is at its end, at most `bound` times. -/
def untilEnd (body : Exec Unit) : (bound : Nat) → Exec Unit
  | 0 => return ()
  | bound + 1 => do
    match (← get).frame with
    | none => stuck
    | some frame =>
      if frame.atEnd then return ()
      else
        body
        untilEnd body bound

/-- Runs statements up to where they return. -/
def upToReturn (body : Exec Unit) : EStateM Stop Locals Unit := fun l =>
  match body l with
  | .ok () l | .error .returned l => .ok () l
  | .error (.stopped e) l => .error e l

end Exec

open Exec

/-- The primitive that a method of a buffer reads. -/
def readMethod? (method : String) : Option Primitive := Primitive.all.find? (readCall · = method)

section Read

variable (message : Program → StructCode → Reading Stop Datum) (prog : Program)

/-- What an expression reads, given how messages are read. -/
def ReadExpr.eval : ReadExpr → Exec Datum
  | .call buf method =>
    match readMethod? method with
    | some p => (fun x => .scalar (p.toValue x)) <$> reading buf (wire p.read)
    | none => stuck
  | .fromNumber type number => do
    let n ← number.eval
    match prog.type? type, n with
    | some (_, .enum code), .scalar (.u32 n) => return .ofNumber code n.toInt32
    | _, _ => stuck
  | .message buf type =>
    match prog.type? type with
    | some (owner, .struct code) => reading buf (do
      let frame ← wire readMessageFrame
      within frame (message owner code))
    | _ => stuck
  | .boxed value => .box <$> value.eval
  | .ifPresent value => do
    if ← reading .bb (wire readBool) then (fun d => .option (some d)) <$> value.eval
    else return .option none

namespace ReadStmt

mutual

/-- Runs a statement of a decoder, given how messages are read. -/
def exec : ReadStmt → Exec Unit
  | .returnIfEmpty => do if (← get).bb.atEnd then throw .returned
  | .assign field value => do
    let d ← value.eval message prog
    change field fun _ => some d
  | .push field value => do
    let d ← value.eval message prog
    change field fun
      | .vec items => some (.vec (items ++ [d]))
      | _ => none
  | .insert field key value => do
    let k ← key.eval message prog
    let d ← value.eval message prog
    change field fun
      | .map entries => some (.map (Ascending.insert k.ordinal (k, d) entries))
      | _ => none
  | .counted body => do
    let count ← reading .bb (wire readLength)
    times (execAll body) count
  | .framed body => do
    let frame ← reading .bb (wire readFrame)
    modify ({ · with frame := some frame })
    untilEnd (execAll body) frame.remaining
    modify ({ · with frame := none })
  | .skip k => reading .bb (wire (Wire.skip k))
  | .skipPresent body => do if ← reading .bb (wire readBool) then execAll body
  | .skipCounted body => do
    let count ← reading .bb (wire readLength)
    times (execAll body) count

/-- Runs statements one after the other. -/
def execAll : List ReadStmt → Exec Unit
  | [] => return ()
  | stmt :: rest => do
    exec stmt
    execAll rest

end

end ReadStmt

end Read

/-- Reads a message by its decoder, with messages nested in it, of at most `levels`
    levels together. -/
def readStruct : (levels : Nat) → Program → StructCode → Reading Stop Datum
  | 0, _, _ => throw .stuck
  | levels + 1, prog, code => fun r =>
    match prog.defaultFields code with
    | none => .error .stuck r
    | some fields =>
      match upToReturn (ReadStmt.execAll (readStruct levels) prog code.decoder)
          ⟨r, none, fields⟩ with
      | .ok () l => .ok (.struct code l.message) l.bb
      | .error e l => .error e l.bb

/-- Reads bytes as the message of a name. -/
def decodeRecord (prog : Program) (name : String) (bytes : Bytes) : Except Stop Datum :=
  match prog.type? ⟨none, name⟩ with
  | some (_, .struct code) =>
    match readStruct (nestingLimit + 1) prog code (.ofBytes bytes) with
    | .ok d _ => .ok d
    | .error e _ => .error e
  | _ => .error .stuck

/-! ## Encoders -/

/-- What an encoder sees of a value. Of a message this is what its own encoder
    writes. Where there would be no value, the code is stuck. -/
inductive View
  | scalar (v : Value)
  | symbol (number : Option Int32)
  | option (value : Option View)
  | box (value : View)
  | vec (items : List View)
  | map (entries : List (View × View))
  | message (bytes : Option Bytes)

/-- The primitive that a method of a buffer writes. -/
def writeMethod? (method : String) : Option Primitive := Primitive.all.find? (writeCall · = method)

section Write

variable (self : List (String × View))

/-- What an operand stands for. -/
def Operand.view (vars : List (String × View)) : Operand → Option View
  | .field name => Ascending.get? name self
  | .var name => Ascending.get? name vars

/-- What an argument stands for. -/
def Argument.view (vars : List (String × View)) : Argument → Option View
  | .plain x | .borrow x | .deref x => x.view self vars
  | .number x => do
    match ← x.view self vars with
    | .symbol value => (fun n => .scalar (.u32 n.toUInt32)) <$> value
    | _ => none

/-- What a call writes. -/
def WriteCall.run (vars : List (String × View)) : WriteCall → Option Bytes
  | .value method arg => do
    let p ← writeMethod? method
    match ← arg.view self vars with
    | .scalar v => p.write <$> p.ofValue? v
    | _ => none
  | .bool b => some (Primitive.bool.write b)
  | .message arg => do
    match ← arg.view self vars with
    | .message bytes => framed <$> bytes
    | _ => none
  | .length field =>
    match Ascending.get? field self with
    | some (.vec items) => some (varint items.length)
    | some (.map entries) => some (varint entries.length)
    | _ => none

/-- What there is of a value that is present, seen through a method. -/
def View.through (view : View) (method : String) : Option View :=
  match method, view with
  | "as_ref", view => some view
  | "as_deref", .box view => some view
  | _, _ => none

namespace WriteStmt

mutual

/-- What a statement of an encoder writes. -/
def run (vars : List (String × View)) : WriteStmt → Option Bytes
  | .call c => c.run self vars
  | .frame body => framed <$> runAll vars body
  | .forItems field body =>
    match Ascending.get? field self with
    | some (.vec items) => List.flatten <$> items.mapM fun item => runAll [("item", item)] body
    | _ => none
  | .forEntries field body =>
    match Ascending.get? field self with
    | some (.map entries) =>
      List.flatten <$> entries.mapM fun e => runAll [("key", e.1), ("value", e.2)] body
    | _ => none
  | .ifPresent field method present absent =>
    match Ascending.get? field self with
    | some (.option none) => absent.run self vars
    | some (.option (some value)) => do runAll [("value", ← value.through method)] present
    | _ => none

/-- What statements write one after the other. -/
def runAll (vars : List (String × View)) : List WriteStmt → Option Bytes
  | [] => some []
  | stmt :: rest => do
    let bytes ← run vars stmt
    let others ← runAll vars rest
    return bytes ++ others

end

end WriteStmt

end Write

namespace Datum

mutual

/-- What an encoder sees of a value. -/
def view : Datum → View
  | .scalar v => .scalar v
  | .symbol type position => .symbol ((·.2) <$> type.variants[position]?)
  | .unrecognized _ number => .symbol (some number)
  | .option none => .option none
  | .option (some d) => .option (some d.view)
  | .box d => .box d.view
  | .vec items => .vec (views items)
  | .map entries => .map (viewEntries entries)
  | .struct type fields => .message (WriteStmt.runAll (viewFields fields) [] type.encoder)

/-- What an encoder sees of elements. -/
def views : List Datum → List View
  | [] => []
  | d :: rest => d.view :: views rest

/-- What an encoder sees of keys and values. -/
def viewEntries : List (Int × Datum × Datum) → List (View × View)
  | [] => []
  | (_, k, d) :: rest => (k.view, d.view) :: viewEntries rest

/-- What an encoder sees of fields. -/
def viewFields : List (String × Datum) → List (String × View)
  | [] => []
  | (name, d) :: rest => (name, d.view) :: viewFields rest

end

end Datum

/-- What is written for a message by its encoder. -/
def encodeRecord (d : Datum) : Option Bytes :=
  match d.view with
  | .message bytes => bytes
  | _ => none

end Marshal.Code
