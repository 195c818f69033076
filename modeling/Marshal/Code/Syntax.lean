import Marshal.Code.Calls
import Marshal.Code.Source

/-!
# The syntax of generated code

A module of generated code as a tree: the modules that it uses, its enums and
messages, each message with the statements of an encoder and a decoder, and its
services. Names stand in it as they do in the text.

* `Module.text`: the text of a module;
* `ReadStmt` and `WriteStmt`: the statements of decoders and encoders.

What the statements do is told in `Marshal.Code.Run`.
-/

namespace Marshal.Code

open Wire Text Source

/-- The crate that generated code uses if no other is asked for. -/
def defaultCrate : String := "polyglot"

/-- Choices about the text of generated code. -/
structure Options where
  /-- The crate that holds the buffers and traits that generated code uses. -/
  runtimeCrate : String := defaultCrate
  /-- Whether types derive serialization. -/
  serde : Bool := false
  deriving DecidableEq

/-- The path of the crate that generated code uses. -/
def Options.runtime (o : Options) : String := "::" ++ o.runtimeCrate

/-! ## Types -/

/-- A type of the module itself, or of one that is used under an alias. -/
structure TypePath where
  qualifier : Option String
  name : String
  deriving DecidableEq

/-- The path as it stands in code. -/
def TypePath.text (path : TypePath) : String :=
  match path.qualifier with
  | none => path.name
  | some qualifier => qualifier ++ "::" ++ path.name

/-- A type of the values of a field. -/
inductive TypeExpr
  | primitive (p : Primitive)
  | named (path : TypePath)
  | option (type : TypeExpr)
  /-- The values of a type, kept behind a pointer. -/
  | box (type : TypeExpr)
  | vec (type : TypeExpr)
  /-- The maps from one type to another, ordered by their keys. -/
  | map (key value : TypeExpr)
  deriving DecidableEq

/-- A generic type with its arguments. -/
def generic (head : String) (args : List String) : String :=
  head ++ "<" ++ joinWith ", " args ++ ">"

/-- The constructor of values behind a pointer is in the namespace of their type. -/
def boxPath : String := "::std::boxed::Box"

/-- The trait of types with a default. -/
def defaultTrait : String := "::core::default::Default"

/-- The lists over a type. -/
def vecOf (type : String) : String := generic "::std::vec::Vec" [type]

/-- The type of the values of a primitive. -/
def primitiveType : Primitive → String
  | .string => "::std::string::String"
  | .bytes => vecOf "u8"
  | p => p.typeName

/-- The type as it stands in code. -/
def TypeExpr.text : TypeExpr → String
  | .primitive p => primitiveType p
  | .named path => path.text
  | .option type => generic "::core::option::Option" [type.text]
  | .box type => generic boxPath [type.text]
  | .vec type => vecOf type.text
  | .map key value => generic "::std::collections::BTreeMap" [key.text, value.text]

/-! ## Decoders -/

/-- A buffer that a decoder reads from: the one that it is given, or a frame that
    was read from that one. -/
inductive Buffer
  | bb
  | frame
  deriving DecidableEq

/-- The buffer as it stands in code. -/
def Buffer.text : Buffer → String
  | .bb => "bb"
  | .frame => "frame"

/-- An expression that reads a value. It returns from the decoder if reading
    fails. -/
inductive ReadExpr
  /-- A call of a method of the buffer. -/
  | call (buf : Buffer) (method : String)
  /-- The symbol of an enum for a number. -/
  | fromNumber (type : TypePath) (number : ReadExpr)
  | message (buf : Buffer) (type : TypePath)
  | boxed (value : ReadExpr)
  /-- A truth value, and after a true one the value. -/
  | ifPresent (value : ReadExpr)
  deriving DecidableEq

/-- The expression as it stands in code. -/
def ReadExpr.text : ReadExpr → String
  | .call buf method => s!"{buf.text}.{method}()?"
  | .fromNumber type number => s!"{type.text}::from_i32({number.text} as i32)"
  | .message buf type => s!"{buf.text}.read_message::<{type.text}>()?"
  | .boxed value => s!"{boxPath}::new({value.text})"
  | .ifPresent value =>
    "if bb.read_bool()? \x7b Some(" ++ value.text ++ ") \x7d else \x7b None \x7d"

/-- A statement of a decoder, which fills in the fields of a message. -/
inductive ReadStmt
  /-- Returns the message if the buffer is at its end. -/
  | returnIfEmpty
  | assign (field : String) (value : ReadExpr)
  /-- Adds an element to a list. -/
  | push (field : String) (value : ReadExpr)
  /-- Puts a value under a key of a map. -/
  | insert (field : String) (key value : ReadExpr)
  /-- Reads a number, and then repeats the statements that often. -/
  | counted (body : List ReadStmt)
  /-- Reads a frame, and repeats the statements until it is at its end. -/
  | framed (body : List ReadStmt)
  /-- Goes past a value of a kind. -/
  | skip (k : Kind)
  /-- Goes past what comes after a truth value. -/
  | skipPresent (body : List ReadStmt)
  /-- Goes past what comes after a number, that often. -/
  | skipCounted (body : List ReadStmt)

/-- The variant that stands for a kind. -/
def kindVariant : Kind → String
  | .signedVarint => "SignedVarint"
  | .unsignedVarint => "UnsignedVarint"
  | .fixed32 => "Fixed32"
  | .fixed64 => "Fixed64"
  | .bytes => "LengthDelimitedBytes"
  | .nested => "LengthDelimitedNested"

namespace ReadStmt

mutual

/-- The statement as it stands in code. -/
def source (o : Options) : ReadStmt → List Source
  | .returnIfEmpty => [.line "if bb.is_empty() \x7b return Ok(message); \x7d"]
  | .assign field value => [.line s!"message.{field} = {value.text};"]
  | .push field value => [.line s!"message.{field}.push({value.text});"]
  | .insert field key value =>
    [ .line s!"let key = {key.text};", .line s!"let value = {value.text};",
      .line s!"message.{field}.insert(key, value);" ]
  | .counted body =>
    [.block "\x7b"
      [.line "let len = bb.read_len()?;", braces "for _ in 0..len" (sources o body)] "\x7d"]
  | .framed body =>
    [.block "\x7b"
      [ .line "let mut frame = bb.read_frame()?;",
        braces "while !frame.is_empty()" (sources o body) ] "\x7d"]
  | .skip k => [.line s!"bb.skip({o.runtime}::WireKind::{kindVariant k})?;"]
  | .skipPresent body => [braces "if bb.read_bool()?" (sources o body)]
  | .skipCounted body => [braces "for _ in 0..bb.read_len()?" (sources o body)]

/-- The statements as they stand in code. -/
def sources (o : Options) : List ReadStmt → List Source
  | [] => []
  | stmt :: rest => source o stmt ++ sources o rest

end

end ReadStmt

/-! ## Encoders -/

/-- A value that an encoder has at hand. -/
inductive Operand
  /-- A field of the message. -/
  | field (name : String)
  /-- A variable, which is a reference. -/
  | var (name : String)
  deriving DecidableEq

/-- The operand as it stands in code. -/
def Operand.text : Operand → String
  | .field name => "self." ++ name
  | .var name => name

/-- What a method of a buffer is called with. -/
inductive Argument
  | plain (x : Operand)
  | borrow (x : Operand)
  | deref (x : Operand)
  /-- The number of a symbol. -/
  | number (x : Operand)
  deriving DecidableEq

/-- The argument as it stands in code. -/
def Argument.text : Argument → String
  | .plain x => x.text
  | .borrow x => "&" ++ x.text
  | .deref x => "*" ++ x.text
  | .number x => x.text ++ ".as_i32() as u32"

/-- A call that writes to the buffer. -/
inductive WriteCall
  | value (method : String) (arg : Argument)
  | bool (b : Bool)
  | message (arg : Argument)
  /-- Writes the number of elements in a field. -/
  | length (field : String)
  deriving DecidableEq

/-- The call as it stands in code. -/
def WriteCall.text : WriteCall → String
  | .value method arg => s!"bb.{method}({arg.text})"
  | .bool b => s!"bb.write_bool({b})"
  | .message arg => s!"bb.write_message({arg.text})"
  | .length field => s!"bb.write_len(self.{field}.len())"

/-- A statement of an encoder. -/
inductive WriteStmt
  | call (c : WriteCall)
  /-- Writes a frame that has what the statements write. -/
  | frame (body : List WriteStmt)
  /-- For every element `item` of a list. -/
  | forItems (field : String) (body : List WriteStmt)
  /-- For every `key` of a map and its `value`. -/
  | forEntries (field : String) (body : List WriteStmt)
  /-- With the `value` that is there, seen through a method, or without one. -/
  | ifPresent (field view : String) (present : List WriteStmt) (absent : WriteCall)

namespace WriteStmt

mutual

/-- The statement as it stands in code. -/
def source : WriteStmt → Source
  | .call c => .line (c.text ++ ";")
  | .frame body => .block "bb.write_frame(|bb| \x7b" (sources body) "\x7d);"
  | .forItems field body => braces s!"for item in &self.{field}" (sources body)
  | .forEntries field body => braces s!"for (key, value) in &self.{field}" (sources body)
  | .ifPresent field view present absent =>
    braces s!"match self.{field}.{view}()"
      [braces "Some(value) =>" (sources present), .line s!"None => {absent.text},"]

/-- The statements as they stand in code. -/
def sources : List WriteStmt → List Source
  | [] => []
  | stmt :: rest => source stmt :: sources rest

end

end WriteStmt

/-! ## Modules -/

/-- An enum: its symbols with their numbers. -/
structure EnumCode where
  name : String
  variants : List (String × Int32)
  deriving DecidableEq

/-- A field of a message. -/
structure FieldCode where
  name : String
  type : TypeExpr
  deprecated : Bool
  deriving DecidableEq

/-- A message with the statements of its encoder and its decoder. -/
structure StructCode where
  name : String
  fields : List FieldCode
  encoder : List WriteStmt
  decoder : List ReadStmt

/-- A type of a module. -/
inductive TypeItem
  | enum (code : EnumCode)
  | struct (code : StructCode)

/-- The name of a type. -/
def TypeItem.name : TypeItem → String
  | .enum code => code.name
  | .struct code => code.name

/-- A method of a service. -/
structure MethodCode where
  name : String
  input : TypePath
  output : TypePath
  deriving DecidableEq

/-- A service. -/
structure TraitCode where
  name : String
  methods : List MethodCode
  deriving DecidableEq

/-- The use of a module under an alias. -/
structure UseCode where
  path : List String
  qualifier : String
  deriving DecidableEq

/-- A module. -/
structure Module where
  /-- The name of the schema that the module is generated from. -/
  schema : String
  uses : List UseCode
  types : List TypeItem
  traits : List TraitCode

/-- The variant that stands for the numbers without a symbol. -/
def unrecognized : String := "Unrecognized"

/-- The attributes in front of a type. -/
def derives (o : Options) (traits : String) : List Source :=
  .line s!"#[derive({traits})]" ::
    if o.serde then [.line "#[derive(::serde::Serialize, ::serde::Deserialize)]"] else []

/-- An enum with its conversions to and from numbers, and its default. -/
def EnumCode.source (o : Options) (code : EnumCode) : List Source :=
  let name := code.name
  let variants := code.variants.map fun v => (v.1, toString v.2.toInt)
  let first := match variants with
    | [] => unrecognized ++ "(0)"
    | (variant, _) :: _ => variant
  derives o "Debug, Clone, Copy, PartialEq, Eq, Hash, PartialOrd, Ord" ++
  [ braces s!"pub enum {name}" (variants.map (fun (variant, _) => .line (variant ++ ",")) ++
      [ .line "/// A value this version of the schema does not declare.",
        .line s!"{unrecognized}(i32)," ]),
    .blank,
    braces s!"impl {name}"
      [ braces "pub fn from_i32(value: i32) -> Self"
          [ braces "match value"
              (variants.map (fun (variant, value) => .line s!"{value} => {name}::{variant},") ++
                [.line s!"other => {name}::{unrecognized}(other),"]) ],
        .blank,
        braces "pub fn as_i32(self) -> i32"
          [ braces "match self"
              (variants.map (fun (variant, value) => .line s!"{name}::{variant} => {value},") ++
                [.line s!"{name}::{unrecognized}(value) => value,"]) ] ],
    .blank,
    braces s!"impl {defaultTrait} for {name}"
      [ braces "fn default() -> Self" [.line s!"{name}::{first}"] ] ]

/-- The declaration of a field. -/
def FieldCode.source (field : FieldCode) : List Source :=
  let note := if field.deprecated then [.line "/// Deprecated: still written, skipped when read."]
    else []
  note ++ [.line s!"pub {field.name}: {field.type.text},"]

namespace StructCode

/-- The body of an encoder. -/
def encoderSource (code : StructCode) : List Source :=
  if code.fields.isEmpty then [.line "let _ = bb;"] else WriteStmt.sources code.encoder

/-- The body of a decoder. -/
def decoderSource (o : Options) (code : StructCode) : List Source :=
  let default := s!"<Self as {defaultTrait}>::default()"
  if code.fields.isEmpty then
    [.line "let _ = bb;", .line s!"Ok({default})"]
  else
    let binding := if code.fields.any (!·.deprecated) then "let mut message" else "let message"
    [.line s!"{binding} = {default};"] ++ ReadStmt.sources o code.decoder ++ [.line "Ok(message)"]

/-- A message with its encoder and its decoder. -/
def source (o : Options) (code : StructCode) : List Source :=
  let name := code.name
  let result := generic "::core::result::Result" ["Self", o.runtime ++ "::WireError"]
  derives o "Debug, Clone, PartialEq, Default" ++
  [ braces s!"pub struct {name}" (code.fields.flatMap FieldCode.source),
    .blank,
    braces s!"impl {o.runtime}::Encode for {name}"
      [ braces s!"fn encode_bb(&self, bb: &mut {o.runtime}::ByteBufferMut)" code.encoderSource ],
    .blank,
    braces s!"impl {o.runtime}::Decode for {name}"
      [ braces s!"fn decode_bb(bb: &mut {o.runtime}::ByteBuffer<'_>) -> {result}"
          (code.decoderSource o) ] ]

end StructCode

/-- A type as it stands in code. -/
def TypeItem.source (o : Options) : TypeItem → List Source
  | .enum code => code.source o
  | .struct code => code.source o

/-- A service as a trait. -/
def TraitCode.source (code : TraitCode) : List Source :=
  [ braces s!"pub trait {code.name}" (code.methods.map fun m =>
      .line s!"fn {m.name}(&self, request: {m.input.text}) -> {m.output.text};") ]

/-- The use of a module as it stands in code. -/
def UseCode.source (code : UseCode) : Source :=
  .line ("use crate::" ++ joinWith "::" code.path ++ s!" as {code.qualifier};")

namespace Module

/-- The comment at the top of a module. -/
def header (schema : String) : List Source :=
  [ .line "// Code generated by polyglot-compiler. DO NOT EDIT.",
    .line s!"// source: {schema}" ]

/-- The sections of a module after the comment at its top. -/
def body (o : Options) (m : Module) : List (List Source) :=
  (if m.uses.isEmpty then [] else [m.uses.map UseCode.source]) ++
    m.types.map (TypeItem.source o) ++ m.traits.map TraitCode.source

/-- The text of a module. -/
def text (o : Options) (m : Module) : String := document (header m.schema :: m.body o)

end Module

end Marshal.Code
