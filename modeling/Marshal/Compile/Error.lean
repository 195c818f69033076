import Marshal.Schema.Basic
import Marshal.Text.Quoted
import Marshal.Text.Words

/-!
# Compilation errors

Why a schema was not compiled. An inconsistency is a fault of a schema by
itself, at some place in it; the other errors are about what its names refer
to.
-/

namespace Marshal

open Text

/-- The part of a schema that an inconsistency is found in. -/
inductive Place
  | schema (name : String)
  | enum (name : String)
  | message (name : String)
  | service (name : String)
  | field (owner name : String)
  | method (service name : String)
  /-- The imports of several schemas together. -/
  | imports
  deriving DecidableEq

/-- What carries a name. -/
inductive Role
  | type
  | symbol
  | field
  | service
  | method
  deriving DecidableEq

/-- What is wrong at a place. -/
inductive Fault
  /-- The package is not made of identifiers. -/
  | package (package : String)
  | selfImport
  | repeatedImport (name : String)
  | notIdentifier (role : Role) (name : String)
  | repeatedName (role : Role) (name : String)
  | noSymbols
  | repeatedValue (value : Int32)
  | zeroNumber (field : String)
  | repeatedNumber (field : String)
  | notReference (name : String)
  /-- A container holds another one. -/
  | nestedContainer (type : FieldType)
  /-- Several imports declare what the name could stand for. -/
  | ambiguous (name : String) (imports : List String)
  | notMessage (name : String)
  | repeatedSchema (name : String)
  | alreadyPublished (name : String)
  | importCycle (schemas : List String)
  deriving DecidableEq

/-- Why a schema was not compiled. -/
inductive CompileError
  /-- No declaration matches a name. -/
  | unresolvedType (owner member name : String)
  /-- A map has keys of a type that keys cannot have. -/
  | mapKey (message field : String) (key : FieldType)
  /-- A message holds itself, not through a field that may be empty. -/
  | valueRecursion (message field : String) (cycle : List String)
  | inconsistent (place : Place) (fault : Fault)
  /-- An import is not among the schemas compiled before. -/
  | unresolvedImport (schema name : String)
  deriving DecidableEq

/-- The place as messages name it. -/
def Place.display : Place → String
  | .schema name => "schema " ++ quote name
  | .enum name => "enum " ++ quote name
  | .message name => "message " ++ quote name
  | .service name => "service " ++ quote name
  | .field owner name => s!"field {owner}.{name}"
  | .method owner name => s!"method {owner}.{name}"
  | .imports => "imports"

/-- The carrier of a name. -/
def Role.noun : Role → String
  | .type => "type"
  | .symbol => "symbol"
  | .field => "field"
  | .service => "service"
  | .method => "method"

/-- What the name of a carrier is called. -/
def Role.nameNoun : Role → String
  | .type => "type name"
  | role => role.noun

/-- The wording of a fault. -/
def Fault.message : Fault → String
  | .package name => s!"package {quote name} is not a dotted identifier"
  | .selfImport => "a schema cannot import itself"
  | .repeatedImport name => s!"import {quote name} is listed twice"
  | .notIdentifier role name => s!"{role.nameNoun} {quote name} is not a valid identifier"
  | .repeatedName role name => s!"the {role.noun} {quote name} is defined twice"
  | .noSymbols => "an enum needs at least one value"
  | .repeatedValue value => s!"the value {value.toInt} is used twice"
  | .zeroNumber field => s!"the number of field {quote field} must be positive"
  | .repeatedNumber field => s!"the number of field {quote field} is used twice"
  | .notReference name => s!"{quote name} is not a valid type reference"
  | .nestedContainer type => s!"{quote type.display} cannot be nested inside another container"
  | .ambiguous name imports =>
    quote name ++ " is declared by several imports (" ++ joinWith ", " (imports.map quote) ++ ")"
  | .notMessage name => s!"{quote name} is not a message"
  | .repeatedSchema name => s!"schema {quote name} is defined twice"
  | .alreadyPublished name => s!"schema {quote name} is already published"
  | .importCycle schemas => "import cycle " ++ joinWith " -> " (schemas.map quote)

/-- The wording of an error. Names of messages and fields stand as they are. -/
def CompileError.message : CompileError → String
  | .unresolvedType owner member name =>
    s!"Unresolved type \"{name}\" referenced by \"{owner}.{member}\""
  | .mapKey message field key =>
    s!"Field \"{message}.{field}\" uses \"{key.display}\" as a map key; " ++
      "keys must be integers or bool"
  | .valueRecursion message field cycle =>
    s!"Message \"{message}\" contains itself by value through field \"{field}\" (" ++
      joinWith " -> " cycle ++ ")"
  | .inconsistent place fault => s!"Inconsistent IR in {place.display}: {fault.message}"
  | .unresolvedImport schema name =>
    s!"Schema \"{schema}\" imports \"{name}\", which has not been compiled"

end Marshal
