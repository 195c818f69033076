import Marshal.Plan.Compiled
import Marshal.Text.Quoted

/-!
# Emission errors

Why no code was generated for a compiled schema.
-/

namespace Marshal.Code

open Text

/-- What a name in generated code stands for. -/
inductive Named
  | enum
  | symbol (enum : String)
  | message
  | field (message : String)
  | service
  | method (service : String)
  | imported
  deriving DecidableEq

/-- Why no code was generated. -/
inductive EmitError
  /-- Two names of the schema become the same name. -/
  | nameTaken (what : Named) (name ident : String)
  /-- The order of emission names a declaration that is not there. -/
  | missingDeclaration (d : Declaration)
  | missingImport (position : Nat)
  | unknownMessage (id : MessageId)
  | unknownEnum (id : EnumId)
  deriving DecidableEq

/-- What carries the name, as messages put it. -/
def Named.display : Named → String
  | .enum => "enum"
  | .symbol owner => s!"symbol of {owner}"
  | .message => "message"
  | .field owner => s!"field of {owner}"
  | .service => "service"
  | .method owner => s!"method of {owner}"
  | .imported => "import"

/-- A declaration as messages name it. -/
def declarationLabel : Declaration → String
  | .enum index => s!"enum #{index}"
  | .message index => s!"message #{index}"

/-- The wording of the reason. -/
def EmitError.reason : EmitError → String
  | .nameTaken what name ident =>
    s!"{what.display} {quote name} becomes the Rust name {quote ident} which is already taken"
  | .missingDeclaration d =>
    s!"emission order names {declarationLabel d} which does not exist"
  | .missingImport position => s!"import #{position} does not exist"
  | .unknownMessage id => s!"unknown message {id.display}"
  | .unknownEnum id => s!"unknown enum {id.display}"

/-- The wording of an error. -/
def EmitError.message (e : EmitError) : String := "Emit error: " ++ e.reason

end Marshal.Code
