import Marshal.Code.Error
import Marshal.Code.Names
import Marshal.Code.Syntax

/-!
# Distinct names

Names that differ in a schema may become the same in generated code, since
their case is changed. Each scope is therefore checked on its own: the types,
services and imports of a module, the symbols of an enum, the fields of a
message and the methods of a service.
-/

namespace Marshal.Code

/-- Adds a name to those taken in a scope. -/
def takeName (what : Named) (name ident : String) (taken : List String) :
    Except EmitError (List String) :=
  if ident ∈ taken then .error (.nameTaken what name ident) else .ok (ident :: taken)

/-- Takes the name of an enum, and those of its symbols in a scope of their
    own. -/
def takeEnum (taken : List String) (p : EnumPlan) : Except EmitError (List String) := do
  let taken ← takeName .enum p.name (typeIdent p.name) taken
  let _ ← p.values.foldlM
    (fun used v => takeName (.symbol p.name) v.name (typeIdent v.name) used) [unrecognized]
  return taken

/-- Takes the name of a message, and those of its fields in a scope of their
    own. -/
def takeMessage (taken : List String) (p : MessagePlan) : Except EmitError (List String) := do
  let taken ← takeName .message p.name (typeIdent p.name) taken
  let _ ← p.steps.foldlM
    (fun used step => takeName (.field p.name) step.field (fieldIdent step.field) used) []
  return taken

/-- Takes the name of a service, and those of its methods in a scope of their
    own. -/
def takeService (taken : List String) (p : ServicePlan) : Except EmitError (List String) := do
  let taken ← takeName .service p.name (typeIdent p.name) taken
  let _ ← p.methods.foldlM
    (fun used m => takeName (.method p.name) m.name (fieldIdent m.name) used) []
  return taken

/-- The import at a position. -/
def importAt (s : CompiledSchema) (position : Nat) : Except EmitError CompiledSchema :=
  match s.imports[position]? with
  | some i => .ok i
  | none => .error (.missingImport position)

/-- Takes the alias of an import. -/
def takeImport (s : CompiledSchema) (taken : List String) (position : Nat) :
    Except EmitError (List String) := do
  let i ← importAt s position
  takeName .imported i.name i.importAlias taken

/-- Checks that the names of a schema stay distinct in every scope. -/
def checkNames (s : CompiledSchema) : Except EmitError Unit := do
  let taken ← s.enums.foldlM takeEnum []
  let taken ← s.messages.foldlM takeMessage taken
  let taken ← s.services.foldlM takeService taken
  let _ ← s.order.imports.foldlM (takeImport s) taken
  return ()

end Marshal.Code
