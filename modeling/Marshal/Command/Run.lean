import Marshal.Command.Arguments
import Marshal.Command.Directory
import Marshal.Compile.Log
import Marshal.Plan.Document
import Marshal.Schema.Document

/-!
# Runs of the command line tool

A run reads the imports, in the order they are given, compiles them together,
then reads and compiles the input, and gives out its plans or the code that is
generated for it. Nothing is written before all of this has succeeded.
-/

namespace Marshal

namespace Command

/-- Why a run failed. -/
inductive Failure
  /-- A file could not be read or written. -/
  | io
  /-- A file does not hold a schema. -/
  | document
  | compile (e : CompileError)
  | emit (e : Code.EmitError)
  deriving DecidableEq

/-- The wording of a failure. -/
def Failure.message : Failure → String
  | .io => "a file could not be read or written"
  | .document => "a file does not hold a schema"
  | .compile e => e.message
  | .emit e => e.message

/-- The schema in the file at a path, given how files are read. -/
def readSchema (read : String → Option String) (path : String) : Except Failure Schema :=
  match read path with
  | none => .error .io
  | some text =>
    match Schema.ofText? text with
    | none => .error .document
    | some s => .ok s

/-- The table of schemas compiled together. The first one that does not compile
    is a failure. -/
def compileImports (imports : List Schema) : Except Failure ImportTable :=
  match ImportTable.empty.compileBatch imports with
  | .error e => .error (.compile e)
  | .ok (results, table) => do
    results.forM fun r => match r.result with
      | .error e => .error (.compile e)
      | .ok _ => .ok ()
    return table

/-- The compiled schema that a command is about. -/
def load (c : Command) (read : String → Option String) : Except Failure CompiledSchema := do
  let imports ← c.imports.mapM (readSchema read)
  let table ← compileImports imports
  let schema ← readSchema read c.input
  match schema.compile table with
  | .error e => throw (.compile e)
  | .ok s => return s

/-- The events of compiling what a command is about, as far as it comes. -/
def events (c : Command) (read : String → Option String) : List Event :=
  match c.imports.mapM (readSchema read) with
  | .error _ => []
  | .ok imports =>
    ImportTable.empty.batchEvents imports ++
      match compileImports imports, readSchema read c.input with
      | .ok table, .ok schema => schema.compileEvents table
      | _, _ => []

/-- A text, and the path that it goes to, if not to the standard output. -/
structure Product where
  target : Option String
  text : String
  deriving DecidableEq

/-- The path of a file in a directory. -/
def pathIn (directory file : String) : String :=
  if directory.toList.getLast? = some '/' then directory ++ file else directory ++ "/" ++ file

/-- The directory part of a path: what stands before its last slash. -/
def parentPath (path : String) : String :=
  Text.joinWith "/" (Text.words '/' path).dropLast

/-- What a command gives out, given how files are read. -/
def product (c : Command) (read : String → Option String) : Except Failure Product := do
  let s ← c.load read
  match c.task with
  | .plan => return ⟨c.output, s.planText ++ "\n"⟩
  | .generate =>
    match Code.emit s c.options with
    | .error e => throw (.emit e)
    | .ok code => return ⟨c.output.map (pathIn · s.moduleFile), code⟩

/-- How files are read and written, for files of any kind. -/
structure Storage (σ : Type) where
  /-- The text of the file at a path. -/
  read : σ → String → Option String
  /-- Whether a text could be written at a path, and the files after that. -/
  write : σ → String → String → Bool × σ

/-- The files in a directory. A text that cannot be written leaves no traces. -/
def Storage.directory : Storage Directory where
  read := Directory.read?
  write d path text :=
    match d.write? path text with
    | none => (false, d)
    | some d => (true, d)

/-- What comes of a run. -/
structure Outcome (σ : Type) where
  /-- Zero for success, one for a failure, two for a command line refused. -/
  code : Nat
  stdout : String
  failure : Option Failure
  /-- The files after the run. -/
  files : σ
  deriving DecidableEq

/-- Runs a command line on files. -/
def runOn {σ : Type} (storage : Storage σ) (files : σ) (args : List String) : Outcome σ :=
  match parse? args with
  | none => ⟨2, "", none, files⟩
  | some c =>
    match c.product (storage.read files) with
    | .error f => ⟨1, "", some f, files⟩
    | .ok ⟨none, text⟩ => ⟨0, text, none, files⟩
    | .ok ⟨some path, text⟩ =>
      match storage.write files path text with
      | (false, files) => ⟨1, "", some .io, files⟩
      | (true, files) => ⟨0, "", none, files⟩

/-- Runs a command line in a directory. -/
def run (d : Directory) (args : List String) : Outcome Directory := runOn .directory d args

end Command

end Marshal
