import Marshal.Command.Run

/-!
# The command line tool

Reads the files that a command names, and prints or writes what it gives out.
The log and error messages go to the standard error.
-/

namespace Marshal.Command

/-- How the tool is used. -/
def usage : String :=
  "Usage: marshal [-v] plan -i <schema> [--import <schema>]... [-o <file>]\n" ++
  "       marshal [-v] gen-rust -i <schema> [--import <schema>]... [-o <directory>]\n" ++
  "                    [--runtime-crate <name>] [--serde]"

/-- The text of a file, if it can be read. -/
def readText (path : String) : IO (Option String) := do
  try
    return some (← IO.FS.readFile path)
  catch _ =>
    return none

/-- The texts of files, by their paths. -/
def readTexts (paths : List String) : IO (List (String × Option String)) :=
  paths.mapM fun path => do return (path, ← readText path)

/-- Writes a text to a file, in a directory that is made if need be. Tells
    whether this succeeded. -/
def writeText (path text : String) : IO Bool := do
  try
    let parent := parentPath path
    if parent != "" then IO.FS.createDirAll parent
    IO.FS.writeFile path text
    return true
  catch _ =>
    return false

/-- Logs the events of a command. -/
def logEvents (c : Command) (read : String → Option String) : IO Unit := do
  for e in c.events read do
    if c.verbose || e.isWarning then IO.eprintln e.line

/-- Reports a failure. -/
def report (f : Failure) : IO UInt32 := do
  IO.eprintln ("Error: " ++ f.message)
  return 1

/-- Carries out a command. -/
def execute (c : Command) : IO UInt32 := do
  let texts ← readTexts (c.imports ++ [c.input])
  let read (path : String) : Option String := (texts.lookup path).join
  logEvents c read
  match c.product read with
  | .error f => report f
  | .ok ⟨none, text⟩ => do
    IO.print text
    return 0
  | .ok ⟨some path, text⟩ => do
    if ← writeText path text then return 0 else report .io

end Marshal.Command

/-- Runs the tool. -/
def main (args : List String) : IO UInt32 :=
  match Marshal.Command.parse? args with
  | none => do
    IO.eprintln Marshal.Command.usage
    return 2
  | some c => c.execute
