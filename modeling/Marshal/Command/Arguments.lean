import Marshal.Code.Emit

/-!
# Command lines

A command line names a task and the options of it:

* `plan` prints the plans and mappings of a schema;
* `gen-rust` generates code for it.

A value of an option is the next argument, or follows an equals sign. It starts
with a dash in the second case only. Options of one letter can stand together
after one dash, the last of them with its value. Each option is given once at
most, save for the imports. A command line that breaks these rules is refused.

Help is left out. A request for it (`-h`, `--help`, or `help` in place of a
task) would be answered by a text on the standard output and the exit code 0.
Here these are an option and a task that are not known, and so the request is
refused like any other such command line, with exit code 2.
-/

namespace Marshal

namespace Command

open Text

/-- What is to be done. -/
inductive Task
  | plan
  | generate
  deriving DecidableEq

/-- The task of a name. -/
def Task.ofName? : String → Option Task
  | "plan" => some .plan
  | "gen-rust" => some .generate
  | _ => none

/-- An option that stands by itself. -/
inductive Flag
  | verbose
  | serde
  deriving DecidableEq

/-- An option with a value. -/
inductive Setting
  | input
  | imports
  | output
  | runtimeCrate
  deriving DecidableEq

/-- An option. -/
inductive Switch
  | flag (f : Flag)
  | setting (s : Setting)
  deriving DecidableEq

/-- The option of a name after two dashes. -/
def Task.long? (t : Task) : String → Option Switch
  | "verbose" => some (.flag .verbose)
  | "input" => some (.setting .input)
  | "import" => some (.setting .imports)
  | "output" => some (.setting .output)
  | "runtime-crate" => if t = .generate then some (.setting .runtimeCrate) else none
  | "serde" => if t = .generate then some (.flag .serde) else none
  | _ => none

/-- The option of a letter after one dash. -/
def short? : Char → Option Switch
  | 'v' => some (.flag .verbose)
  | 'i' => some (.setting .input)
  | 'o' => some (.setting .output)
  | _ => none

/-- What has been given of the options of a task. -/
structure Given where
  flags : List Flag := []
  input : Option String := none
  imports : List String := []
  output : Option String := none
  runtimeCrate : Option String := none
  deriving DecidableEq

namespace Given

/-- Gives a flag, once at most. -/
def giveFlag (g : Given) (f : Flag) : Option Given :=
  if f ∈ g.flags then none else some { g with flags := f :: g.flags }

/-- Gives a value, once at most save for an import. A path is not empty. -/
def giveValue (g : Given) (s : Setting) (value : String) : Option Given :=
  match s with
  | .input => if g.input.isSome || value = "" then none else some { g with input := some value }
  | .imports => if value = "" then none else some { g with imports := g.imports ++ [value] }
  | .output => if g.output.isSome || value = "" then none else some { g with output := some value }
  | .runtimeCrate =>
    if g.runtimeCrate.isSome then none else some { g with runtimeCrate := some value }

end Given

/-- What the next argument is taken for. -/
inductive Expected
  | switch
  /-- The value of an option given before. -/
  | value (s : Setting)
  /-- Nothing: two dashes have ended the options. -/
  | nothing
  deriving DecidableEq

/-- Goes through letters after one dash. -/
def takeLetters (g : Given) : List Char → Option (Expected × Given)
  | [] => some (.switch, g)
  | c :: cs =>
    match short? c with
    | none => none
    | some (.flag f) => do takeLetters (← g.giveFlag f) cs
    | some (.setting s) =>
      match cs with
      | [] => some (.value s, g)
      | '=' :: value => (g.giveValue s (String.ofList value)).map (.switch, ·)
      | value => (g.giveValue s (String.ofList value)).map (.switch, ·)

/-- Takes what stands after two dashes. -/
def takeLong (t : Task) (g : Given) (arg : List Char) : Option (Expected × Given) :=
  let name := String.ofList (arg.takeWhile (· != '='))
  match t.long? name, arg.dropWhile (· != '=') with
  | some (.flag f), [] => (g.giveFlag f).map (.switch, ·)
  | some (.setting s), [] => some (.value s, g)
  | some (.setting s), _ :: value => (g.giveValue s (String.ofList value)).map (.switch, ·)
  | _, _ => none

/-- Takes the next argument of a task. -/
def takeArgument (t : Task) : Expected × Given → String → Option (Expected × Given)
  | (.nothing, _), _ => none
  | (.value s, g), arg =>
    match arg.toList with
    | '-' :: _ :: _ => none
    | _ => (g.giveValue s arg).map (.switch, ·)
  | (.switch, g), arg =>
    match arg.toList with
    | ['-', '-'] => some (.nothing, g)
    | '-' :: '-' :: long => takeLong t g long
    | '-' :: c :: letters => takeLetters g (c :: letters)
    | _ => none

end Command

/-- A task with all that it needs to know. -/
structure Command where
  task : Command.Task
  /-- The path of the schema to compile. -/
  input : String
  /-- The paths of the schemas that it may import. -/
  imports : List String
  /-- Where the result goes, if not to the standard output. -/
  output : Option String
  options : Code.Options
  /-- Whether all events are logged. -/
  verbose : Bool
  deriving DecidableEq

namespace Command

/-- The command of a task and its arguments. -/
def ofTask? (t : Task) (args : List String) : Option Command := do
  let (expected, g) ← args.foldlM (takeArgument t) (.switch, {})
  match expected with
  | .value _ => none
  | _ =>
    return {
      task := t
      input := ← g.input
      imports := g.imports
      output := g.output
      options :=
        { runtimeCrate := g.runtimeCrate.getD Code.defaultCrate, serde := g.flags.contains .serde }
      verbose := g.flags.contains .verbose }

/-- The command whose arguments start with the name of its task. -/
def named? : List String → Option Command
  | [] => none
  | name :: args => do ofTask? (← Task.ofName? name) args

/-- The command of a command line. -/
def parse? : List String → Option Command
  | "-v" :: args | "--verbose" :: args => (named? args).map ({ · with verbose := true })
  | args => named? args

end Command

end Marshal
