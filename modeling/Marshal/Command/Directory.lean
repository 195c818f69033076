import Marshal.Text.Words

/-!
# Files in a directory

The files below a working directory, by the names on the way to them. The
directories are those that files stand in. Paths are read from the working
directory on: a dot stands for the directory itself and two dots for the one
above it, and a slash at the end asks for a directory. What lies outside the
working directory cannot be reached, and neither can what has too long a name
or a path (`nameLimit`, `pathLimit`).

* `read?`: the text of the file at a path;
* `write?`: the files after a text is written at a path. Directories on the way
  to it are made as needed.
-/

namespace Marshal

open Text

/-- The way to a file or a directory, name by name. -/
abbrev Location := List String

/-- The files below a working directory. -/
structure Directory where
  files : List (Location × String)
  deriving DecidableEq

namespace Directory

/-- The text of the file at a location. -/
def file? (d : Directory) (l : Location) : Option String :=
  (d.files.find? (·.1 = l)).map (·.2)

/-- Whether there is a directory at a location. -/
def isDirectory (d : Directory) (l : Location) : Bool :=
  l = [] || d.files.any fun (file, _) => l.isPrefixOf file && l != file

/-- Follows the parts of a path from a location on. A part leads on only from
    where `enters` holds. -/
def follow (enters : Location → Bool) : Location → List String → Option Location
  | l, [] => some l
  | l, part :: parts =>
    if !enters l then none
    else if part = "" || part = "." then follow enters l parts
    else if part = ".." then
      if l = [] then none else follow enters l.dropLast parts
    else follow enters (l ++ [part]) parts

/-- How many bytes a name can have. -/
def nameLimit : Nat := 255

/-- How many bytes a path can have. -/
def pathLimit : Nat := 4095

/-- The parts of a path, if it is one from the working directory on that keeps
    to the limits. -/
def parts? (path : String) : Option (List String) :=
  match words '/' path with
  | "" :: _ => none
  | parts =>
    if path.utf8ByteSize ≤ pathLimit ∧ ∀ part ∈ parts, part.utf8ByteSize ≤ nameLimit then
      some parts
    else none

/-- The files of these paths. Paths that lead outside are left out. -/
def ofFiles (files : List (String × String)) : Directory where
  files := files.filterMap fun (path, text) => do
    let l ← parts? path >>= follow (fun _ => true) []
    return (l, text)

/-- The text of the file at a path. -/
def read? (d : Directory) (path : String) : Option String :=
  parts? path >>= follow d.isDirectory [] >>= d.file?

/-- Puts a text at a location. -/
def put (d : Directory) (l : Location) (text : String) : Directory where
  files := d.files.filter (·.1 != l) ++ [(l, text)]

/-- Writes a text to a path. This fails where the path is one of a directory,
    leads through a file or exceeds a limit. -/
def write? (d : Directory) (path text : String) : Option Directory := do
  let parts ← parts? path
  let name ← parts.getLast?
  if name = "" || name = "." || name = ".." then none
  else
    let parent ← follow (fun l => (d.file? l).isNone) [] parts.dropLast
    if (d.file? parent).isSome || d.isDirectory (parent ++ [name]) then none
    else return d.put (parent ++ [name]) text

/-- The files that stand where none stood before, with their paths. -/
def newFiles (before after : Directory) : List (String × String) :=
  (after.files.filter fun (l, _) => (before.file? l).isNone).map fun (l, text) =>
    (joinWith "/" l, text)

end Directory

end Marshal
