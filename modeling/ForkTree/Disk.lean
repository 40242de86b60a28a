import ForkTree.Bytes

/-!
A file tree: files and directories under a root, with a working directory for relative paths. Paths
are taken apart at slashes and walked name by name, as a POSIX system does: what a name is looked up
in must be a directory, `.` stays, `..` goes up, and a slash at the end asks for a directory.
-/

namespace ForkTree

inductive Disk.Fault where
  | notFound
  | exists
  | notDirectory
  | isDirectory
  | invalid
  | nameTooLong
  | zeroByte
  deriving DecidableEq, Repr

def Disk.Fault.message : Disk.Fault → String
  | .notFound => "No such file or directory (os error 2)"
  | .exists => "File exists (os error 17)"
  | .notDirectory => "Not a directory (os error 20)"
  | .isDirectory => "Is a directory (os error 21)"
  | .invalid => "Invalid argument (os error 22)"
  | .nameTooLong => "File name too long (os error 36)"
  | .zeroByte => "file name contained an unexpected NUL byte"

inductive Disk.Entry where
  | directory
  | file (content : Bytes)
  deriving DecidableEq, Repr

/-- Entries by their names from the root down. The root itself is a directory without an entry. -/
structure Disk where
  workDir : List String
  entries : List (List String × Disk.Entry)
  deriving Repr

namespace Disk

/-- Nothing but a working directory. -/
def empty : Disk := ⟨["work"], [(["work"], .directory)]⟩

def entry? (d : Disk) (place : List String) : Option Entry :=
  if place.isEmpty then some .directory
  else (d.entries.find? (·.1 = place)).map Prod.snd

def set (d : Disk) (place : List String) (e : Entry) : Disk :=
  { d with entries := (place, e) :: d.entries.filter (·.1 ≠ place) }

def erase (d : Disk) (place : List String) : Disk :=
  { d with entries := d.entries.filter (·.1 ≠ place) }

/-- The greatest number of bytes in a name and in a path. -/
def maxName : Nat := 255

def maxPath : Nat := 4095

/-- The names of a path, empty ones included, behind the place where the walk starts. -/
def start (d : Disk) (path : String) : Except Fault (List String × List String) :=
  if path.toList.contains '\x00' then .error .zeroByte
  else if path.isEmpty then .error .notFound
  else if maxPath < path.utf8ByteSize then .error .nameTooLong
  else .ok (if path.startsWith "/" then [] else d.workDir, path.splitOn "/")

/-- A path without a slash in front starts in the working directory. -/
theorem start_relative (d : Disk) {path : String} {names : List String}
    (haccepted : '\x00' ∉ path.toList ∧ path ≠ "" ∧ path.utf8ByteSize ≤ maxPath)
    (hrelative : path.startsWith "/" = false) (hnames : path.splitOn "/" = names) :
    d.start path = .ok (d.workDir, names) := by
  obtain ⟨hzero, hempty, hshort⟩ := haccepted
  simp [start, hzero, hempty, hshort, hrelative, hnames]

/-- Go from a place to where a name leads. -/
def step (d : Disk) (place : List String) (name : String) : Except Fault (List String) :=
  match d.entry? place with
  | none => .error .notFound
  | some (.file _) => .error .notDirectory
  | some .directory =>
    if name = "" ∨ name = "." then .ok place
    else if name = ".." then .ok place.dropLast
    else if maxName < name.utf8ByteSize then .error .nameTooLong
    else
      match d.entry? (place ++ [name]) with
      | some _ => .ok (place ++ [name])
      | none => .error .notFound

def walk (d : Disk) (place : List String) (names : List String) : Except Fault (List String) :=
  names.foldlM d.step place

/-- What is at a path. -/
def look (d : Disk) (path : String) : Except Fault (List String × Entry) := do
  let (place, names) ← d.start path
  let place ← d.walk place names
  match d.entry? place with
  | some e => return (place, e)
  | none => throw .notFound

def read (d : Disk) (path : String) : Except Fault Bytes := do
  match ← d.look path with
  | (_, .file content) => return content
  | (_, .directory) => throw .isDirectory

/-- Make a file with the given content, or replace what is in it. -/
def write (d : Disk) (path : String) (content : Bytes) : Except Fault Disk := do
  let (place, names) ← d.start path
  match (names.reverse.dropWhile (· = "")) with
  | [] => throw .isDirectory
  | name :: before =>
    let place ← d.walk place before.reverse
    match d.entry? place with
    | some .directory => pure ()
    | some (.file _) => throw .notDirectory
    | none => throw .notFound
    if names.getLast? = some "" ∨ name = "." ∨ name = ".." then throw .isDirectory
    if maxName < name.utf8ByteSize then throw .nameTooLong
    match d.entry? (place ++ [name]) with
    | some .directory => throw .isDirectory
    | _ => return d.set (place ++ [name]) (.file content)

/-- Add to the end of a file that exists. -/
def append (d : Disk) (path : String) (more : Bytes) : Except Fault Disk := do
  match ← d.look path with
  | (place, .file content) => return d.set place (.file (content ++ more))
  | (_, .directory) => throw .isDirectory

def remove (d : Disk) (path : String) : Except Fault Disk := do
  match ← d.look path with
  | (place, .file _) => return d.erase place
  | (_, .directory) => throw .isDirectory

/-- The names of a path without those at its end that stand for nothing: empty ones, and a `.` behind
others. -/
def trimNames : List String → List String
  | [] => []
  | first :: rest =>
    first :: (rest.reverse.dropWhile fun name => name = "" ∨ name = ".").reverse

/-- The path of the directory that holds what is at a path. It is empty when that is where relative
paths start, and there is none above the root. -/
def parent? (path : String) : Option String :=
  match trimNames (path.splitOn "/") with
  | [] | [""] => none
  | names =>
    match trimNames names.dropLast with
    | [""] => some "/"
    | names => some ("/".intercalate names)

/-- Go to where a name leads, making the directory if there is none. What was made stays when a later
name is refused. -/
def makeAll (d : Disk) (place : List String) : List String → Except Fault Unit × Disk
  | [] => (.ok (), d)
  | name :: rest =>
    match d.step place name with
    | .ok place =>
      match d.entry? place with
      | some .directory => makeAll d place rest
      | _ => (.error .exists, d)
    | .error .notFound => makeAll (d.set (place ++ [name]) .directory) (place ++ [name]) rest
    | .error fault => (.error fault, d)

def makeParents (d : Disk) (path : String) : Except Fault Unit × Disk :=
  match parent? path with
  | none | some "" => (.ok (), d)
  | some parent =>
    match d.start parent with
    | .ok (place, names) => makeAll d place names
    | .error fault => (.error fault, d)

end Disk

end ForkTree
