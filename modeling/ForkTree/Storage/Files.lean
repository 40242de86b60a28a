import ForkTree.Storage.Basic

/-!
A storage on a file tree. Creating a file makes the directories above it. Reading past the end of a
file gives nothing and is no fault.
-/

namespace ForkTree.Storage

namespace Files

def directorySize : Nat := 4096

/-- The greatest size that a file can have; behind a file's end no offset beyond it can be sought to. -/
def maxSize : Nat := 0xffffffff000

/-- The first offset that cannot be sought to in a directory. -/
def offsetLimit : Nat := 0x8000000000000000

def refuse {α : Type} (action : Action) (path : String) : Except Disk.Fault α → Except Fault α
  | .ok a => .ok a
  | .error cause => .error (.system action path cause)

def create (path : String) (d : Disk) : Except Fault Unit × Disk :=
  match d.makeParents path with
  | (.error cause, d) => (.error (.system .makeParent path cause), d)
  | (.ok _, d) => settle d (refuse .create path (d.write path []))

def append (path : String) (more : Bytes) (d : Disk) : Except Fault Disk :=
  refuse .open path (d.append path more)

def readRange (path : String) (offset len : Nat) (d : Disk) : Except Fault Bytes :=
  match d.look path with
  | .error cause => .error (.system .open path cause)
  | .ok (_, .file content) =>
    if max content.length maxSize < offset then .error (.system .seek path .invalid)
    else .ok (Bytes.slice content offset len)
  | .ok (_, .directory) =>
    if offsetLimit ≤ offset then .error (.system .seek path .invalid)
    else if len = 0 then .ok []
    else .error (.system .read path .isDirectory)

def size (path : String) (d : Disk) : Except Fault Nat :=
  match d.look path with
  | .ok (_, .file content) => .ok content.length
  | .ok (_, .directory) => .ok directorySize
  | .error cause => .error (.system .size path cause)

def delete (path : String) (d : Disk) : Except Fault Disk :=
  match d.look path with
  | .ok _ => refuse .delete path (d.remove path)
  | .error _ => .ok d

end Files

/-- A file tree as a storage. -/
def files : Storage Disk where
  create := Files.create
  append path more d := settle d (Files.append path more d)
  readRange := Files.readRange
  size := Files.size
  delete path d := settle d (Files.delete path d)

end ForkTree.Storage
