import ForkTree.Storage.Basic

/-!
A storage in memory: files by their paths, which are compared as texts. Reading past the end of a
file is a fault here.
-/

namespace ForkTree.Storage

/-- Files by path, each path at most once. -/
structure Memory where
  files : List (String × Bytes)
  deriving DecidableEq, Repr

namespace Memory

def empty : Memory := ⟨[]⟩

def get? (m : Memory) (path : String) : Option Bytes := (m.files.find? (·.1 = path)).map Prod.snd

def set (m : Memory) (path : String) (content : Bytes) : Memory :=
  ⟨(path, content) :: m.files.filter (·.1 ≠ path)⟩

def erase (m : Memory) (path : String) : Memory := ⟨m.files.filter (·.1 ≠ path)⟩

@[simp]
theorem get?_set_self (m : Memory) (path : String) (content : Bytes) :
    (m.set path content).get? path = some content := by
  simp [get?, set]

def create (path : String) (m : Memory) : Except Fault Memory := .ok (m.set path [])

def append (path : String) (more : Bytes) (m : Memory) : Except Fault Memory :=
  match m.get? path with
  | some content => .ok (m.set path (content ++ more))
  | none => .error (.missing path)

def readRange (path : String) (offset len : Nat) (m : Memory) : Except Fault Bytes :=
  match m.get? path with
  | none => .error (.missing path)
  | some content =>
    if content.length < offset then .error (.pastEnd offset content.length)
    else .ok (Bytes.slice content offset len)

def size (path : String) (m : Memory) : Except Fault Nat :=
  match m.get? path with
  | some content => .ok content.length
  | none => .error (.missing path)

end Memory

/-- Files in memory as a storage. -/
def memory : Storage Memory where
  create path m := settle m (Memory.create path m)
  append path more m := settle m (Memory.append path more m)
  readRange := Memory.readRange
  size := Memory.size
  delete path m := (.ok (), m.erase path)

end ForkTree.Storage
