import ForkTree.Disk
import ForkTree.Text.Decimal

/-!
Where logs are kept: files that can be created, extended, read in part, measured and deleted. A
storage is given by its operations on a state, so that the writer and the reader of logs work on any
of them, one that fails on a schedule included.
-/

namespace ForkTree

/-- The step of a file operation at which the system refused. -/
inductive Storage.Action where
  | open | size | create | makeParent | delete | read | seek
  deriving DecidableEq, Repr

namespace Storage.Action

def word : Action → String
  | .open => "open"
  | .size => "size"
  | .create => "create"
  | .makeParent => "mkparent"
  | .delete => "delete"
  | .read => "read"
  | .seek => "seek"

/-- Whether the report names the file. -/
def namesPath : Action → Bool
  | .open | .size | .create => true
  | _ => false

end Storage.Action

inductive Storage.Fault where
  | missing (path : String)
  | pastEnd (offset size : Nat)
  | system (action : Storage.Action) (path : String) (cause : Disk.Fault)
  deriving DecidableEq, Repr

def Storage.Fault.message : Storage.Fault → String
  | .missing path => "path not found: " ++ path
  | .pastEnd offset size =>
    "offset " ++ Text.decimal offset ++ " exceeds size " ++ Text.decimal size
  | .system action path cause =>
    let subject := if action.namesPath then " " ++ path else ""
    action.word ++ subject ++ ": " ++ cause.message

/-- The operations of a storage whose state is of type `σ`. -/
structure Storage (σ : Type) where
  /-- Make an empty file, or empty the one that is there. -/
  create : String → σ → Except Storage.Fault Unit × σ
  /-- Add to the end of a file. -/
  append : String → Bytes → σ → Except Storage.Fault Unit × σ
  /-- The bytes from an offset on, at most the given number. -/
  readRange : String → (offset len : Nat) → σ → Except Storage.Fault Bytes
  size : String → σ → Except Storage.Fault Nat
  /-- Remove a file; it is no fault if there is none. -/
  delete : String → σ → Except Storage.Fault Unit × σ

namespace Storage

/-- The outcome of a change that either happens or leaves the state as it was. -/
def settle {σ : Type} (s : σ) : Except Fault σ → Except Fault Unit × σ
  | .ok s => (.ok (), s)
  | .error fault => (.error fault, s)

end Storage

end ForkTree
