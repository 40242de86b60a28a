import ForkTree.Json.Decode

/-!
Why a path forked and why it ended. Both are numbered, and the numbers and names are part of what is
recorded, so the order of the constructors is fixed.
-/

namespace ForkTree

/-- Why a path forked. -/
inductive BranchReason where
  | none | conditional | indirect | switch | call | memOp | resolvePointer | alloc | realloc | free
  | getVal
  deriving DecidableEq, Repr, Inhabited

namespace BranchReason

/-- Every reason with its name, in the order of their numbers. -/
def table : List (BranchReason × String) :=
  [(none, "None"), (conditional, "Conditional"), (indirect, "Indirect"), (switch, "Switch"),
    (call, "Call"), (memOp, "MemOp"), (resolvePointer, "ResolvePointer"), (alloc, "Alloc"),
    (realloc, "Realloc"), (free, "Free"), (getVal, "GetVal")]

def name : BranchReason → String
  | none => "None"
  | conditional => "Conditional"
  | indirect => "Indirect"
  | switch => "Switch"
  | call => "Call"
  | memOp => "MemOp"
  | resolvePointer => "ResolvePointer"
  | alloc => "Alloc"
  | realloc => "Realloc"
  | free => "Free"
  | getVal => "GetVal"

def toByte (r : BranchReason) : UInt8 := UInt8.ofNat r.ctorIdx

def ofByte? (b : UInt8) : Option BranchReason := table[b.toNat]?.map Prod.fst

def ofName? (s : String) : Option BranchReason := (table.find? (·.2 = s)).map Prod.fst

def toJson (r : BranchReason) : Json := .text r.name

theorem ofByte?_toByte (r : BranchReason) : ofByte? r.toByte = some r := by cases r <;> rfl

theorem ofName?_name (r : BranchReason) : ofName? r.name = some r := by cases r <;> rfl

end BranchReason

/-- Why a path ended; `running` while it has not. -/
inductive TerminationKind where
  | running | exit | maxDepth | outOfMemory | outOfStackMemory | solver
  | abort | assert | badVectorAccess | free | model | overflow | ptr | readOnly | reportError
  | invalidBuiltin | implicitBuiltinReturn | unhandledInstruction | unsupported | user
  | interrupted | replay | silent
  deriving DecidableEq, Repr, Inhabited

namespace TerminationKind

/-- Every kind with its name, in the order of their numbers. -/
def table : List (TerminationKind × String) :=
  [(running, "Running"), (exit, "Exit"), (maxDepth, "MaxDepth"), (outOfMemory, "OutOfMemory"),
    (outOfStackMemory, "OutOfStackMemory"), (solver, "Solver"), (abort, "Abort"),
    (assert, "Assert"), (badVectorAccess, "BadVectorAccess"), (free, "Free"), (model, "Model"),
    (overflow, "Overflow"), (ptr, "Ptr"), (readOnly, "ReadOnly"), (reportError, "ReportError"),
    (invalidBuiltin, "InvalidBuiltin"), (implicitBuiltinReturn, "ImplicitBuiltinReturn"),
    (unhandledInstruction, "UnhandledInstruction"), (unsupported, "Unsupported"), (user, "User"),
    (interrupted, "Interrupted"), (replay, "Replay"), (silent, "Silent")]

def name : TerminationKind → String
  | running => "Running"
  | exit => "Exit"
  | maxDepth => "MaxDepth"
  | outOfMemory => "OutOfMemory"
  | outOfStackMemory => "OutOfStackMemory"
  | solver => "Solver"
  | abort => "Abort"
  | assert => "Assert"
  | badVectorAccess => "BadVectorAccess"
  | free => "Free"
  | model => "Model"
  | overflow => "Overflow"
  | ptr => "Ptr"
  | readOnly => "ReadOnly"
  | reportError => "ReportError"
  | invalidBuiltin => "InvalidBuiltin"
  | implicitBuiltinReturn => "ImplicitBuiltinReturn"
  | unhandledInstruction => "UnhandledInstruction"
  | unsupported => "Unsupported"
  | user => "User"
  | interrupted => "Interrupted"
  | replay => "Replay"
  | silent => "Silent"

def toByte (k : TerminationKind) : UInt8 := UInt8.ofNat k.ctorIdx

def ofByte? (b : UInt8) : Option TerminationKind := table[b.toNat]?.map Prod.fst

def ofName? (s : String) : Option TerminationKind := (table.find? (·.2 = s)).map Prod.fst

def toJson (k : TerminationKind) : Json := .text k.name

/-- The path ended at a fault of the program that was explored. -/
def isError : TerminationKind → Bool
  | abort | assert | badVectorAccess | free | model | overflow | ptr | readOnly | reportError
  | invalidBuiltin | implicitBuiltinReturn | unhandledInstruction | unsupported | user => true
  | _ => false

theorem ofByte?_toByte (k : TerminationKind) : ofByte? k.toByte = some k := by cases k <;> rfl

theorem ofName?_name (k : TerminationKind) : ofName? k.name = some k := by cases k <;> rfl

end TerminationKind

end ForkTree
