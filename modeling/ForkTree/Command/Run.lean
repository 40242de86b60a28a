import ForkTree.Command.Request
import ForkTree.Config
import ForkTree.Constraint.Infix
import ForkTree.Log.Reader
import ForkTree.Replay.Render
import ForkTree.Snapshot.Json
import ForkTree.Storage.Files

/-!
Carrying a request out on a file tree. A request ends with the text to print and the file tree as it
is afterwards, or with a complaint.
-/

namespace ForkTree.Command

/-- What keeps a request from being carried out. -/
inductive Complaint where
  | configuration (refusal : Config.Refusal)
  | log (error : Log.Error)
  | replay (fault : Replay.Fault)
  | disk (fault : Disk.Fault)
  /-- A text that is no UTF-8. -/
  | encoding
  /-- A file that is no snapshot in JSON. -/
  | malformed
  deriving DecidableEq, Repr

def Complaint.message : Complaint → String
  | .configuration refusal => refusal.message
  | .log error => error.message
  | .replay fault => fault.message
  | .disk fault => fault.message
  | .encoding => "stream did not contain valid UTF-8"
  | .malformed => "json"

structure Surroundings where
  /-- The environment variables with their values. -/
  environment : List (String × String)
  stdin : Bytes
  disk : Disk

def liftLog {α : Type} : Except Log.Error α → Except Complaint α
  | .ok a => .ok a
  | .error e => .error (.log e)

def liftReplay {α : Type} : Except Replay.Fault α → Except Complaint α
  | .ok a => .ok a
  | .error fault => .error (.replay fault)

def liftDisk {α : Type} : Except Disk.Fault α → Except Complaint α
  | .ok a => .ok a
  | .error fault => .error (.disk fault)

/-- The path of the log: the one given, or that of a configuration that is accepted. -/
def logPath (given : Option String) (config : Config) : Except Complaint String :=
  match given with
  | some path => .ok path
  | none =>
    match config.check with
    | .ok _ => .ok config.logPath
    | .error refusal => .error (.configuration refusal)

def config (e : Surroundings) : Config :=
  Config.ofEnvironment fun name => (e.environment.find? (·.1 = name)).map Prod.snd

/-- The contents of a log and the tree that its records build. -/
def load (hash : Digest.Hash) (e : Surroundings) (given : Option String) :
    Except Complaint (Log.Contents × Replay.Tree) := do
  let path ← logPath given (config e)
  let contents ← liftLog (Log.read hash Storage.files e.disk path)
  let tree ← liftReplay (Replay.Tree.ofRecords? contents.records)
  return (contents, tree)

def Format.render (t : Replay.Tree) : Format → String
  | .graph => t.graph
  | .nested => t.nested.pretty ++ "\n"
  | .summary => t.stats.summary

/-- What there is to say about a sound log. -/
def verdict (c : Log.Contents) : String :=
  let run := match c.run with
    | some run => run.shown
    | none => "-"
  "✓ " ++ Text.decimal c.batches ++ " batches, " ++ Text.decimal c.records.length ++
    " records (run " ++ run ++ ")\n"

/-- The lines of a text, without their ends; a carriage return belongs to the end of a line. -/
def lines (s : String) : List String :=
  let parts := s.splitOn "\n"
  let ended := parts.dropLast.map fun line =>
    if line.endsWith "\r" then String.ofList line.toList.dropLast else line
  match parts.getLast? with
  | some "" | none => ended
  | some last => ended ++ [last]

/-- Constraints in infix form, one a line. -/
def showConstraints (texts : List String) : String :=
  String.join (texts.map fun s => Constraint.toInfix (Constraint.normalize s) ++ "\n")

def toText (b : Bytes) : Except Complaint String :=
  match Bytes.toText? b with
  | some s => .ok s
  | none => .error .encoding

def loadSnapshot (d : Disk) (path : String) : Except Complaint Snapshot := do
  let text ← toText (← liftDisk (d.read path))
  match Snapshot.ofText? text with
  | some s => return s
  | none => throw .malformed

/-- Merge two snapshot files into a third; the number of records in it. -/
def merge (d : Disk) (base incoming out : String) : Except Complaint (Nat × Disk) := do
  let first ← loadSnapshot d base
  let second ← loadSnapshot d incoming
  let merged := (first.merge second).1
  let d ← liftDisk (d.write out (Bytes.ofText merged.pretty))
  return (merged.size, d)

def usage : String :=
  "usage: extree replay [--log FILE] [--format dot|json|summary]\n" ++
    "       extree verify [--log FILE]\n" ++
    "       extree infix [EXPRESSION...]\n" ++
    "       extree merge --base FILE --incoming FILE --out FILE\n"

/-- The text to print and the file tree after a request. -/
def answer (hash : Digest.Hash) (e : Surroundings) :
    Request → Except Complaint (String × Disk)
  | .replay log format => do
    let (_, tree) ← load hash e log
    return (format.render tree, e.disk)
  | .verify log => do
    let (contents, _) ← load hash e log
    return (verdict contents, e.disk)
  | .constraints [] => do
    return (showConstraints (lines (← toText e.stdin)), e.disk)
  | .constraints texts => return (showConstraints texts, e.disk)
  | .merge base incoming out => do
    let (n, disk) ← merge e.disk base incoming out
    return ("✓ " ++ Text.decimal n ++ " records written to " ++ out ++ "\n", disk)

/-- What a run of the program leaves behind. -/
structure Outcome where
  status : Nat
  stdout : String
  stderr : String
  disk : Disk

def complaintText (complaint : Complaint) : String := "Error: " ++ complaint.message ++ "\n"

/-- Run the program. A command line that cannot be read ends with status 2, a complaint with 1. -/
def run (hash : Digest.Hash) (e : Surroundings) (args : List String) : Outcome :=
  match Request.ofArgs? args with
  | .error .help => ⟨0, usage, "", e.disk⟩
  | .error .misuse => ⟨2, "", usage, e.disk⟩
  | .ok request =>
    match answer hash e request with
    | .ok (text, disk) => ⟨0, text, "", disk⟩
    | .error complaint => ⟨1, "", complaintText complaint, e.disk⟩

end ForkTree.Command
