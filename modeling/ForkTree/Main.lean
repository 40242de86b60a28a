import ForkTree.Command.Run
import ForkTree.Digest.Blake3

/-!
The command line program. It loads what the system has at the paths that a request is about into a
file tree, carries the request out there, writes the file that came out of it, and prints.
-/

namespace ForkTree.Main

open Command

/-- The paths that a request reads or writes. -/
def pathsOf (e : Surroundings) : Request → List String
  | .replay log _ | .verify log => (logPath log (config e)).toOption.toList
  | .constraints _ => []
  | .merge base incoming out => [base, incoming, out]

/-- The path that a request writes. -/
def target? : Request → Option String
  | .merge _ _ out => some out
  | _ => none

/-- A path and every path above it, from the top down. -/
def prefixes (path : String) : List String :=
  let names := path.splitOn "/"
  ((List.range names.length).map fun n => "/".intercalate (names.take (n + 1))).filter
    fun part => part ≠ ""

/-- The system's error number, as far as the file tree knows it. -/
def faultOf : IO.Error → Disk.Fault
  | .noFileOrDirectory .. => .notFound
  | .inappropriateType _ code _ => if code = 20 then .notDirectory else .isDirectory
  | .invalidArgument _ code _ => if code = 36 then .nameTooLong else .invalid
  | _ => .invalid

def readFile (path : String) : IO (Except Disk.Fault Bytes) := do
  try
    return .ok (← IO.FS.readBinFile path).data.toList
  catch e =>
    return .error (faultOf e)

/-- Put what the system has at a path into the file tree, whose directories above are there. -/
def loadPath (d : Disk) (path : String) : IO Disk := do
  match ← readFile path with
  | .ok content => return (d.write path content).toOption.getD d
  | .error .isDirectory => return (d.makeParents (path ++ "/x")).2
  | .error _ => return d

partial def readAll (s : IO.FS.Stream) (held : ByteArray) : IO ByteArray := do
  let more ← s.read 65536
  if more.isEmpty then return held else readAll s (held ++ more)

def surroundings (args : List String) : IO Surroundings := do
  let environment ← Config.lookedUp.filterMapM fun name => do
    return (← IO.getEnv name).map (name, ·)
  let bare : Surroundings := ⟨environment, [], .empty⟩
  match Request.ofArgs? args with
  | .error _ => return bare
  | .ok request =>
    let stdin ← if request = .constraints [] then readAll (← IO.getStdin) .empty else pure .empty
    let disk ← ((pathsOf bare request).flatMap prefixes).foldlM loadPath Disk.empty
    return ⟨environment, stdin.data.toList, disk⟩

/-- Write the file of a request that succeeded. -/
def save (args : List String) (o : Outcome) : IO (Except Complaint Unit) := do
  match (Request.ofArgs? args).toOption.bind target? with
  | some path =>
    match o.disk.read path with
    | .ok content =>
      try
        IO.FS.writeBinFile path ⟨content.toArray⟩
        return .ok ()
      catch e =>
        return .error (.disk (faultOf e))
    | .error _ => return .ok ()
  | none => return .ok ()

/-- Carry the request out, save what came out of it, and print. -/
def runProgram (args : List String) : IO UInt32 := do
  let o := Command.run Digest.Blake3.digest (← surroundings args) args
  let saved ← if o.status = 0 then save args o else pure (.ok ())
  match saved with
  | .ok _ =>
    IO.print o.stdout
    IO.eprint o.stderr
    return UInt32.ofNat o.status
  | .error complaint =>
    IO.eprint (complaintText complaint)
    return 1

end ForkTree.Main

def main (args : List String) : IO UInt32 := ForkTree.Main.runProgram args
