import ForkTree.Json.Decode
import ForkTree.Text.Blank
import ForkTree.Text.Decimal

/-!
How a tree is to be kept: whether nodes with a single child are elided, whether a log is written and
where, and how it is batched and compressed. A configuration comes from environment variables over
the defaults, or from JSON. `Config.check` refuses what a tree cannot honour.
-/

namespace ForkTree

/-- The path of `file` inside the directory `dir`; an absolute `file` stands for itself. -/
def joinPath (dir file : String) : String :=
  if file.startsWith "/" || dir.isEmpty then file
  else if dir.endsWith "/" then dir ++ file
  else dir ++ "/" ++ file

structure Config where
  /-- Elide nodes that are left with a single child. -/
  compress : Bool
  /-- Keep a log of every fork and every end of a path. -/
  persist : Bool
  outputDir : String
  logFile : String
  snapshotFile : String
  /-- The number of records at which a batch is written. -/
  batchSize : Nat
  /-- The name of the log's codec. -/
  compression : String
  /-- Stream each changed snapshot. -/
  stream : Bool
  deriving DecidableEq, Repr

namespace Config

def default : Config where
  compress := false
  persist := false
  outputDir := "klee-out"
  logFile := "exec_tree.log"
  snapshotFile := "exec_tree.json"
  batchSize := 1000
  compression := "none"
  stream := false

instance : Inhabited Config := ⟨default⟩

/-- A switch, with blanks around it and in either case. -/
def switch? (s : String) : Option Bool :=
  let word := (Text.trim s).toLower
  if word ∈ ["1", "true", "yes", "on"] then some true
  else if word ∈ ["0", "false", "no", "off"] then some false
  else none

/-- A number below 2 ^ 64 in decimal digits, which a plus sign may precede. -/
def count? (s : String) : Option Nat :=
  let digits := match s.toList with
    | '+' :: rest => rest
    | cs => cs
  if digits.isEmpty || !digits.all Char.isDigit then none
  else
    let n := Text.decimalValue digits
    if n < UInt64.size then some n else none

def lookedUp : List String :=
  ["EXTREE_COMPRESS_TREE", "EXTREE_PERSIST_TREE", "EXTREE_OUTPUT_DIR", "EXTREE_LOG_BATCH_SIZE",
    "EXTREE_LOG_COMPRESSION", "EXTREE_STREAM_SNAPSHOTS"]

/-- The defaults changed by the variables that `lookup` finds. A value that cannot be read leaves the
default. -/
def ofEnvironment (lookup : String → Option String) : Config where
  compress := ((lookup "EXTREE_COMPRESS_TREE").bind switch?).getD default.compress
  persist := ((lookup "EXTREE_PERSIST_TREE").bind switch?).getD default.persist
  outputDir := (lookup "EXTREE_OUTPUT_DIR").getD default.outputDir
  logFile := default.logFile
  snapshotFile := default.snapshotFile
  batchSize := ((lookup "EXTREE_LOG_BATCH_SIZE").bind count?).getD default.batchSize
  compression := ((lookup "EXTREE_LOG_COMPRESSION").map fun s => (Text.trim s).toLower).getD
    default.compression
  stream := ((lookup "EXTREE_STREAM_SNAPSHOTS").bind switch?).getD default.stream

def fields : List Json.Field :=
  ["compress_tree", "persist_tree", "output_dir", "log_file_name", "snapshot_file_name",
    "log_batch_size", "log_compression", "stream_snapshots"].map Json.required

def ofJson? (j : Json) : Option Config := do
  match ← j.fields? fields with
  | [compress, persist, outputDir, logFile, snapshotFile, batchSize, compression, stream] =>
    return {
      compress := ← compress.toBool?
      persist := ← persist.toBool?
      outputDir := ← outputDir.toText?
      logFile := ← logFile.toText?
      snapshotFile := ← snapshotFile.toText?
      batchSize := ← batchSize.toNat? UInt64.size
      compression := ← compression.toText?
      stream := ← stream.toBool? }
  | _ => none

def toJson (c : Config) : Json :=
  .object [("compress_tree", .bool c.compress), ("persist_tree", .bool c.persist),
    ("output_dir", .text c.outputDir), ("log_file_name", .text c.logFile),
    ("snapshot_file_name", .text c.snapshotFile), ("log_batch_size", .nat c.batchSize),
    ("log_compression", .text c.compression), ("stream_snapshots", .bool c.stream)]

inductive Refusal where
  | missingOutputDir
  | emptyBatch
  | unknownCompression (name : String)
  deriving DecidableEq, Repr

def Refusal.message : Refusal → String
  | .missingOutputDir => "Invalid configuration: persist_tree requires an output directory"
  | .emptyBatch => "Invalid configuration: log_batch_size must be at least 1"
  | .unknownCompression name => "Invalid configuration: unknown log compression '" ++ name ++ "'"

def check (c : Config) : Except Refusal Unit :=
  if c.persist && Text.isBlankText c.outputDir then .error .missingOutputDir
  else if c.batchSize = 0 then .error .emptyBatch
  else if c.compression ∈ ["none", "zstd", "lz4"] then .ok ()
  else .error (.unknownCompression c.compression)

def logPath (c : Config) : String := joinPath c.outputDir c.logFile

def snapshotPath (c : Config) : String := joinPath c.outputDir c.snapshotFile

end Config

end ForkTree
