import ForkTree.Ident
import ForkTree.Log.Codec
import ForkTree.Storage.Basic

/-!
What can be wrong with a log, or with the storage it is on.
-/

namespace ForkTree.Log

inductive Corruption where
  | shortHeader
  | foreignHeader
  | oversized (stored raw limit : Nat)
  | differingLengths
  | truncatedHeader (offset : Nat)
  | truncatedSegment (offset : Nat)
  | foreignBatch (seq : Nat) (run expected : RunId)
  | misplacedBatch (expected found : Nat)
  deriving DecidableEq, Repr

def Corruption.message : Corruption → String
  | .shortHeader => "short segment header"
  | .foreignHeader => "bad magic/version"
  | .oversized stored raw limit =>
    "segment payload " ++ Text.decimal stored ++ "/" ++ Text.decimal raw ++ " exceeds max " ++
      Text.decimal limit
  | .differingLengths => "uncompressed segment with differing lengths"
  | .truncatedHeader offset => "truncated header at offset " ++ Text.decimal offset
  | .truncatedSegment offset => "truncated segment at offset " ++ Text.decimal offset
  | .foreignBatch seq run expected =>
    "batch " ++ Text.decimal seq ++ " belongs to run " ++ run.shown ++ ", expected " ++ expected.shown
  | .misplacedBatch expected found =>
    "expected batch " ++ Text.decimal expected ++ ", found " ++ Text.decimal found

inductive Error where
  | storage (fault : Storage.Fault)
  /-- A codec that cannot be used, or none of the known ones. -/
  | unsupported (codec : Option Codec)
  /-- A payload that is no batch in JSON. -/
  | malformed
  | checksumMismatch (offset : Nat)
  | corrupt (c : Corruption)
  deriving DecidableEq, Repr

def Error.message : Error → String
  | .storage fault => "log storage error: " ++ fault.message
  | .unsupported (some codec) => "unsupported codec: " ++ codec.name
  | .unsupported none => "unsupported codec: unknown"
  | .malformed => "codec error: json deserialize"
  | .checksumMismatch offset => "checksum mismatch in segment at offset " ++ Text.decimal offset
  | .corrupt c => "corrupt log: " ++ c.message

/-- A codec's refusal as an error of the log. -/
def liftCodec {α : Type} : Except Codec α → Except Error α
  | .ok a => .ok a
  | .error codec => .error (.unsupported (some codec))

/-- A storage's fault as an error of the log. -/
def liftStorage {α : Type} : Except Storage.Fault α → Except Error α
  | .ok a => .ok a
  | .error fault => .error (.storage fault)

end ForkTree.Log
