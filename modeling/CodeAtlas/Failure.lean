/-
  What can go wrong, as causes.  Each cause has a stable code and a message; some concern one file only and are then
  recorded against that file while the work on the others goes on.
-/
import CodeAtlas.Text.Split
import CodeAtlas.Number.Double

namespace CodeAtlas

/-- A duration as a decimal number of the largest unit that it reaches, without trailing zeros. -/
def durationText (nanos : Nat) : String :=
  let write (unit places : Nat) (suffix : String) : String :=
    let digits := Text.dropEndWhile (· == '0') (paddedDigits places (nanos % unit)).toList
    toString (nanos / unit) ++ (if digits.isEmpty then "" else "." ++ String.ofList digits) ++ suffix
  if 1000000000 ≤ nanos then write 1000000000 9 "s"
  else if 1000000 ≤ nanos then write 1000000 6 "ms"
  else if 1000 ≤ nanos then write 1000 3 "µs"
  else toString nanos ++ "ns"

/-- A cause of failure. -/
inductive Failure where
  | unsupportedLanguage (path detail : String)
  | parseFailure (path reason : String)
  | unknownStrategy (name : String)
  | batchTimeout (batch elapsedNanos : Nat)
  | workerFailed (worker : Nat) (message : String)
  | invalidConfig (message : String)
  | unreadable (path reason : String)
  | other (message : String)
  deriving DecidableEq, Repr, Inhabited

namespace Failure

/-- The stable code of a failure. -/
def code : Failure → String
  | .unsupportedLanguage .. => "CKG-LANG-001"
  | .parseFailure .. => "CKG-PARSE-001"
  | .unknownStrategy .. => "CKG-CHUNK-001"
  | .batchTimeout .. => "CKG-SCAN-001"
  | .workerFailed .. => "CKG-SCAN-002"
  | .invalidConfig .. => "CKG-CFG-001"
  | .unreadable .. => "CKG-IO-001"
  | .other .. => "CKG-SCAN-003"

/-- The message of a failure. -/
def message : Failure → String
  | .unsupportedLanguage path detail => "unsupported language for " ++ path ++ ": " ++ detail
  | .parseFailure path reason => "failed to parse " ++ path ++ ": " ++ reason
  | .unknownStrategy name => "unknown chunk strategy '" ++ name ++ "'"
  | .batchTimeout batch nanos => "batch " ++ toString batch ++ " timed out after " ++ durationText nanos
  | .workerFailed worker message => "worker " ++ toString worker ++ " failed: " ++ message
  | .invalidConfig message => "invalid configuration: " ++ message
  | .unreadable path reason => "I/O error on " ++ path ++ ": " ++ reason
  | .other message => message

/-- The file that a failure concerns. -/
def path? : Failure → Option String
  | .unsupportedLanguage path _ | .parseFailure path _ | .unreadable path _ => some path
  | _ => none

/-- Whether a failure concerns one file only. -/
def isFileScoped : Failure → Bool
  | .unsupportedLanguage .. | .parseFailure .. | .unreadable .. | .other .. => true
  | _ => false

/-- What a code stands for. -/
def describe? : String → Option String
  | "CKG-LANG-001" => some "unsupported language"
  | "CKG-PARSE-001" => some "parse failure"
  | "CKG-PARSE-002" => some "invalid encoding"
  | "CKG-CHUNK-001" => some "unknown chunk strategy"
  | "CKG-CHUNK-002" => some "chunk build failed"
  | "CKG-SCAN-001" => some "batch timeout"
  | "CKG-SCAN-002" => some "worker error"
  | "CKG-SCAN-003" => some "file failed in scanner"
  | "CKG-CFG-001" => some "invalid configuration"
  | "CKG-IO-001" => some "read failed"
  | _ => none

/-- A file that does not exist. -/
def notFound (path : String) : Failure :=
  .unreadable path "No such file or directory (os error 2)"

/-- A file whose bytes are no text from the given offset on. -/
def notText (path : String) (offset : Nat) : Failure :=
  .parseFailure path ("invalid UTF-8 at byte " ++ toString offset)

end Failure

/-- A failure recorded against a file. -/
structure FileError where
  path : String
  code : String
  message : String
  deriving DecidableEq, Repr, Inhabited

namespace FileError

/-- A failure recorded against a given path. -/
def atPath (path : String) (f : Failure) : FileError :=
  ⟨path, f.code, f.message⟩

/-- A failure recorded against the path it carries, or against none. -/
def of (f : Failure) : FileError :=
  .atPath (f.path?.getD "") f

end FileError

end CodeAtlas
