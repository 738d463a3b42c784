/-
  Reading the configuration from a TOML document.  A document may be malformed, which includes settings of a wrong type,
  or it may be read and then rejected.
-/
import CodeAtlas.Json.Config
import CodeAtlas.Toml.Parser

namespace CodeAtlas

/-- Why a document gives no configuration. -/
inductive DocumentError where
  | malformed
  | rejected (f : Failure)
  deriving DecidableEq, Repr

/-- The configuration in a document. -/
def Config.ofDocument (document : String) : Except DocumentError Config :=
  match (Toml.parse? document).bind Config.ofJson? with
  | none => .error .malformed
  | some config =>
    match config.validate with
    | .ok config => .ok config
    | .error f => .error (.rejected f)

end CodeAtlas
