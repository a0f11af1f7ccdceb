import CipherCorpus.FileTree.Error
import CipherCorpus.Json.Scan
import CipherCorpus.Path
import CipherCorpus.Text.Quoted

/-!
# Why a configuration cannot be used
-/

namespace CipherCorpus

/-- Faults of a configuration file, of an override, or of the settings themselves. -/
inductive ConfigError where
  | files (path : Path) (error : FileError)
  | yaml (path : Path)
  | json (path : Path) (fault : Json.Fault)
  /-- An environment variable that cannot be read as its setting. -/
  | badOverride (name value reason : String)
  | invalid (reason : String)
deriving DecidableEq, Repr

namespace ConfigError

def message : ConfigError → String
  | files path error => s!"Failed to read config at {path.text}: {error.message}"
  | yaml path => s!"Failed to parse config YAML at {path.text}"
  | json path _ => s!"Failed to parse config JSON at {path.text}"
  | badOverride name value reason =>
    s!"Invalid value {Text.quoted value} for {name}: {reason}"
  | invalid reason => s!"Invalid config: {reason}"

/-- The message and those of its causes. -/
def causes (e : ConfigError) : List String :=
  match e with
  | files _ error => [e.message, error.message]
  | _ => [e.message]

end ConfigError

end CipherCorpus
