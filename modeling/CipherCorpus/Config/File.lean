import CipherCorpus.Config.Override
import CipherCorpus.Config.Validate
import CipherCorpus.Config.Yaml
import CipherCorpus.Host
import CipherCorpus.Json.Records

/-!
# Configuration files

A file whose name ends in `.json` holds JSON, any other YAML.
-/

namespace CipherCorpus.Config

/-- The configuration in the bytes of a file. -/
def ofFileBytes (p : Path) (data : List UInt8) : Except ConfigError Config :=
  if p.extension? = some "json" then
    match Json.Document.read Config (Json.Input.ofBytes data) with
    | .ok c => .ok c
    | .error fault => .error (.json p fault)
  else
    match (Yaml.Document.ofBytes? data).bind ofYaml? with
    | some c => .ok c
    | none => .error (.yaml p)

/-- The configuration in a file, without overrides. -/
def ofFile (h : Host) (p : Path) : Except ConfigError Config :=
  match h.read p with
  | .error e => .error (.files p e)
  | .ok data => ofFileBytes p data

/-- The configuration in a file with the overrides of the environment, checked. -/
def load (h : Host) (p : Path) : Except ConfigError Config := do
  let c ← ofFile h p
  match c.overridden h.environmentValue? with
  | (.error e, _) => throw e
  | (.ok (), c) =>
    c.validate
    return c

end CipherCorpus.Config
