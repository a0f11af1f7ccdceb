import CipherCorpus.Config.Basic
import CipherCorpus.Config.Error
import CipherCorpus.Text.Blank
import CipherCorpus.Text.Number
import CipherCorpus.Text.Pieces

/-!
# Overrides from the environment

Five settings can be overridden, each by a variable of its own. They are read in a fixed order; the
first bad value ends the reading, and the overrides before it stay.
-/

namespace CipherCorpus

/-- What the names of all override variables start with. -/
def overrideLead : String := "CRYPTO_CORPUS_"

namespace Config

/-- Changes to a configuration that may stop at a fault. -/
abbrev Overriding := ExceptT ConfigError (StateM Config)

/-- The number in a value, blanks around it aside. -/
def readNumber (name value : String) : Except ConfigError UInt64 :=
  match Text.readNat 10 (Text.trim value.toList) with
  | .ok n => .ok (UInt64.ofNat n)
  | .error fault => .error (.badOverride name value fault.message)

/-- The levels in a value, separated by commas. -/
def readLevels (name value : String) : Except ConfigError (List String) :=
  let levels := ((Text.splitOn ',' value.toList).map Text.trim).filter (· != [])
  if levels.isEmpty then
    .error (.badOverride name value "expected a comma-separated list of levels")
  else .ok (levels.map String.ofList)

/-- The value without blanks around it. -/
def readWord (_name value : String) : Except ConfigError String :=
  .ok (String.ofList (Text.trim value.toList))

/-- Read one variable, if it is there, and put its value into a setting. -/
def overrideWith {α : Type} (lookup : String → Option String) (name : String)
    (read : String → String → Except ConfigError α) (put : Config → α → Config) :
    Overriding Unit := do
  let full := overrideLead ++ name
  match lookup full with
  | none => return ()
  | some value =>
    let x ← ExceptT.mk (pure (read full value))
    modify fun c => put c x

/-- All overrides, in order. -/
def overrideAll (lookup : String → Option String) : Overriding Unit := do
  overrideWith lookup "JOBS" readNumber fun c n => { c with jobs := n }
  overrideWith lookup "COMPILER" readWord fun c s => { c with compiler := s }
  overrideWith lookup "COMPILE_TIMEOUT_SECS" readNumber fun c n => { c with compileSeconds := n }
  overrideWith lookup "SYMBOL_TIMEOUT_SECS" readNumber fun c n => { c with symbolSeconds := n }
  overrideWith lookup "OPTIMIZATION_LEVELS" readLevels fun c l => { c with levels := l }

/-- The configuration with its overrides, and the fault that ended their reading. -/
def overridden (lookup : String → Option String) (c : Config) : Except ConfigError Unit × Config :=
  (overrideAll lookup).run.run c

end Config

end CipherCorpus
