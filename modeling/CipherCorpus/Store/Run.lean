import CipherCorpus.Text.Lowercase

/-!
# Build runs

One record for every dataset build: how it ended, how many cells it tried, and when.
-/

namespace CipherCorpus

/-- How a build ended. -/
inductive RunStatus where
  /-- Every attempted cell gave an artifact. -/
  | succeeded
  /-- Some library was built, but a cell or a library failed. -/
  | partly
  /-- No library gave an artifact. -/
  | failed
deriving DecidableEq, Repr, Inhabited

namespace RunStatus

def name : RunStatus → String
  | succeeded => "succeeded"
  | partly => "partial"
  | failed => "failed"

def ofName? (s : String) : Option RunStatus :=
  if s = "succeeded" then some succeeded
  else if s = "partial" then some partly
  else if s = "failed" then some failed
  else none

/-- The status of a name in any case. -/
def ofAnyCase? (s : String) : Option RunStatus := ofName? (String.ofList (Text.lower s.toList))

theorem ofAnyCase?_name (s : RunStatus) : ofAnyCase? s.name = some s := by
  cases s <;> decide +kernel

end RunStatus

/-- The record of one build. -/
structure BuildRun where
  /-- SHA-256 of the configuration file, when there was one. -/
  configHash : Option String
  status : RunStatus
  attempted : UInt64
  succeeded : UInt64
  failed : UInt64
  builtLibraries : UInt64
  startedAt : String
  finishedAt : String
deriving DecidableEq, Repr

/-- Totals over the stored functions. -/
structure CorpusCounts where
  functions : UInt64
  cryptoFunctions : UInt64
  binaries : UInt64
  /-- Algorithm and number of functions, by name. -/
  byAlgorithm : List (String × UInt64)
deriving DecidableEq, Repr

end CipherCorpus
