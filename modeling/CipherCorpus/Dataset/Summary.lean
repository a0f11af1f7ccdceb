import CipherCorpus.Compile.Matrix
import CipherCorpus.Json.Value
import CipherCorpus.Store.Run
import CipherCorpus.Total

/-!
# Summaries of a build

One summary for each library of the configuration, in its order, and their totals. The record of a run
is computed from the summary: it succeeded when every library was built and no cell failed, it failed
when no library was built.
-/

namespace CipherCorpus.Dataset

/-- What became of a library. -/
inductive LibraryOutcome where
  | built
  /-- The matrix ran, but no cell gave a binary. -/
  | nothingBuilt
  | sourceUnavailable (reason : String)
  | matrixFailed (reason : String)
deriving DecidableEq, Repr

/-- Counts of one library. -/
structure LibraryReport where
  name : String
  status : LibraryOutcome
  functions : Nat
  attempted : Nat
  succeeded : Nat
  failed : Nat
  missingSource : Nat
deriving DecidableEq, Repr

/-- A library of which no cell was attempted. -/
def LibraryReport.withoutBinaries (name : String) (functions : Nat) (status : LibraryOutcome) :
    LibraryReport :=
  ⟨name, status, functions, 0, 0, 0, 0⟩

/-- A library whose matrix ran. -/
def LibraryReport.ofReport (name : String) (functions : Nat) (r : MatrixResult) : LibraryReport :=
  ⟨name, if 0 < r.succeeded then .built else .nothingBuilt, functions, r.attempted, r.succeeded,
    r.failed, r.missingSource⟩

/-- The summary of a whole build. -/
structure Summary where
  startedAt : String
  finishedAt : String
  architectures : List String
  libraries : List LibraryReport
  manifestPath : Path
deriving DecidableEq, Repr

namespace Summary

def attempted (s : Summary) : Nat := total (s.libraries.map (·.attempted))

def succeeded (s : Summary) : Nat := total (s.libraries.map (·.succeeded))

/-- Failed cells and those without a source. -/
def failed (s : Summary) : Nat := total (s.libraries.map fun l => l.failed + l.missingSource)

def builtLibraries (s : Summary) : Nat := s.libraries.countP (·.status = .built)

def status (s : Summary) : RunStatus :=
  if s.builtLibraries = 0 then .failed
  else if s.builtLibraries = s.libraries.length ∧ s.failed = 0 then .succeeded
  else .partly

/-- The record of the run. -/
def run (s : Summary) (configHash : Option String) : BuildRun where
  configHash := configHash
  status := s.status
  attempted := UInt64.ofNat s.attempted
  succeeded := UInt64.ofNat s.succeeded
  failed := UInt64.ofNat s.failed
  builtLibraries := UInt64.ofNat s.builtLibraries
  startedAt := s.startedAt
  finishedAt := s.finishedAt

end Summary

/-- The record of a run in which no library was built. -/
def failedRun (configHash : Option String) (startedAt finishedAt : String) : BuildRun :=
  ⟨configHash, .failed, 0, 0, 0, 0, startedAt, finishedAt⟩

/-! ## As JSON -/

def LibraryOutcome.toJson : LibraryOutcome → Json.Value
  | built => .record [("status", .text "built")]
  | nothingBuilt => .record [("status", .text "nothing_built")]
  | sourceUnavailable reason =>
    .record [("status", .text "source_unavailable"), ("reason", .text reason)]
  | matrixFailed reason => .record [("status", .text "matrix_failed"), ("reason", .text reason)]

def LibraryReport.toJson (l : LibraryReport) : Json.Value :=
  .record [("name", .text l.name), ("status", l.status.toJson), ("functions", .count l.functions),
    ("attempted", .count l.attempted), ("succeeded", .count l.succeeded), ("failed", .count l.failed),
    ("skipped_missing_source", .count l.missingSource)]

def Summary.toJson (s : Summary) : Json.Value :=
  .record [("started_at", .text s.startedAt), ("finished_at", .text s.finishedAt),
    ("architectures", .list (s.architectures.map .text)),
    ("libraries", .list (s.libraries.map LibraryReport.toJson)),
    ("metadata_path", .text s.manifestPath.text)]

end CipherCorpus.Dataset
