import CipherCorpus.Label
import CipherCorpus.Store.Run

/-!
# Stored rows

Columns hold signed 64-bit integers, so addresses and sizes are stored by their bit pattern:
`FunctionRow.toLabeled?_ofLabeled` says that a stored function reads back unchanged for every
address and size.
-/

namespace CipherCorpus.Store

/-- A build run as stored. -/
structure RunRow where
  id : Int64
  configHash : Option String
  status : String
  attempted : Int64
  succeeded : Int64
  failed : Int64
  builtLibraries : Int64
  startedAt : String
  finishedAt : String
deriving DecidableEq, Repr

/-- A labeled function as stored. -/
structure FunctionRow where
  binaryPath : String
  address : Int64
  size : Option Int64
  name : String
  evidence : String
  algorithm : String
  library : Option String
  architecture : Option String
  optimization : Option String
  functionName : Option String
  isCrypto : Int64
deriving DecidableEq, Repr

def RunRow.ofRun (id : Int64) (r : BuildRun) : RunRow where
  id := id
  configHash := r.configHash
  status := r.status.name
  attempted := r.attempted.toInt64
  succeeded := r.succeeded.toInt64
  failed := r.failed.toInt64
  builtLibraries := r.builtLibraries.toInt64
  startedAt := r.startedAt
  finishedAt := r.finishedAt

/-- The record in a row; none when the status is no status. -/
def RunRow.toRun? (r : RunRow) : Option BuildRun :=
  (RunStatus.ofAnyCase? r.status).map fun status =>
    { configHash := r.configHash, status := status, attempted := r.attempted.toUInt64,
      succeeded := r.succeeded.toUInt64, failed := r.failed.toUInt64,
      builtLibraries := r.builtLibraries.toUInt64, startedAt := r.startedAt,
      finishedAt := r.finishedAt }

theorem RunRow.toRun?_ofRun (id : Int64) (r : BuildRun) : (ofRun id r).toRun? = some r := by
  obtain ⟨hash, status, attempted, succeeded, failed, built, started, finished⟩ := r
  simp [ofRun, toRun?, RunStatus.ofAnyCase?_name]

def FunctionRow.ofLabeled (f : LabeledFunction) : FunctionRow where
  binaryPath := f.function.binaryPath.text
  address := f.function.address.toInt64
  size := f.function.size.map (·.toInt64)
  name := f.function.name
  evidence := f.function.evidence.name
  algorithm := f.label.algorithm
  library := f.label.library
  architecture := f.label.architecture
  optimization := f.label.optimization
  functionName := f.label.functionName
  isCrypto := if f.label.isCrypto then 1 else 0

/-- The function in a row; none when the evidence is of no known kind. -/
def FunctionRow.toLabeled? (r : FunctionRow) : Option LabeledFunction :=
  (Evidence.ofName? r.evidence).map fun evidence =>
    { function :=
        { binaryPath := ⟨r.binaryPath⟩, address := r.address.toUInt64,
          size := r.size.map (·.toUInt64), name := r.name, evidence := evidence }
      label :=
        { algorithm := r.algorithm, library := r.library, architecture := r.architecture,
          optimization := r.optimization, functionName := r.functionName,
          isCrypto := r.isCrypto != 0 } }

theorem FunctionRow.toLabeled?_ofLabeled (f : LabeledFunction) :
    (ofLabeled f).toLabeled? = some f := by
  obtain ⟨⟨path, address, size, name, evidence⟩, ⟨algorithm, library, arch, opt, fn, crypto⟩⟩ := f
  cases size <;> cases crypto <;>
    simp [ofLabeled, toLabeled?, Evidence.ofName?_name]

/-- What a row is unique by. -/
def FunctionRow.identity (r : FunctionRow) : String × Int64 × String :=
  (r.binaryPath, r.address, r.name)

/-- Rows are listed by path, then signed address, then name. -/
def FunctionRow.upTo (a b : FunctionRow) : Bool :=
  decide (a.binaryPath < b.binaryPath) ||
  (a.binaryPath == b.binaryPath &&
    (decide (a.address < b.address) ||
    (a.address == b.address && decide (a.name ≤ b.name))))

end CipherCorpus.Store
