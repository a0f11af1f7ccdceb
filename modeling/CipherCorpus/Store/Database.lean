import CipherCorpus.Store.Row

/-!
# The corpus database

A database is its schema version and up to two tables. Opening one brings its schema up to date
(`Database.migrate`); changes to the labeled functions run as a transaction, a list of statements of
which either all take effect or none (`Database.transact`).
-/

namespace CipherCorpus.Store

/-- What the storage engine reports. -/
inductive Fault where
  | noTable (name : String)
  | notADatabase
  | duplicateFunction
  | cannotOpen (path : Path)
  /-- A stored word that names nothing. -/
  | badWord
  | sumTooLarge
  /-- No id is left for a new row. -/
  | full
  /-- A statement that fails for a reason outside the data. -/
  | refused (text : String)
deriving DecidableEq, Repr

def Fault.message : Fault → String
  | noTable name => s!"no such table: {name}"
  | notADatabase => "file is not a database"
  | duplicateFunction =>
    "UNIQUE constraint failed: labeled_functions.binary_path, labeled_functions.address, " ++
      "labeled_functions.name"
  | cannotOpen path => s!"unable to open database file: {path.text}"
  | badWord => "Query is not read-only"
  | sumTooLarge => "integer overflow"
  | full => "database or disk is full"
  | refused text => text

/-- The newest schema that this library knows, and the oldest. -/
def currentVersion : Int32 := 2

def oldestVersion : Int32 := 0

/-- Why a database operation fails. -/
inductive DatabaseError where
  | unsupportedVersion (found : Int32)
  | engine (fault : Fault)
deriving DecidableEq, Repr

def DatabaseError.message : DatabaseError → String
  | unsupportedVersion found =>
    s!"Unsupported schema version {found}; supported range is " ++
      s!"{oldestVersion}..={currentVersion}"
  | engine fault => fault.message

/-- A schema version and the tables there are. -/
structure Database where
  version : Int32
  runs : Option (List RunRow)
  functions : Option (List FunctionRow)
deriving DecidableEq, Repr

namespace Database

/-- A new file. -/
def fresh : Database := ⟨0, none, none⟩

/-- Bring the schema up to date; a version from the future is refused. -/
def migrate (db : Database) : Except DatabaseError Database :=
  if currentVersion < db.version then .error (.unsupportedVersion db.version)
  else
    let withRuns :=
      if db.version = 0 then { db with runs := some (db.runs.getD []), version := 1 } else db
    if withRuns.version < 2 then
      .ok { withRuns with functions := some (withRuns.functions.getD []), version := 2 }
    else .ok withRuns

/-- The rows of the runs table. -/
def runRows (db : Database) : Except Fault (List RunRow) :=
  match db.runs with
  | some rows => .ok rows
  | none => .error (.noTable "build_runs")

/-- The rows of the functions table. -/
def functionRows (db : Database) : Except Fault (List FunctionRow) :=
  match db.functions with
  | some rows => .ok rows
  | none => .error (.noTable "labeled_functions")

/-- The id after the last one; none after the largest id. -/
def nextRunId? (rows : List RunRow) : Option Int64 :=
  match rows.getLast? with
  | some r => if r.id < Int64.maxValue then some (r.id + 1) else none
  | none => some 1

def insertRunRow (row : Int64 → RunRow) (db : Database) : Except Fault (Int64 × Database) := do
  let rows ← db.runRows
  match nextRunId? rows with
  | some id => return (id, { db with runs := some (rows ++ [row id]) })
  | none => throw .full

/-- Append a run; its id is one more than the last. -/
def insertRun (run : BuildRun) (db : Database) : Except Fault (Int64 × Database) :=
  db.insertRunRow fun id => .ofRun id run

/-- The runs, oldest first. -/
def listRuns (db : Database) : Except Fault (List BuildRun) := do
  let rows ← db.runRows
  rows.mapM fun r => match r.toRun? with
    | some run => .ok run
    | none => .error .badWord

/-! ## Labeled functions -/

/-- One statement on the functions table. -/
inductive Statement where
  /-- Drop the rows of one binary. -/
  | delete (binaryPath : String)
  /-- Check that rows can be inserted. -/
  | prepare
  /-- Insert a row in place of one with the same identity. -/
  | insert (row : FunctionRow)
  /-- Make the changes last. -/
  | commit
deriving DecidableEq, Repr

/-- Put a row in place of the one with its identity. -/
def replaceRow (rows : List FunctionRow) (row : FunctionRow) : List FunctionRow :=
  rows.filter (·.identity != row.identity) ++ [row]

/-- Effect of a statement on the rows and the number of rows it counts. -/
def Statement.apply (rows : List FunctionRow) : Statement → List FunctionRow × Nat
  | .delete path => (rows.filter (·.binaryPath != path), 0)
  | .prepare => (rows, 0)
  | .insert row => (replaceRow rows row, 1)
  | .commit => (rows, 0)

/-- Run statements in order on working rows; `refused` says which statement the engine fails. -/
def runStatements (refused : Nat → Option Fault) :
    Nat → List FunctionRow → Nat → List Statement → Except Fault (List FunctionRow × Nat)
  | _, rows, count, [] => .ok (rows, count)
  | i, rows, count, s :: rest =>
    match refused i with
    | some fault => .error fault
    | none =>
      let after := s.apply rows
      runStatements refused (i + 1) after.1 (count + after.2) rest

/-- All statements take effect, or the database stays as it was. -/
def transact (refused : Nat → Option Fault) (statements : List Statement) (db : Database) :
    Except Fault Nat × Database :=
  match db.functionRows with
  | .error fault => (.error fault, db)
  | .ok rows =>
    match runStatements refused 0 rows 0 statements with
    | .ok (rows, count) => (.ok count, { db with functions := some rows })
    | .error fault => (.error fault, db)

/-- No statement is refused. -/
def noRefusal : Nat → Option Fault := fun _ => none

def insertStatements (functions : List LabeledFunction) : List Statement :=
  .prepare :: functions.map (fun f => .insert (.ofLabeled f)) ++ [.commit]

/-- Store functions; the answer counts the insertions. -/
def insertFunctions (functions : List LabeledFunction) (db : Database) :
    Except Fault Nat × Database :=
  db.transact noRefusal (insertStatements functions)

def replaceStatements (binaries : List Path) (functions : List LabeledFunction) :
    List Statement :=
  binaries.map (fun b => .delete b.text) ++ insertStatements functions

/-- Drop what is stored for `binaries` and store `functions` instead. -/
def replaceFunctions (binaries : List Path) (functions : List LabeledFunction) (db : Database) :
    Except Fault Nat × Database :=
  db.transact noRefusal (replaceStatements binaries functions)

/-- Drop the rows of one binary; the answer counts them. -/
def dropBinary (binary : Path) (db : Database) : Except Fault (Nat × Database) := do
  let rows ← db.functionRows
  let kept := rows.filter (·.binaryPath != binary.text)
  return (rows.length - kept.length, { db with functions := some kept })

/-- Insert a row as it is; its identity must be new. -/
def insertFunctionRow (row : FunctionRow) (db : Database) : Except Fault Database := do
  let rows ← db.functionRows
  if rows.any (·.identity == row.identity) then throw .duplicateFunction
  return { db with functions := some (rows ++ [row]) }

/-- The stored functions in listing order, all or those of one binary. -/
def listFunctions (binary : Option Path) (db : Database) : Except Fault (List LabeledFunction) := do
  let rows ← db.functionRows
  let chosen : List FunctionRow := match binary with
    | some b => rows.filter (·.binaryPath == b.text)
    | none => rows
  (chosen.mergeSort FunctionRow.upTo).mapM fun r => match r.toLabeled? with
    | some f => .ok f
    | none => .error .badWord

/-- Sum of a column; it has to fit at every step. -/
def sumColumn (values : List Int64) : Except Fault Int64 :=
  values.foldlM (fun (sum : Int64) v =>
    let exact := sum.toInt + v.toInt
    if exact < Int64.minValue.toInt ∨ Int64.maxValue.toInt < exact then .error .sumTooLarge
    else .ok (sum + v)) 0

/-- The distinct texts of a list in ascending order. -/
def distinctSorted (texts : List String) : List String :=
  (texts.mergeSort fun a b => decide (a ≤ b)).eraseReps

/-- Totals over the stored functions. -/
def stats (db : Database) : Except Fault CorpusCounts := do
  let rows ← db.functionRows
  let crypto ← sumColumn (rows.map (·.isCrypto))
  let algorithms := rows.map (·.algorithm)
  return {
    functions := rows.length.toUInt64
    cryptoFunctions := crypto.toUInt64
    binaries := (distinctSorted (rows.map (·.binaryPath))).length.toUInt64
    byAlgorithm := (distinctSorted algorithms).map fun a => (a, (algorithms.count a).toUInt64) }

end Database

end CipherCorpus.Store
