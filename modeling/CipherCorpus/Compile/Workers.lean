import CipherCorpus.Compile.Matrix

/-!
# Workers on the cells of a matrix

The cells of a matrix are built by several workers at once. Each cell is compiled, then measured, then
hashed; when its outcome is known it is counted, and then the observer is told the number that was
counted. Between two of these steps other cells may take theirs, so numbers can be told in another
order than they were counted in. A schedule is the list of cells in the order in which they take their
steps (`Pool.after`).

The outcomes are collected in the order of the cells, whatever the schedule was (`Pool.report`).
`MatrixRun` is the matrix of a library under any schedule that lets every cell come to its end.
-/

namespace CipherCorpus.Compiler

/-- How far a cell is. -/
inductive Stage where
  | waiting
  /-- The compile succeeded; the binary is still to be measured. -/
  | compiled (source : Path)
  /-- The length of the binary is known; it is still to be hashed. -/
  | measured (source : Path) (size : UInt64)
  /-- The outcome is known; the cell is still to be counted. -/
  | ended (outcome : CellResult)
  /-- The cell is one of `number` that have ended; the observer has not been told. -/
  | counted (outcome : CellResult) (number : Nat)
  | shown (outcome : CellResult)
deriving DecidableEq, Repr

/-- The outcome of a cell that is through. -/
def Stage.outcome? : Stage → Option CellResult
  | shown outcome => some outcome
  | _ => none

/-- A cell with its source file and how far it is. -/
structure Task where
  cell : Cell
  source? : Option Path
  stage : Stage

/-- The outcome of hashing a binary of known length. -/
def hashed (c : Compiler) (library : String) (cell : Cell) (source binary : Path) (size : UInt64)
    (h : Host) : CellResult :=
  match md5Of h binary with
  | .error _ => .failed
  | .ok md5 => .built {
      library := library, function := cell.function, architecture := cell.architecture,
      optimization := cell.optimization, compiler := c.options.compiler, binaryPath := binary,
      sourcePath := source, size := size, md5 := md5 }

/-- The next step of a cell on its own: none when its outcome is known or its compile is cut short. -/
def work (c : Compiler) (library : String) (outputDir : Path) (task : Task) (h : Host) :
    Option (Stage × Host) :=
  let binary := binaryPath library outputDir task.cell
  match task.stage with
  | .waiting =>
    match task.source? with
    | none => some (.ended .missingSource, h)
    | some source =>
      match (c.compileSource source binary task.cell.architecture task.cell.optimization
          c.options.compiler []).run h with
      | .ok (true, h') => some (.compiled source, h')
      | .ok (false, h') => some (.ended .failed, h')
      | .error _ => none
  | .compiled source =>
    match sizeOf? h binary with
    | none => some (.ended .failed, h)
    | some size => some (.measured source size, h)
  | .measured source size => some (.ended (c.hashed library task.cell source binary size h), h)
  | _ => none

/-- All cells of a matrix, on the machine they are built on. -/
structure Pool where
  host : Host
  /-- How many cells have been counted. -/
  completed : Nat
  tasks : List Task

namespace Pool

/-- No cell has begun. -/
def starting (h : Host) (jobs : List Job) : Pool :=
  ⟨h, 0, jobs.map fun job => ⟨job.1, job.2, .waiting⟩⟩

/-- The next step of one cell. An ended cell is counted, a counted one is shown to the observer. -/
def advance (c : Compiler) (library : String) (outputDir : Path) (s : Pool) (i : Nat) : Option Pool :=
  match s.tasks[i]? with
  | none => none
  | some task =>
    match task.stage with
    | .ended outcome =>
      some { s with
        completed := s.completed + 1
        tasks := s.tasks.set i { task with stage := .counted outcome (s.completed + 1) } }
    | .counted outcome number =>
      let notice : Progress := ⟨number, s.tasks.length⟩
      some { s with
        host := { s.host with
          trace := { s.host.trace with progress := s.host.trace.progress ++ [notice] } }
        tasks := s.tasks.set i { task with stage := .shown outcome } }
    | _ =>
      (c.work library outputDir task s.host).map fun r =>
        { s with host := r.2, tasks := s.tasks.set i { task with stage := r.1 } }

/-- What a schedule leads to: none when it gives a turn to a cell that has no next step. -/
def after (c : Compiler) (library : String) (outputDir : Path) : Pool → List Nat → Option Pool
  | s, [] => some s
  | s, i :: turns => (s.advance c library outputDir i).bind fun s' => s'.after c library outputDir turns

def isFinished (s : Pool) : Bool := s.tasks.all (·.stage.outcome?.isSome)

/-- The report on the cells that are through, in the order of the cells. -/
def report (library : String) (s : Pool) : MatrixResult :=
  s.tasks.foldl
    (fun r task =>
      match task.stage.outcome? with
      | some outcome => r.add task.cell outcome
      | none => r)
    ⟨library, .empty, s.tasks.length, 0, 0⟩

end Pool

/-- What the matrix of a library returns, and the host it leaves, when workers build its cells. -/
inductive MatrixRun (c : Compiler) (library : String) (sourceDir : Path) (functions : List String)
    (outputDir : Path) (h : Host) : Except MatrixFailure MatrixResult → Host → Prop where
  | noDirectory {e : FileError} : h.files.makeDirectories h.cwd outputDir = .error e →
      MatrixRun c library sourceDir functions outputDir h (.error (.outputDirectory outputDir e)) h
  | noWorkers {files : FileTree} : h.files.makeDirectories h.cwd outputDir = .ok files →
      h.threadLimit < c.options.jobs.toNat →
      MatrixRun c library sourceDir functions outputDir h
        (.error (.workers "Resource temporarily unavailable (os error 11)")) { h with files := files }
  | finished {files : FileTree} {turns : List Nat} {s : Pool} :
      h.files.makeDirectories h.cwd outputDir = .ok files →
      c.options.jobs.toNat ≤ h.threadLimit →
      (Pool.starting { h with files := files }
        (c.jobsFor { h with files := files } sourceDir functions)).after c library outputDir turns =
          some s →
      s.isFinished = true →
      MatrixRun c library sourceDir functions outputDir h (.ok (s.report library)) s.host

end CipherCorpus.Compiler
