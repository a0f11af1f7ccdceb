import CipherCorpus.Compile.Command
import CipherCorpus.Compile.Level
import CipherCorpus.Compile.Options
import CipherCorpus.Digest.Md5
import CipherCorpus.Manifest
import CipherCorpus.Process.Basic
import CipherCorpus.Sources.Search

/-!
# The build matrix

Every available architecture, level and function of a library makes a cell. Repeated levels and
functions count once. A cell without a source file is skipped; any other is compiled, measured and
hashed, and a fault in one of these steps fails the cell alone. The report counts every cell once.
-/

namespace CipherCorpus

/-- What compiles: the architectures, how tools are run, and the options. -/
structure Compiler where
  registry : Registry
  runner : Runner
  options : CompileSettings

/-- A cell and the source file of its function, if there is one. -/
abbrev Job := Cell × Option Path

/-- How one cell ended. -/
inductive CellResult where
  | built (a : Artifact)
  | failed
  | missingSource
deriving DecidableEq, Repr

/-- The outcome of the matrix of one library. -/
structure MatrixResult where
  library : String
  units : OrderedMap Cell Artifact
  /-- All cells, with or without a source. -/
  attempted : Nat
  /-- Cells that were not compiled, measured or hashed. -/
  failed : Nat
  missingSource : Nat
deriving Inhabited

def MatrixResult.succeeded (r : MatrixResult) : Nat := r.units.size

/-- Count one outcome. -/
def MatrixResult.add (r : MatrixResult) (cell : Cell) : CellResult → MatrixResult
  | .built a => { r with units := r.units.insert cell a }
  | .failed => { r with failed := r.failed + 1 }
  | .missingSource => { r with missingSource := r.missingSource + 1 }

/-- Why a matrix does not start. -/
inductive MatrixFailure where
  | outputDirectory (path : Path) (error : FileError)
  | workers (reason : String)
deriving DecidableEq, Repr

def MatrixFailure.message : MatrixFailure → String
  | outputDirectory path error =>
    s!"Failed to create output directory {path.text}: {error.message}"
  | workers reason => s!"Failed to start compile workers: {reason}"

namespace Compiler

/-- Run one compile and tell whether it succeeded. An architecture that is not available is refused
before anything is started. -/
def compileSource (c : Compiler) (source output : Path) (architecture level compiler : String)
    (extra : List String) : Action Bool := do
  match c.registry.find? architecture with
  | none => return false
  | some profile =>
    let (program, arguments) := commandFor profile level compiler source output extra
    match ← c.runner.noting ⟨program, arguments, c.options.limit⟩ with
    | .ok output => return output.success
    | .error _ => return false

/-- Each entry once, where it comes first. -/
def distinct (items : List String) : List String :=
  items.foldl (fun seen s => if seen.contains s then seen else seen ++ [s]) []

/-- The cells of a matrix, function by function within level within architecture. -/
def cells (architectures levels functions : List String) : List Cell :=
  architectures.flatMap fun a => levels.flatMap fun o => functions.map fun f => ⟨a, o, f⟩

/-- The cells that a matrix run enumerates. -/
def cellsFor (c : Compiler) (functions : List String) : List Cell :=
  cells c.registry.ids (distinct c.options.levels) (distinct functions)

/-- The cells of a matrix with their sources, as they are looked up before the first compile. -/
def jobsFor (c : Compiler) (h : Host) (sourceDir : Path) (functions : List String) : List Job :=
  (c.cellsFor functions).map fun cell =>
    (cell, Sources.find? h.files h.cwd sourceDir cell.function)

/-- Length in bytes of what a path names. -/
def sizeOf? (h : Host) (p : Path) : Option UInt64 :=
  match h.files.stat h.cwd p with
  | .ok (_, .file body _) => some (UInt64.ofNat body.data.length)
  | .ok (_, _) => some 4096
  | .error _ => none

/-- MD5 of a file in hexadecimal. -/
def md5Of (h : Host) (p : Path) : Except FileError String := (h.read p).map Digest.Md5.text

/-- The artifact of a compiled cell, when its file can be measured and hashed. -/
def measure (c : Compiler) (library : String) (cell : Cell) (source binary : Path) :
    Action CellResult := do
  match ← inspect (sizeOf? · binary) with
  | none => return .failed
  | some size =>
    match ← inspect (md5Of · binary) with
    | .error _ => return .failed
    | .ok md5 =>
      return .built {
        library := library, function := cell.function, architecture := cell.architecture,
        optimization := cell.optimization, compiler := c.options.compiler, binaryPath := binary,
        sourcePath := source, size := size, md5 := md5 }

def binaryPath (library : String) (outputDir : Path) (cell : Cell) : Path :=
  outputDir.child (Level.binaryName library cell.function cell.architecture cell.optimization)

/-- Compile, measure and hash one cell. -/
def runCell (c : Compiler) (library : String) (outputDir : Path) (cell : Cell)
    (source? : Option Path) : Action CellResult := do
  match source? with
  | none => return .missingSource
  | some source =>
    let binary := binaryPath library outputDir cell
    if ← c.compileSource source binary cell.architecture cell.optimization c.options.compiler [] then
      c.measure library cell source binary
    else return .failed

/-- Tell the observer that one more cell is finished. -/
def finishCell (total completed : Nat) : Action Unit :=
  modify fun h =>
    { h with trace := { h.trace with progress := h.trace.progress ++ [⟨completed, total⟩] } }

/-- Build cells one after the other, as a single worker does; `done` of `total` are finished. -/
def buildCells (c : Compiler) (library : String) (outputDir : Path) (total : Nat) :
    Nat → MatrixResult → List (Cell × Option Path) → Action MatrixResult
  | _, report, [] => return report
  | done, report, (cell, source?) :: rest => do
    let outcome ← c.runCell library outputDir cell source?
    finishCell total (done + 1)
    c.buildCells library outputDir total (done + 1) (report.add cell outcome) rest

/-- Compile every cell of a library. Of the orders in which workers may build the cells this is the one
of a single worker; what holds of every order is said of `MatrixRun`. -/
def runMatrix (c : Compiler) (library : String) (sourceDir : Path) (functions : List String)
    (outputDir : Path) : Attempt MatrixFailure MatrixResult := do
  (change fun t cwd => t.makeDirectories cwd outputDir).inWords (.outputDirectory outputDir)
  let functions := distinct functions
  let levels := distinct c.options.levels
  let sources ← inspect fun h =>
    functions.map fun f => (f, Sources.find? h.files h.cwd sourceDir f)
  let cells := cells c.registry.ids levels functions
  if (← get).threadLimit < c.options.jobs.toNat then
    throw (.workers "Resource temporarily unavailable (os error 11)")
  let report : MatrixResult := ⟨library, .empty, cells.length, 0, 0⟩
  .ofAction (c.buildCells library outputDir cells.length 0 report
    (cells.map fun cell => (cell, (sources.lookup cell.function).join)))

end Compiler

end CipherCorpus
