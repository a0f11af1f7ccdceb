import CipherCorpus.Proofs.Compile.Cells
import CipherCorpus.Proofs.Host
import CipherCorpus.Proofs.OrderedMap

/-!
# Accounting of a matrix run

One compile is one call of the runner, noted when it has answered (`runs_compileSource`).  One cell ends
in exactly one of three ways (`runCell_fits`), and the report counts it once (`Counts.add`).  By
induction along the cells the report of a whole run accounts for each of them, whatever the compiler did
(`buildCells_counts`):

    succeeded + failed + missingSource = number of cells

A runner that always answers keeps the run going to its end (`buildCells_ends`).
-/

namespace CipherCorpus

/-- The runner gives an output or an error for every call, and leaves the trace to its caller. -/
def Runner.Answers (run : Runner) : Prop :=
  ∀ call h, ∃ output h', Runs (run call) h output h' ∧ h'.trace = h.trace

/-- The path after the last `-o` of a command line. -/
def Invocation.output (call : Invocation) : Path :=
  ⟨(call.arguments.reverse.takeWhile (· != "-o")).getLastD ""⟩

/-- A compiler that writes the same bytes to every output. -/
def Runner.writing (data : List UInt8) : Runner := fun call => do
  modify fun h =>
    match h.files.writeBytes h.cwd call.output data with
    | .ok files => { h with files := files }
    | .error _ => h
  return .ok ⟨true, some 0, "", ""⟩

theorem Runner.writing_answers (data : List UInt8) : (writing data).Answers := by
  intro call h
  refine ⟨_, _, runs_bind.mpr ⟨⟨⟩, _, runs_modify.mpr rfl, runs_pure.mpr ⟨rfl, rfl⟩⟩, ?_⟩
  split
  · rfl
  · rfl

namespace Compiler

variable {c : Compiler} {library : String} {outputDir : Path}

/-- `a` describes `cell` as this compiler builds it for `library`. -/
structure Describes (c : Compiler) (library : String) (cell : Cell) (a : Artifact) : Prop where
  cell : a.cell = cell
  library : a.library = library
  compiler : a.compiler = c.options.compiler

/-- `outcome` is one that a job can have. -/
def Fits (c : Compiler) (library : String) (job : Job) : CellResult → Prop
  | .built a => job.2.isSome ∧ c.Describes library job.1 a
  | .failed => job.2.isSome
  | .missingSource => job.2.isNone

/-- `call` asks for the binary of one cell, compiled from `source`. -/
structure Asks (c : Compiler) (library : String) (outputDir : Path) (cell : Cell) (source : Path)
    (call : Invocation) : Prop where
  command : ∃ profile ∈ c.registry.available, profile.id = cell.architecture ∧
    (call.program, call.arguments) = commandFor profile cell.optimization c.options.compiler source
      (binaryPath library outputDir cell) []
  limit : call.limit = c.options.limit

/-! ## One cell -/

/-- The artifact of a cell whose binary was measured and hashed. -/
def artifactOf (c : Compiler) (library : String) (cell : Cell) (source binary : Path) (size : UInt64)
    (md5 : String) : Artifact where
  library := library
  function := cell.function
  architecture := cell.architecture
  optimization := cell.optimization
  compiler := c.options.compiler
  binaryPath := binary
  sourcePath := source
  size := size
  md5 := md5

section
variable (c : Compiler) (library : String) (cell : Cell) (source binary : Path) (size : UInt64)
  (md5 : String)

@[simp] theorem artifactOf_library :
    (c.artifactOf library cell source binary size md5).library = library := rfl

@[simp] theorem artifactOf_cell : (c.artifactOf library cell source binary size md5).cell = cell := rfl

@[simp] theorem artifactOf_binaryPath :
    (c.artifactOf library cell source binary size md5).binaryPath = binary := rfl

@[simp] theorem artifactOf_size :
    (c.artifactOf library cell source binary size md5).size = size := rfl

@[simp] theorem artifactOf_md5 : (c.artifactOf library cell source binary size md5).md5 = md5 := rfl

end

/-- A binary that can be measured and hashed makes an artifact, and the host stays as it is. -/
theorem runs_measure {cell : Cell} {source binary : Path} {h h' : Host} {outcome : CellResult} :
    Runs (c.measure library cell source binary) h outcome h' ↔ h' = h ∧ outcome =
      match sizeOf? h binary, md5Of h binary with
      | some size, .ok md5 => .built (c.artifactOf library cell source binary size md5)
      | _, _ => .failed := by
  unfold measure
  rw [runs_bind]
  simp only [runs_inspect]
  constructor
  · rintro ⟨size?, h1, ⟨rfl, rfl⟩, hr⟩
    cases hs : sizeOf? h1 binary with
    | none =>
      rw [hs] at hr
      exact (runs_pure.mp hr).symm
    | some size =>
      rw [hs] at hr
      obtain ⟨md5?, h2, hm, hr⟩ := runs_bind.mp hr
      obtain ⟨rfl, rfl⟩ := runs_inspect.mp hm
      cases hm : md5Of h2 binary with
      | error e =>
        rw [hm] at hr
        exact (runs_pure.mp hr).symm
      | ok md5 =>
        rw [hm] at hr
        exact (runs_pure.mp hr).symm
  · rintro ⟨rfl, rfl⟩
    refine ⟨_, h', ⟨rfl, rfl⟩, ?_⟩
    cases sizeOf? h' binary with
    | none => exact runs_pure.mpr ⟨rfl, rfl⟩
    | some size =>
      refine runs_bind.mpr ⟨_, h', runs_inspect.mpr ⟨rfl, rfl⟩, ?_⟩
      cases md5Of h' binary with
      | error e => exact runs_pure.mpr ⟨rfl, rfl⟩
      | ok md5 => exact runs_pure.mpr ⟨rfl, rfl⟩

theorem built_of_measure {cell : Cell} {source binary : Path} {h h' : Host} {a : Artifact}
    (hr : Runs (c.measure library cell source binary) h (.built a) h') :
    h' = h ∧ ∃ size md5, sizeOf? h binary = some size ∧ md5Of h binary = .ok md5 ∧
      a = c.artifactOf library cell source binary size md5 := by
  obtain ⟨rfl, ho⟩ := runs_measure.mp hr
  split at ho
  · next size md5 hs hm => exact ⟨rfl, size, md5, hs, hm, CellResult.built.inj ho⟩
  · cases ho

theorem measure_fits {cell : Cell} {source binary : Path} {h h' : Host} {outcome : CellResult}
    (hr : Runs (c.measure library cell source binary) h outcome h') :
    c.Fits library (cell, some source) outcome := by
  obtain ⟨-, rfl⟩ := runs_measure.mp hr
  split
  · exact ⟨rfl, rfl, rfl, rfl⟩
  · rfl

/-- A cell without a source is skipped, any other is built or fails. -/
theorem runCell_fits {cell : Cell} {source? : Option Path} {h h' : Host} {outcome : CellResult}
    (hr : Runs (c.runCell library outputDir cell source?) h outcome h') :
    c.Fits library (cell, source?) outcome := by
  unfold runCell at hr
  cases source? with
  | none =>
    obtain ⟨rfl, -⟩ := runs_pure.mp hr
    rfl
  | some source =>
    obtain ⟨compiled, h1, -, hr⟩ := runs_bind.mp hr
    cases compiled with
    | false =>
      obtain ⟨rfl, -⟩ := runs_pure.mp hr
      rfl
    | true => exact measure_fits hr

/-- The artifact of a built cell was measured where the cell is compiled to. -/
theorem built_of_runCell {cell : Cell} {source? : Option Path} {h h' : Host} {a : Artifact}
    (hr : Runs (c.runCell library outputDir cell source?) h (.built a) h') :
    ∃ source size md5,
      a = c.artifactOf library cell source (binaryPath library outputDir cell) size md5 := by
  unfold runCell at hr
  cases source? with
  | none =>
    obtain ⟨ho, -⟩ := runs_pure.mp hr
    cases ho
  | some source =>
    obtain ⟨compiled, h1, -, hr⟩ := runs_bind.mp hr
    cases compiled with
    | false =>
      obtain ⟨ho, -⟩ := runs_pure.mp hr
      cases ho
    | true =>
      obtain ⟨-, size, md5, -, -, ha⟩ := built_of_measure hr
      exact ⟨source, size, md5, ha⟩

/-! ## One compile -/

/-- The call for one compile. -/
def callFor (c : Compiler) (profile : Architecture) (level compiler : String) (source output : Path) :
    Invocation :=
  ⟨(commandFor profile level compiler source output []).1,
    (commandFor profile level compiler source output []).2, c.options.limit⟩

/-- Whether a tool that answered so has succeeded. -/
def succeeded : Except ToolError ToolOutput → Bool
  | .ok output => output.success
  | .error _ => false

/-- A call that was made is written down. -/
def noted (h : Host) (call : Invocation) : Host :=
  { h with trace := { h.trace with compiles := h.trace.compiles ++ [call] } }

theorem runs_noting {run : Runner} {call : Invocation} {answer : Except ToolError ToolOutput}
    {h h' : Host} : Runs (run.noting call) h answer h' ↔ ∃ g, Runs (run call) h answer g ∧ h' = noted g call := by
  unfold Runner.noting
  simp only [runs_bind, runs_modify, runs_pure]
  constructor
  · rintro ⟨_, g, hr, -, _, rfl, rfl, rfl⟩
    exact ⟨g, hr, rfl⟩
  · rintro ⟨g, hr, rfl⟩
    exact ⟨answer, g, hr, ⟨⟩, _, rfl, rfl, rfl⟩

/-- A compile is refused, or is one call of the runner. -/
theorem runs_compileSource {source output : Path} {architecture level compiler : String}
    {compiled : Bool} {h h' : Host} :
    Runs (c.compileSource source output architecture level compiler []) h compiled h' ↔
      (c.registry.find? architecture = none ∧ compiled = false ∧ h' = h) ∨
      ∃ profile answer g, c.registry.find? architecture = some profile ∧
        Runs (c.runner (c.callFor profile level compiler source output)) h answer g ∧
        compiled = succeeded answer ∧ h' = noted g (c.callFor profile level compiler source output) := by
  have hanswer : ∀ {answer : Except ToolError ToolOutput} {h1 : Host},
      Runs (match answer with
        | .ok output => pure output.success
        | .error _ => pure false : Action Bool) h1 compiled h' ↔
      h' = h1 ∧ compiled = succeeded answer := by
    intro answer h1
    cases answer with
    | ok output => exact runs_pure.trans and_comm
    | error e => exact runs_pure.trans and_comm
  unfold compileSource
  cases hf : c.registry.find? architecture with
  | none =>
    simp only [runs_pure, true_and, reduceCtorEq, false_and, exists_false, or_false]
  | some profile =>
    simp only [runs_bind, reduceCtorEq, false_and, false_or, Option.some.injEq]
    constructor
    · rintro ⟨answer, h1, hnoting, hr⟩
      obtain ⟨rfl, hc⟩ := hanswer.mp hr
      obtain ⟨g, hcall, he⟩ := runs_noting.mp hnoting
      exact ⟨profile, answer, g, rfl, hcall, hc, he⟩
    · rintro ⟨_, answer, g, rfl, hcall, hc, rfl⟩
      exact ⟨answer, _, runs_noting.mpr ⟨g, hcall, rfl⟩, hanswer.mpr ⟨rfl, hc⟩⟩

/-- The call for a cell asks for its binary. -/
theorem asks_callFor {cell : Cell} {profile : Architecture}
    (hf : c.registry.find? cell.architecture = some profile) (source : Path) :
    c.Asks library outputDir cell source (c.callFor profile cell.optimization c.options.compiler source
      (binaryPath library outputDir cell)) :=
  ⟨⟨profile, List.mem_of_find?_eq_some hf, by simpa using List.find?_some hf, rfl⟩, rfl⟩

/-- With a runner that answers a compile ends. -/
theorem compileSource_ends (ha : c.runner.Answers) (source output : Path)
    (architecture level compiler : String) (h : Host) :
    ∃ compiled h', Runs (c.compileSource source output architecture level compiler []) h compiled h' := by
  cases hf : c.registry.find? architecture with
  | none => exact ⟨false, h, runs_compileSource.mpr (Or.inl ⟨hf, rfl, rfl⟩)⟩
  | some profile =>
    obtain ⟨answer, g, hr, -⟩ := ha (c.callFor profile level compiler source output) h
    exact ⟨_, _, runs_compileSource.mpr (Or.inr ⟨profile, answer, g, hf, hr, rfl, rfl⟩)⟩

/-- With a runner that answers a cell comes to its end. -/
theorem runCell_ends (ha : c.runner.Answers) (cell : Cell) (source? : Option Path) (h : Host) :
    ∃ outcome h', Runs (c.runCell library outputDir cell source?) h outcome h' := by
  unfold runCell
  cases source? with
  | none => exact ⟨.missingSource, h, runs_pure.mpr ⟨rfl, rfl⟩⟩
  | some source =>
    obtain ⟨compiled, h1, hr⟩ := compileSource_ends ha source (binaryPath library outputDir cell)
      cell.architecture cell.optimization c.options.compiler h
    cases compiled with
    | false => exact ⟨.failed, h1, runs_bind.mpr ⟨false, h1, hr, runs_pure.mpr ⟨rfl, rfl⟩⟩⟩
    | true =>
      exact ⟨_, h1, runs_bind.mpr ⟨true, h1, hr, runs_measure.mpr ⟨rfl, rfl⟩⟩⟩

/-! ## The report -/

/-- The report `r` accounts for the jobs in `finished`. -/
structure Counts (c : Compiler) (library : String) (finished : List Job) (r : MatrixResult) :
    Prop where
  sum : r.succeeded + r.failed + r.missingSource = finished.length
  missing : r.missingSource = finished.countP (·.2.isNone)
  units : ∀ cell a, r.units.get? cell = some a →
    (∃ source, (cell, some source) ∈ finished) ∧ c.Describes library cell a

theorem Counts.nil (c : Compiler) (library : String) (attempted : Nat) :
    c.Counts library [] ⟨library, .empty, attempted, 0, 0⟩ :=
  ⟨rfl, rfl, fun cell a h => by cases h⟩

/-- One more job, of a new cell, is counted once. -/
theorem Counts.add {finished : List Job} {r : MatrixResult} (hc : c.Counts library finished r)
    {job : Job} (hnew : job.1 ∉ finished.map (·.1)) {outcome : CellResult}
    (hf : c.Fits library job outcome) : c.Counts library (finished ++ [job]) (r.add job.1 outcome) := by
  obtain ⟨hsum, hmissing, hunits⟩ := hc
  obtain ⟨cell, source?⟩ := job
  have hkeep : ∀ cell' a, r.units.get? cell' = some a →
      (∃ source, (cell', some source) ∈ finished ++ [(cell, source?)]) ∧
        c.Describes library cell' a := by
    intro cell' a h
    obtain ⟨⟨source, hm⟩, hd⟩ := hunits cell' a h
    exact ⟨⟨source, List.mem_append_left _ hm⟩, hd⟩
  cases outcome with
  | built a =>
    obtain ⟨hs, hd⟩ := hf
    obtain ⟨source, rfl⟩ := Option.isSome_iff_exists.mp hs
    -- The map would merge equal cells; the cell is new, so its entry is one more.
    have hfree : r.units.get? cell = none := by
      cases hg : r.units.get? cell with
      | none => rfl
      | some b =>
        obtain ⟨⟨source', hm⟩, -⟩ := hunits cell b hg
        exact absurd (List.mem_map.mpr ⟨_, hm, rfl⟩) hnew
    refine ⟨?_, ?_, fun cell' b h => ?_⟩
    · have hsize := OrderedMap.size_insert_of_free hfree a
      simp only [MatrixResult.succeeded, MatrixResult.add, hsize, List.length_append,
        List.length_singleton] at hsum ⊢
      omega
    · simp [MatrixResult.add, hmissing, List.countP_append]
    · rw [MatrixResult.add, OrderedMap.get?_insert] at h
      split at h
      · next he =>
        cases h
        subst he
        exact ⟨⟨source, by simp⟩, hd⟩
      · exact hkeep cell' b h
  | failed =>
    have hs : source?.isNone = false := by simpa [Fits] using hf
    refine ⟨?_, ?_, hkeep⟩
    · simp only [MatrixResult.succeeded, MatrixResult.add, List.length_append,
        List.length_singleton] at hsum ⊢
      omega
    · simp [MatrixResult.add, hmissing, List.countP_append, hs]
  | missingSource =>
    have hs : source?.isNone = true := hf
    refine ⟨?_, ?_, hkeep⟩
    · simp only [MatrixResult.succeeded, MatrixResult.add, List.length_append,
        List.length_singleton] at hsum ⊢
      omega
    · simp [MatrixResult.add, hmissing, List.countP_append, hs]

@[simp] theorem add_library (r : MatrixResult) (cell : Cell) (outcome : CellResult) :
    (r.add cell outcome).library = r.library := by
  cases outcome with
  | built a => rfl
  | failed => rfl
  | missingSource => rfl

@[simp] theorem add_attempted (r : MatrixResult) (cell : Cell) (outcome : CellResult) :
    (r.add cell outcome).attempted = r.attempted := by
  cases outcome with
  | built a => rfl
  | failed => rfl
  | missingSource => rfl

/-! ## A whole run -/

/-- A run over jobs of different cells, in whatever order, accounts for all of them. -/
theorem buildCells_counts {total : Nat} (jobs : List Job) :
    ∀ {done : Nat} {finished : List Job} {report r : MatrixResult} {h h' : Host},
      Runs (c.buildCells library outputDir total done report jobs) h r h' →
      c.Counts library finished report → ((finished ++ jobs).map (·.1)).Nodup →
      c.Counts library (finished ++ jobs) r ∧ r.library = report.library ∧
        r.attempted = report.attempted := by
  induction jobs with
  | nil =>
    intro done finished report r h h' hr hc _
    unfold buildCells at hr
    obtain ⟨rfl, -⟩ := runs_pure.mp hr
    rw [List.append_nil]
    exact ⟨hc, rfl, rfl⟩
  | cons job rest ih =>
    intro done finished report r h h' hr hc hn
    obtain ⟨cell, source?⟩ := job
    unfold buildCells at hr
    obtain ⟨outcome, h1, hcell, hr⟩ := runs_bind.mp hr
    obtain ⟨-, h2, -, hr⟩ := runs_bind.mp hr
    have hnew : cell ∉ finished.map (·.1) := by
      intro hm
      rw [List.map_append, List.nodup_append] at hn
      exact hn.2.2 cell hm cell (by simp) rfl
    have hadd : c.Counts library (finished ++ [(cell, source?)]) (report.add cell outcome) :=
      hc.add hnew (runCell_fits hcell)
    obtain ⟨hc', hl, ht⟩ := ih hr hadd (by simpa using hn)
    rw [List.append_assoc] at hc'
    exact ⟨hc', by rw [hl, add_library], by rw [ht, add_attempted]⟩

/-- With a runner that answers, a run ends. -/
theorem buildCells_ends (ha : c.runner.Answers) (library : String) (outputDir : Path) (total : Nat)
    (jobs : List Job) : ∀ (done : Nat) (report : MatrixResult) (h : Host),
      ∃ r h', Runs (c.buildCells library outputDir total done report jobs) h r h' := by
  induction jobs with
  | nil => exact fun done report h => ⟨report, h, runs_pure.mpr ⟨rfl, rfl⟩⟩
  | cons job rest ih =>
    intro done report h
    obtain ⟨outcome, h1, hcell⟩ : ∃ outcome h1, Runs (c.runCell library outputDir job.1 job.2) h outcome h1 :=
      runCell_ends ha job.1 job.2 h
    let h2 : Host :=
      { h1 with trace := { h1.trace with progress := h1.trace.progress ++ [⟨done + 1, total⟩] } }
    obtain ⟨r, h', hr⟩ := ih (done + 1) (report.add job.1 outcome) h2
    exact ⟨r, h', runs_bind.mpr ⟨outcome, h1, hcell, runs_bind.mpr ⟨⟨⟩, h2, runs_modify.mpr rfl, hr⟩⟩⟩

theorem lookup_map_mk {β : Type} (g : String → β) (items : List String) {s : String}
    (h : s ∈ items) : (items.map fun x => (x, g x)).lookup s = some (g s) := by
  induction items with
  | nil => cases h
  | cons x rest ih =>
    rw [List.map_cons, List.lookup_cons]
    by_cases hx : s = x
    · subst hx
      simp
    · rw [show (s == x) = false by simpa using hx]
      exact ih ((List.mem_cons.mp h).resolve_left hx)

/-- The table of sources holds the source of every cell. -/
theorem jobs_eq (c : Compiler) (h : Host) (sourceDir : Path) (functions : List String) :
    ((c.cellsFor functions).map fun cell =>
      (cell, (((distinct functions).map fun f =>
        (f, Sources.find? h.files h.cwd sourceDir f)).lookup cell.function).join)) =
      c.jobsFor h sourceDir functions := by
  refine List.map_congr_left fun cell hc => ?_
  have hf : cell.function ∈ distinct functions := (mem_cells.mp hc).2.2
  rw [lookup_map_mk (fun f => Sources.find? h.files h.cwd sourceDir f) _ hf]
  rfl

/-- A matrix run builds its cells on a host with the output directory, or fails before the first. -/
theorem runs_runMatrix {sourceDir : Path} {functions : List String} {h h' : Host}
    {r : Except MatrixFailure MatrixResult} :
    Runs (c.runMatrix library sourceDir functions outputDir).outcome h r h' ↔
      (∃ e, h.files.makeDirectories h.cwd outputDir = .error e ∧
        r = .error (.outputDirectory outputDir e) ∧ h' = h) ∨
      ∃ files, h.files.makeDirectories h.cwd outputDir = .ok files ∧
        ((h.threadLimit < c.options.jobs.toNat ∧ h' = { h with files := files } ∧
          r = .error (.workers "Resource temporarily unavailable (os error 11)")) ∨
        (c.options.jobs.toNat ≤ h.threadLimit ∧ ∃ report, r = .ok report ∧
          Runs (c.buildCells library outputDir (c.cellsFor functions).length 0
            ⟨library, .empty, (c.cellsFor functions).length, 0, 0⟩
            (c.jobsFor { h with files := files } sourceDir functions))
            { h with files := files } report h')) := by
  unfold runMatrix
  rw [Attempt.runs_change_bind, or_comm]
  refine or_congr Iff.rfl (exists_congr fun files => and_congr_right fun _ => ?_)
  simp only [Attempt.runs_inspect_bind, Attempt.runs_get_bind]
  rw [← jobs_eq]
  by_cases hw : h.threadLimit < c.options.jobs.toNat
  · simp only [if_pos hw]
    constructor
    · intro hr
      obtain ⟨rfl, rfl⟩ := runs_pure.mp hr
      exact Or.inl ⟨hw, rfl, rfl⟩
    · rintro (⟨-, rfl, rfl⟩ | ⟨hw', -⟩)
      · exact runs_pure.mpr ⟨rfl, rfl⟩
      · omega
  · simp only [if_neg hw]
    rw [Attempt.runs_ofAction]
    constructor
    · rintro ⟨report, hr, rfl⟩
      exact Or.inr ⟨by omega, report, rfl, hr⟩
    · rintro (⟨hw', -, -⟩ | ⟨-, report, rfl, hr⟩)
      · exact absurd hw' hw
      · exact ⟨report, hr, rfl⟩

theorem jobsFor_cells (c : Compiler) (h : Host) (sourceDir : Path) (functions : List String) :
    (c.jobsFor h sourceDir functions).map (·.1) = c.cellsFor functions := by
  simp [jobsFor, Function.comp_def]

theorem nodup_cellsFor {accepts : Architecture → Bool} (hp : Registry.probe accepts = .ok c.registry)
    (functions : List String) : (c.cellsFor functions).Nodup :=
  nodup_cells (Registry.nodup_ids hp) (nodup_distinct _) (nodup_distinct _)

/-- Whatever the compiler did, a report accounts for the cells of its matrix. -/
theorem runMatrix_counts {accepts : Architecture → Bool}
    (hp : Registry.probe accepts = .ok c.registry) {sourceDir : Path} {functions : List String}
    {h h' : Host} {report : MatrixResult}
    (hr : Runs (c.runMatrix library sourceDir functions outputDir).outcome h (.ok report) h') :
    ∃ started, c.Counts library (c.jobsFor started sourceDir functions) report := by
  rcases runs_runMatrix.mp hr with ⟨e, -, he, -⟩ | ⟨files, -, ⟨-, -, he⟩ | ⟨-, report', he, hr⟩⟩
  · cases he
  · cases he
  · cases he
    refine ⟨{ h with files := files }, (buildCells_counts _ hr (Counts.nil c library _) ?_).1⟩
    rw [List.nil_append, jobsFor_cells]
    exact nodup_cellsFor hp functions

/-- What a report holds as built is a cell of its matrix. -/
theorem runMatrix_units {accepts : Architecture → Bool}
    (hp : Registry.probe accepts = .ok c.registry) {sourceDir : Path} {functions : List String}
    {h h' : Host} {report : MatrixResult}
    (hr : Runs (c.runMatrix library sourceDir functions outputDir).outcome h (.ok report) h')
    {cell : Cell} {a : Artifact} (hg : report.units.get? cell = some a) :
    cell ∈ c.cellsFor functions ∧ c.Describes library cell a := by
  obtain ⟨started, hc⟩ := runMatrix_counts hp hr
  obtain ⟨⟨source, hm⟩, hd⟩ := hc.units cell a hg
  have hcell : cell ∈ (c.jobsFor started sourceDir functions).map (·.1) :=
    List.mem_map.mpr ⟨_, hm, rfl⟩
  rw [jobsFor_cells] at hcell
  exact ⟨hcell, hd⟩

section
variable {accepts : Architecture → Bool} {sourceDir : Path} {functions : List String} {h h' : Host}
  {report : MatrixResult} (hp : Registry.probe accepts = .ok c.registry)
  (hr : Runs (c.runMatrix library sourceDir functions outputDir).outcome h (.ok report) h')
include hp hr

/-- A unit stands under its own cell. -/
theorem keyed_of_runMatrix : ∀ e ∈ report.units.entries, e.2.cell = e.1 := fun e he =>
  (runMatrix_units hp hr ((report.units.mem_entries_iff e.1 e.2).mp he)).2.cell

theorem cell_mem_of_runMatrix {a : Artifact} (ha : a ∈ report.units.values) :
    a.cell ∈ c.cellsFor functions := by
  obtain ⟨cell, hg⟩ := OrderedMap.mem_values.mp ha
  obtain ⟨hcell, hd⟩ := runMatrix_units hp hr hg
  exact hd.cell ▸ hcell

end

end Compiler

end CipherCorpus
