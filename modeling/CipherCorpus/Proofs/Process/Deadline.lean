import CipherCorpus.Dataset.Labeling
import CipherCorpus.Process.Tools
import CipherCorpus.Proofs.Config.Limits
import CipherCorpus.Proofs.Dataset.Accounts

/-!
# Time limits and the clock

A tool that was started is given a deadline, the time of the host plus the limit of the call.  The clock
counts less than 2⁶³ seconds, and a deadline behind that is not reported, it cuts the whole run short.
`Waits` says when: exactly if the tool is started and the deadline is out of reach (`Tools.run_waits`).  What
is done with the tool inherits it, up to a cell and a symbol listing, and by induction a matrix and the labels
of a manifest end when the limit is in reach.

    now + limit < 2⁶³ s   →  every cell is built, failed or without a source
    2⁶³ s ≤ now + limit   →  the first compile that starts ends the run
-/

namespace CipherCorpus

/-! ## Deadlines -/

/-- The clock can hold the point in time that lies the limit ahead. -/
def Host.CanWait (h : Host) (limit : Duration) : Prop :=
  h.uptime.total + limit.total < (Duration.clockLimit + 1) * 1000000000

instance (h : Host) (limit : Duration) : Decidable (h.CanWait limit) :=
  inferInstanceAs (Decidable (_ < _))

variable {α β : Type} {x : Action α} {h h' : Host} {limit : Duration} {starts : Prop}

theorem Host.after?_isNone_iff (h : Host) (limit : Duration) :
    (Duration.after? h.uptime limit).isNone = true ↔ ¬ h.CanWait limit := by
  unfold Host.CanWait Duration.after? Duration.total
  dsimp only
  split
  · next hfits =>
    refine iff_of_false (by simp) (not_not_intro ?_)
    omega
  · next hover =>
    refine iff_of_true rfl ?_
    omega

theorem Host.CanWait.of_uptime (hw : h.CanWait limit) (hu : h'.uptime = h.uptime) : h'.CanWait limit := by
  unfold Host.CanWait
  rw [hu]
  exact hw

/-- A limit in whole seconds is in reach when the seconds of the clock and of the limit are. -/
theorem Host.canWait_ofSeconds_iff (hnanos : h.uptime.nanos < 1000000000) (n : Nat) :
    h.CanWait (.ofSeconds n) ↔ h.uptime.seconds + n ≤ Duration.clockLimit := by
  unfold Host.CanWait Duration.total Duration.ofSeconds
  dsimp only
  omega

/-! ## Actions that wait for tools -/

/-- An action that waits for a tool, when it starts one: it is cut short if the deadline is out of reach,
and otherwise ends. -/
structure Waits (x : Action α) (h : Host) (limit : Duration) (starts : Prop) : Prop where
  cut : starts → ¬ h.CanWait limit → x.run h = .error (.clockOverflow limit)
  ends : (starts → h.CanWait limit) → ∃ a h', Runs x h a h' ∧ h'.uptime = h.uptime

/-- When it starts no tool it changes nothing but the trace. -/
structure WaitsOnly (x : Action α) (h : Host) (limit : Duration) (starts : Prop) : Prop
    extends Waits x h limit starts where
  idle : ¬ starts → ∃ a trace, Runs x h a { h with trace := trace }

/-- It is cut short in no other case. -/
theorem Waits.cut_iff (hw : Waits x h limit starts) :
    x.run h = .error (.clockOverflow limit) ↔ starts ∧ ¬ h.CanWait limit := by
  constructor
  · intro hcut
    by_contra hnot
    obtain ⟨a, h', hr, -⟩ := hw.ends fun hs => by_contra fun hc => hnot ⟨hs, hc⟩
    cases hr.symm.trans hcut
  · exact fun ⟨hs, hc⟩ => hw.cut hs hc

namespace WaitsOnly

theorem of_runs {a : α} (hs : ¬ starts) (hr : Runs x h a h) : WaitsOnly x h limit starts where
  cut := fun h => absurd h hs
  ends := fun _ => ⟨a, h, hr, rfl⟩
  idle := fun _ => ⟨a, h.trace, hr⟩

theorem of_iff {starts' : Prop} (hw : WaitsOnly x h limit starts) (hs : starts' ↔ starts) :
    WaitsOnly x h limit starts' :=
  propext hs ▸ hw

/-- What is noted before leaves the clock and the files. -/
theorem after {f : α → Action β} {a : α} {trace : Trace} (hr : Runs x h a { h with trace := trace })
    (hw : WaitsOnly (f a) { h with trace := trace } limit starts) : WaitsOnly (x >>= f) h limit starts := by
  have hrun : (x >>= f).run h = (f a).run { h with trace := trace } := by
    rw [StateT.run_bind, show x.run h = .ok (a, _) from hr]
    rfl
  refine ⟨⟨fun hs hc => hrun.trans (hw.cut hs hc), fun hc => ?_⟩, fun hs => ?_⟩
  · obtain ⟨b, h', hr', hu⟩ := hw.ends hc
    exact ⟨b, h', hrun.trans hr', hu⟩
  · obtain ⟨b, trace', hr'⟩ := hw.idle hs
    exact ⟨b, trace', hrun.trans hr'⟩

/-- One wait after the other: if the first starts no tool, the second finds the host as it was. -/
theorem andThen {f : α → Action β} (later : Host → Prop) (hw : WaitsOnly x h limit starts)
    (hf : ∀ a h', WaitsOnly (f a) h' limit (later h'))
    (hlater : ∀ trace, later { h with trace := trace } ↔ later h) :
    WaitsOnly (x >>= f) h limit (starts ∨ later h) := by
  have hidle : ¬ starts → ∃ a trace, (x >>= f).run h = (f a).run { h with trace := trace } := by
    intro hs
    obtain ⟨a, trace, hr⟩ := hw.idle hs
    refine ⟨a, trace, ?_⟩
    rw [StateT.run_bind, show x.run h = .ok (a, _) from hr]
    rfl
  refine ⟨⟨fun hs hc => ?_, fun hc => ?_⟩, fun hs => ?_⟩
  · by_cases hfirst : starts
    · rw [StateT.run_bind, hw.cut hfirst hc]
      rfl
    · obtain ⟨a, trace, hrun⟩ := hidle hfirst
      exact hrun.trans ((hf a _).cut ((hlater trace).mpr (hs.resolve_left hfirst)) hc)
  · by_cases hreach : h.CanWait limit
    · obtain ⟨a, h1, hr, hu⟩ := hw.ends fun _ => hreach
      obtain ⟨b, h2, hr', hu'⟩ := (hf a h1).ends fun _ => hreach.of_uptime hu
      exact ⟨b, h2, runs_bind.mpr ⟨a, h1, hr, hr'⟩, hu'.trans hu⟩
    · obtain ⟨a, trace, hrun⟩ := hidle fun hs => hreach (hc (Or.inl hs))
      obtain ⟨b, h2, hr', hu'⟩ := (hf a { h with trace := trace }).ends fun hs =>
        hc (Or.inr ((hlater trace).mp hs))
      exact ⟨b, h2, hrun.trans hr', hu'⟩
  · rw [not_or] at hs
    obtain ⟨a, trace, hrun⟩ := hidle hs.1
    obtain ⟨b, trace', hr'⟩ := (hf a _).idle fun h => hs.2 ((hlater trace).mp h)
    exact ⟨b, trace', hrun.trans hr'⟩

/-- What looks at the host afterwards does not wait. -/
theorem bind {f : α → Action β} (hw : WaitsOnly x h limit starts) (hf : ∀ a h', ∃ b, Runs (f a) h' b h') :
    WaitsOnly (x >>= f) h limit starts := by
  have hnever : ∀ a h', WaitsOnly (f a) h' limit False := fun a h' =>
    let ⟨_, hr⟩ := hf a h'
    of_runs not_false hr
  exact (hw.andThen (fun _ => False) hnever fun _ => Iff.rfl).of_iff (or_iff_left not_false).symm

end WaitsOnly

namespace Tools

/-- The call is started: its words can be given to a process, and there is a program of the name. -/
def Starts (h : Host) (i : Invocation) : Prop :=
  (i.program :: i.arguments).any holdsZero = false ∧ ∃ program, find h i.program = .ok program

/-- A call waits for its tool, if the tool is started, no longer than the limit. -/
theorem run_waits (i : Invocation) (h : Host) : WaitsOnly (run i) h i.limit (Starts h i) := by
  have hget : Runs (get : Action Host) h h h := runs_get.mpr ⟨rfl, rfl⟩
  unfold run
  refine .after hget ?_
  by_cases hzero : (i.program :: i.arguments).any holdsZero = true
  · rw [if_pos hzero]
    exact .of_runs (fun hs => by rw [hs.1] at hzero; cases hzero) (runs_pure.mpr ⟨rfl, rfl⟩)
  · rw [if_neg hzero]
    cases hfind : find h i.program with
    | error e =>
      exact .of_runs (fun ⟨_, _, hs⟩ => by rw [hfind] at hs; cases hs) (runs_pure.mpr ⟨rfl, rfl⟩)
    | ok program =>
      have hstarts : Starts h i := ⟨by simpa using hzero, program, hfind⟩
      dsimp only
      refine ⟨⟨fun _ hc => ?_, fun hc => ?_⟩, fun hs => absurd hstarts hs⟩
      · rw [if_pos ((h.after?_isNone_iff i.limit).mpr hc)]
        rfl
      · rw [if_neg fun hover => (h.after?_isNone_iff i.limit).mp hover (hc hstarts)]
        split
        · exact ⟨_, h, runs_pure.mpr ⟨rfl, rfl⟩, rfl⟩
        · split
          · exact ⟨_, _, rfl, rfl⟩
          · exact ⟨_, _, rfl, rfl⟩

/-- Noting a call that was made does not wait. -/
theorem noting_waits (i : Invocation) (h : Host) :
    WaitsOnly (Runner.noting run i) h i.limit (Starts h i) := by
  unfold Runner.noting
  refine ((run_waits i h).andThen (fun _ => False) (fun answer h' => ?_) fun _ => Iff.rfl).of_iff
    (or_iff_left not_false).symm
  exact .after (a := ⟨⟩) (runs_modify.mpr rfl) (.of_runs not_false (runs_pure.mpr ⟨rfl, rfl⟩))

/-- The compiler that runs its tools as processes. -/
abbrev compiler (registry : Registry) (options : CompileSettings) : Compiler := ⟨registry, run, options⟩

/-- The lister that runs its tool as a process. -/
abbrev lister (program : String) (limit : Duration) : ListingTool := ⟨run, program, limit⟩

end Tools

/-! ## Compiles and cells -/

namespace Compiler

/-- The call of a compile, if its architecture is available. -/
def call? (c : Compiler) (source output : Path) (architecture level compiler : String)
    (extra : List String) : Option Invocation :=
  (c.registry.find? architecture).map fun profile =>
    ⟨(commandFor profile level compiler source output extra).1,
      (commandFor profile level compiler source output extra).2, c.options.limit⟩

/-- The compile of a cell, if there is a source and the architecture is available. -/
def cellCall? (c : Compiler) (library : String) (outputDir : Path) (cell : Cell)
    (source? : Option Path) : Option Invocation :=
  source?.bind fun source => c.call? source (binaryPath library outputDir cell) cell.architecture
    cell.optimization c.options.compiler []

variable (registry : Registry) (options : CompileSettings) (library : String) (outputDir : Path)

/-- A compile waits for its tool and tells whether it succeeded. -/
theorem compileSource_waits (source output : Path) (architecture level compiler : String)
    (extra : List String) (h : Host) :
    WaitsOnly ((Tools.compiler registry options).compileSource source output architecture level compiler extra) h
      options.limit (∃ i, (Tools.compiler registry options).call? source output architecture level compiler
        extra = some i ∧ Tools.Starts h i) := by
  unfold compileSource call?
  dsimp only
  cases hprofile : registry.find? architecture with
  | none => exact .of_runs (by simp) (runs_pure.mpr ⟨rfl, rfl⟩)
  | some profile =>
    let i : Invocation := ⟨(commandFor profile level compiler source output extra).1,
      (commandFor profile level compiler source output extra).2, options.limit⟩
    have hstarts : (∃ j, some i = some j ∧ Tools.Starts h j) ↔ Tools.Starts h i := by
      simp only [Option.some.injEq, exists_eq_left']
    refine WaitsOnly.of_iff ?_ hstarts
    refine (Tools.noting_waits i h).bind fun answer h1 => ?_
    cases answer with
    | ok output => exact ⟨_, runs_pure.mpr ⟨rfl, rfl⟩⟩
    | error e => exact ⟨_, runs_pure.mpr ⟨rfl, rfl⟩⟩

/-- A cell waits for its compile. -/
theorem runCell_waits (cell : Cell) (source? : Option Path) (h : Host) :
    WaitsOnly ((Tools.compiler registry options).runCell library outputDir cell source?) h options.limit
      (∃ i, (Tools.compiler registry options).cellCall? library outputDir cell source? = some i ∧
        Tools.Starts h i) := by
  unfold runCell
  cases source? with
  | none => exact .of_runs (by simp [cellCall?]) (runs_pure.mpr ⟨rfl, rfl⟩)
  | some source =>
    refine (compileSource_waits registry options source _ _ _ _ _ h).bind fun compiled h1 => ?_
    cases compiled with
    | false => exact ⟨.failed, runs_pure.mpr ⟨rfl, rfl⟩⟩
    | true => exact ⟨_, runs_measure.mpr ⟨rfl, rfl⟩⟩

/-- Some job's compile is started. -/
def SomeStarts (c : Compiler) (library : String) (outputDir : Path) (h : Host) (jobs : List Job) : Prop :=
  ∃ job ∈ jobs, ∃ i, c.cellCall? library outputDir job.1 job.2 = some i ∧ Tools.Starts h i

/-- Cells that are built in order wait for the compiles of all of them. -/
theorem buildCells_waits (total : Nat) (jobs : List Job) : ∀ (done : Nat) (report : MatrixResult) (h : Host),
    WaitsOnly ((Tools.compiler registry options).buildCells library outputDir total done report jobs) h
      options.limit ((Tools.compiler registry options).SomeStarts library outputDir h jobs) := by
  induction jobs with
  | nil =>
    exact fun done report h => .of_runs (by simp [SomeStarts]) (runs_pure.mpr ⟨rfl, rfl⟩)
  | cons job rest ih =>
    intro done report h
    obtain ⟨cell, source?⟩ := job
    have hcell := runCell_waits registry options library outputDir cell source? h
    refine WaitsOnly.of_iff (hcell.andThen
      (fun h => (Tools.compiler registry options).SomeStarts library outputDir h rest)
      (fun outcome h1 => ?_) fun trace => Iff.rfl) (List.exists_mem_cons_iff _ _ _)
    -- the observer is told of the cell, then the other cells are built
    have hshown : ∀ {f : Host → Host}, { h1 with trace := (f h1).trace } = f h1 →
        Runs (modify f : Action Unit) h1 () { h1 with trace := (f h1).trace } := runs_modify.mpr
    exact .after (hshown rfl) (ih _ _ _)

/-- With the output directory and the workers a matrix does what building its cells does. -/
theorem run_runMatrix (c : Compiler) (library : String) (outputDir sourceDir : Path)
    (functions : List String) {files : FileTree}
    (hd : h.files.makeDirectories h.cwd outputDir = .ok files) (hw : ¬ h.threadLimit < c.options.jobs.toNat) :
    (c.runMatrix library sourceDir functions outputDir).outcome.run h =
      (c.buildCells library outputDir (c.cellsFor functions).length 0
        ⟨library, .empty, (c.cellsFor functions).length, 0, 0⟩
        (c.jobsFor { h with files := files } sourceDir functions) >>=
          fun report => pure (Except.ok report)).run { h with files := files } := by
  have hmade : Runs ((change fun t cwd => t.makeDirectories cwd outputDir).inWords
      (MatrixFailure.outputDirectory outputDir)).outcome h (.ok ()) { h with files := files } :=
    Attempt.runs_inWords.mpr ⟨.ok (), Attempt.runs_change.mpr (Or.inl ⟨files, hd, rfl, rfl⟩), rfl⟩
  unfold runMatrix
  have hget : Runs (get : Attempt MatrixFailure Host).outcome { h with files := files }
      (.ok { h with files := files }) { h with files := files } := Attempt.runs_get.mpr ⟨rfl, rfl⟩
  rw [Attempt.run_bind_of_runs hmade, ← jobs_eq, Attempt.run_inspect_bind, Attempt.run_bind_of_runs hget,
    if_neg hw, ← map_eq_pure_bind]
  rfl

/-- A matrix is cut short when the limit is out of reach and a compile is started, once the output
directory is there and the workers are; otherwise it ends. -/
theorem runMatrix_waits (sourceDir : Path) (functions : List String) (h : Host) :
    Waits ((Tools.compiler registry options).runMatrix library sourceDir functions outputDir).outcome h
      options.limit (∃ files, h.files.makeDirectories h.cwd outputDir = .ok files ∧
        options.jobs.toNat ≤ h.threadLimit ∧
        (Tools.compiler registry options).SomeStarts library outputDir { h with files := files }
          ((Tools.compiler registry options).jobsFor { h with files := files } sourceDir functions)) := by
  cases hd : h.files.makeDirectories h.cwd outputDir with
  | error e =>
    exact ⟨fun ⟨_, he, _⟩ => (nomatch he), fun _ => ⟨_, h, runs_runMatrix.mpr (Or.inl ⟨e, hd, rfl, rfl⟩), rfl⟩⟩
  | ok files =>
    by_cases hw : h.threadLimit < options.jobs.toNat
    · exact ⟨fun ⟨_, _, hw', _⟩ => absurd hw (Nat.not_lt.mpr hw'), fun _ =>
        ⟨_, _, runs_runMatrix.mpr (Or.inr ⟨files, hd, Or.inl ⟨hw, rfl, rfl⟩⟩), rfl⟩⟩
    · have hcells := (buildCells_waits registry options library outputDir
        ((Tools.compiler registry options).cellsFor functions).length
        ((Tools.compiler registry options).jobsFor { h with files := files } sourceDir functions) 0
        ⟨library, .empty, ((Tools.compiler registry options).cellsFor functions).length, 0, 0⟩
        { h with files := files }).bind fun report h' =>
          ⟨(Except.ok report : Except MatrixFailure MatrixResult), runs_pure.mpr ⟨rfl, rfl⟩⟩
      have hrun := run_runMatrix (Tools.compiler registry options) library outputDir sourceDir functions hd hw
      refine ⟨fun ⟨_, he, _, hs⟩ hc => ?_, fun hc => ?_⟩
      · cases he
        exact hrun.trans (hcells.cut hs hc)
      · obtain ⟨r, h', hr, hu⟩ := hcells.ends fun hs => hc ⟨files, rfl, Nat.le_of_not_lt hw, hs⟩
        exact ⟨r, h', hrun.trans hr, hu⟩

end Compiler

/-! ## Symbol listings -/

/-- A listing waits for its tool. -/
theorem ListingTool.read_waits (program : String) (limit : Duration) (binary : Path) (h : Host) :
    WaitsOnly ((Tools.lister program limit).read binary) h limit
      (Tools.Starts h ((Tools.lister program limit).invocation binary)) := by
  unfold read
  refine (Tools.run_waits _ h).bind fun answer h1 => ?_
  cases answer with
  | error e => exact ⟨none, runs_pure.mpr ⟨rfl, rfl⟩⟩
  | ok output =>
    dsimp only
    split
    · exact ⟨_, runs_pure.mpr ⟨rfl, rfl⟩⟩
    · exact ⟨none, runs_pure.mpr ⟨rfl, rfl⟩⟩

/-- Guessing from prologues ends. -/
theorem Prologue.exists_read (binary : Path) (h : Host) :
    ∃ functions, Runs (Prologue.read binary) h functions h := by
  have hlook : Runs (inspect fun h => h.read binary) h (h.read binary) h := runs_inspect.mpr ⟨rfl, rfl⟩
  unfold Prologue.read
  cases hdata : h.read binary with
  | error e =>
    rw [hdata] at hlook
    exact ⟨[], runs_bind.mpr ⟨_, h, hlook, runs_pure.mpr ⟨rfl, rfl⟩⟩⟩
  | ok data =>
    rw [hdata] at hlook
    exact ⟨functions data binary, runs_bind.mpr ⟨_, h, hlook, runs_pure.mpr ⟨rfl, rfl⟩⟩⟩

/-- The functions of a binary wait for its listing. -/
theorem recoverFunctions_waits (program : String) (limit : Duration) (binary : Path) (h : Host) :
    WaitsOnly (recoverFunctions (Tools.lister program limit).read binary) h limit
      (Tools.Starts h ((Tools.lister program limit).invocation binary)) := by
  unfold recoverFunctions
  refine (ListingTool.read_waits program limit binary h).bind fun symbols h1 => ?_
  match symbols with
  | some (f :: more) => exact ⟨_, runs_pure.mpr ⟨rfl, rfl⟩⟩
  | some [] => exact Prologue.exists_read binary h1
  | none => exact Prologue.exists_read binary h1

/-- The labels of binaries wait for the listings of all of them. -/
theorem Dataset.labelBinaries_waits (program : String) (limit : Duration) (l : Labeler)
    (binaries : List Path) : ∀ h : Host,
    WaitsOnly (labelBinaries (Tools.lister program limit).read l binaries) h limit
      (∃ binary ∈ binaries, Tools.Starts h ((Tools.lister program limit).invocation binary)) := by
  induction binaries with
  | nil => exact fun h => .of_runs (by simp) (runs_pure.mpr ⟨rfl, rfl⟩)
  | cons binary rest ih =>
    intro h
    refine WaitsOnly.of_iff ((recoverFunctions_waits program limit binary h).andThen
      (fun h => ∃ binary ∈ rest, Tools.Starts h ((Tools.lister program limit).invocation binary))
      (fun functions h1 => ?_) fun trace => Iff.rfl) (List.exists_mem_cons_iff _ _ _)
    exact (ih h1).bind fun labeled h2 => ⟨_, runs_pure.mpr ⟨rfl, rfl⟩⟩

/-! ## Main result -/

/-- What waits for tools under the limits of a configuration: a compile, a cell, a matrix, a symbol listing
and the labels of a manifest. -/
structure Config.WaitsAt (c : Config) (h : Host) : Prop where
  compile : ∀ registry source output architecture level compiler extra,
    let k := Tools.compiler registry c.compileSettings
    Waits (k.compileSource source output architecture level compiler extra) h c.compileLimit
      (∃ i, k.call? source output architecture level compiler extra = some i ∧ Tools.Starts h i)
  cell : ∀ registry library outputDir cell source?, let k := Tools.compiler registry c.compileSettings
    Waits (k.runCell library outputDir cell source?) h c.compileLimit
      (∃ i, k.cellCall? library outputDir cell source? = some i ∧ Tools.Starts h i)
  /-- A cell that ends was built, failed or had no source. -/
  outcome : ∀ registry library outputDir cell source? outcome h',
    let k := Tools.compiler registry c.compileSettings
    Runs (k.runCell library outputDir cell source?) h outcome h' → k.Fits library (cell, source?) outcome
  matrix : ∀ registry library sourceDir functions outputDir,
    let k := Tools.compiler registry c.compileSettings
    Waits (k.runMatrix library sourceDir functions outputDir).outcome h c.compileLimit
      (∃ files, h.files.makeDirectories h.cwd outputDir = .ok files ∧ c.jobs.toNat ≤ h.threadLimit ∧
        k.SomeStarts library outputDir { h with files := files }
          (k.jobsFor { h with files := files } sourceDir functions))
  /-- A matrix that ends has each of its cells in one of its counts. -/
  counted : ∀ registry accepts library sourceDir functions outputDir report h',
    let k := Tools.compiler registry c.compileSettings
    Registry.probe accepts = .ok registry →
    Runs (k.runMatrix library sourceDir functions outputDir).outcome h (.ok report) h' →
    report.attempted = (k.cellsFor functions).length ∧
      report.attempted = report.succeeded + report.failed + report.missingSource
  listing : ∀ program binary, let t := Tools.lister program c.symbolLimit
    Waits (t.read binary) h c.symbolLimit (Tools.Starts h (t.invocation binary))
  labels : ∀ program (m : Manifest), let t := Tools.lister program c.symbolLimit
    Waits (Dataset.labelManifest t.read m) h c.symbolLimit
      (∃ binary ∈ m.binaries, Tools.Starts h (t.invocation binary))

theorem Config.waitsAt (c : Config) (h : Host) : c.WaitsAt h where
  compile := fun registry source output architecture level compiler extra =>
    (Compiler.compileSource_waits registry c.compileSettings source output architecture level compiler extra
      h).toWaits
  cell := fun registry library outputDir cell source? =>
    (Compiler.runCell_waits registry c.compileSettings library outputDir cell source? h).toWaits
  outcome := fun _ _ _ _ _ _ _ => Compiler.runCell_fits
  matrix := fun registry library sourceDir functions outputDir =>
    Compiler.runMatrix_waits registry c.compileSettings library outputDir sourceDir functions h
  counted := fun _ _ _ _ _ _ _ _ hprobe hr => Compiler.runMatrix_attempted hprobe hr
  listing := fun program binary => (ListingTool.read_waits program c.symbolLimit binary h).toWaits
  labels := fun program m =>
    (Dataset.labelBinaries_waits program c.symbolLimit (.ofManifest m) m.binaries h).toWaits

/-- **A limit decides whether what waits for tools ends.**  Every 64-bit number of seconds is accepted as a
limit of a configuration.  It is in reach when it and the seconds of the clock come to less than 2⁶³; what
waits for tools is cut short exactly when a tool is started and the limit is out of reach, and ends
otherwise. -/
theorem limits_in_reach_end {h0 : Host} {p : Path} {c : Config} (hload : Config.load h0 p = .ok c) :
    (∀ n : UInt64,
      Config.load (h0.setVariable "CRYPTO_CORPUS_COMPILE_TIMEOUT_SECS" (toString n)) p =
        .ok { c with compileSeconds := n } ∧
      Config.load (h0.setVariable "CRYPTO_CORPUS_SYMBOL_TIMEOUT_SECS" (toString n)) p =
        .ok { c with symbolSeconds := n }) ∧
    ∀ h : Host, c.WaitsAt h ∧ (h.uptime.nanos < 1000000000 →
      (h.CanWait c.compileLimit ↔ h.uptime.seconds + c.compileSeconds.toNat < 2 ^ 63) ∧
      (h.CanWait c.symbolLimit ↔ h.uptime.seconds + c.symbolSeconds.toNat < 2 ^ 63)) := by
  have hlimit : ∀ seconds n : Nat, seconds + n ≤ Duration.clockLimit ↔ seconds + n < 2 ^ 63 := by
    intro seconds n
    rw [show Duration.clockLimit = 2 ^ 63 - 1 by decide]
    omega
  refine ⟨Config.load_every_limit hload, fun h => ⟨c.waitsAt h, fun hnanos => ⟨?_, ?_⟩⟩⟩
  · exact (Host.canWait_ofSeconds_iff hnanos _).trans (hlimit _ _)
  · exact (Host.canWait_ofSeconds_iff hnanos _).trans (hlimit _ _)

/-- A machine with a compiler and a lister, up for an hour, and a configuration file. -/
def machineWithTools (settings : String) : Host :=
  let script : Entry := .file (.bytes (Text.bytesOf "#!/bin/sh\nexit 0\n")) true
  ⟨⟨[(["c.json"], .file (.bytes (Text.bytesOf settings)) false), (["bin"], .directory),
    (["bin", "gcc"], script), (["bin", "readelf"], script)]⟩, [], [("PATH", "/bin")], ⟨3600, 0⟩, "", 4, .empty⟩

/-- The limits of the standard configuration are in reach, the largest ones are accepted beside them. -/
theorem standard_limits_end :
    let h := machineWithTools "\x7b\x7d"
    let c := Config.standard
    let k := Tools.compiler ⟨Architecture.catalog.take 2⟩ c.compileSettings
    Config.load h ⟨"/c.json"⟩ = .ok c ∧ h.CanWait c.compileLimit ∧
      Config.load (h.setVariable "CRYPTO_CORPUS_COMPILE_TIMEOUT_SECS" (toString (18446744073709551615 : UInt64)))
        ⟨"/c.json"⟩ = .ok { c with compileSeconds := 18446744073709551615 } ∧
      ∃ outcome h', Runs (k.runCell "lib" ⟨"/out"⟩ ⟨"x86", "-O0", "f"⟩ (some ⟨"/f.c"⟩)) h outcome h' ∧
        k.Fits "lib" (⟨"x86", "-O0", "f"⟩, some ⟨"/f.c"⟩) outcome := by
  intro h c k
  have hload : Config.load h ⟨"/c.json"⟩ = .ok c := by decide +kernel
  obtain ⟨haccepted, hends⟩ := limits_in_reach_end hload
  obtain ⟨hwaits, hreach⟩ := hends h
  have hc : h.CanWait c.compileLimit := (hreach (by decide)).1.mpr (by decide +kernel)
  obtain ⟨outcome, h', hr, -⟩ := (hwaits.cell ⟨Architecture.catalog.take 2⟩ "lib" ⟨"/out"⟩
    ⟨"x86", "-O0", "f"⟩ (some ⟨"/f.c"⟩)).ends fun _ => hc
  exact ⟨hload, hc, (haccepted _).1, outcome, h', hr, hwaits.outcome _ _ _ _ _ _ _ hr⟩

/-- With the largest limits, which the check accepts, the first compile and the first listing end the run. -/
theorem largest_limits_cut_short :
    let h := machineWithTools
      "\x7b\"compile_timeout_secs\":18446744073709551615,\"symbol_timeout_secs\":18446744073709551615\x7d"
    let c := { Config.standard with
      compileSeconds := 18446744073709551615, symbolSeconds := 18446744073709551615 }
    let k := Tools.compiler ⟨Architecture.catalog.take 2⟩ c.compileSettings
    Config.load h ⟨"/c.json"⟩ = .ok c ∧
      Registry.probe (Tools.hasCompiler h) = .ok ⟨Architecture.catalog.take 2⟩ ∧
      (k.runCell "lib" ⟨"/out"⟩ ⟨"x86", "-O0", "f"⟩ (some ⟨"/f.c"⟩)).run h =
        .error (.clockOverflow c.compileLimit) ∧
      ((Tools.lister "readelf" c.symbolLimit).read ⟨"/f.bin"⟩).run h = .error (.clockOverflow c.symbolLimit) := by
  intro h c k
  have hfind : ∀ name ∈ ["gcc", "readelf"], ∃ program, Tools.find h name = .ok program := by
    have hok : ∀ name ∈ ["gcc", "readelf"], (Tools.find h name).isOk = true := by decide +kernel
    intro name hn
    cases hf : Tools.find h name with
    | ok program => exact ⟨program, rfl⟩
    | error e =>
      have := hok name hn
      rw [hf] at this
      cases this
  have hfar : ¬ h.CanWait c.compileLimit ∧ ¬ h.CanWait c.symbolLimit := by decide +kernel
  refine ⟨by decide +kernel, by decide +kernel, ?_, ?_⟩
  · exact (Compiler.runCell_waits _ c.compileSettings "lib" ⟨"/out"⟩ ⟨"x86", "-O0", "f"⟩ (some ⟨"/f.c"⟩) h).cut_iff.mpr
      ⟨⟨_, rfl, by decide +kernel, hfind "gcc" (by decide)⟩, hfar.1⟩
  · exact (ListingTool.read_waits "readelf" c.symbolLimit ⟨"/f.bin"⟩ h).cut_iff.mpr
      ⟨⟨by decide +kernel, hfind "readelf" (by decide)⟩, hfar.2⟩

end CipherCorpus
