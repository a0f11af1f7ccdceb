import CipherCorpus.Proofs.Compile.Matrix
import CipherCorpus.Proofs.Compile.OutputNames
import CipherCorpus.Proofs.FileTree.Home
import CipherCorpus.Proofs.Sources.Search

/-!
# Binaries keep the bytes that were hashed

A runner that touches only the file after `-o` changes, for one cell, only the binary of that cell
(`runCell_changes`), and for a library only its own directory (`runMatrix_changes`).  When the output
names of the cells differ, every binary has one writer, and what was measured and hashed right after its
compile is still there when all cells are built (`buildCells_kept`), and until something else changes at
its key (`Kept.of_changes`).
-/

namespace CipherCorpus

open FileTree CipherCorpus.Path Level
open Archive (under)

variable {root : Path} {home : Key} {t t' : FileTree} {S : Key → Prop} {a : Artifact} {h h' : Host}

/-- A runner touches only the file that a call names after `-o`. -/
def Runner.TouchesOutput (run : Runner) : Prop :=
  ∀ call h answer h', Runs (run call) h answer h' → h.TouchesOnly call.output h'

theorem Runner.writing_touches (data : List UInt8) : (writing data).TouchesOutput := by
  intro call h answer h' hr
  obtain ⟨u, h1, hw, hp⟩ := runs_bind.mp hr
  obtain ⟨-, rfl⟩ := runs_pure.mp hp
  obtain rfl := runs_modify.mp hw
  split
  · next files hok => exact Host.touchesOnly_write hok
  · exact h.touchesOnly_refl _

/-- The names of the binary of a cell under the root of a dataset. -/
def binaryNames (library : String) (cell : Cell) : List String :=
  ["binaries", library, binaryName library cell.function cell.architecture cell.optimization]

/-- The binary of an artifact lies where its cell is compiled to, by names of entries. -/
structure Placed (root : Path) (a : Artifact) : Prop where
  names : ∀ n ∈ binaryNames a.library a.cell, IsEntryName n.toList
  path : a.binaryPath = under root (binaryNames a.library a.cell)

/-- The binary of an artifact lies where its cell was compiled to, and holds what was measured. -/
structure Kept (root : Path) (home : Key) (t : FileTree) (a : Artifact) : Prop
    extends Placed root a where
  text : a.binaryPath.text.toList.any (·.toNat == 0) = false
  file : ∃ body executable,
    Scans t true home (binaryNames a.library a.cell)
      (.place (.present (home ++ binaryNames a.library a.cell) (.file body executable))) ∧
    a.size = UInt64.ofNat body.data.length ∧ a.md5 = Digest.Md5.text body.data

/-! ## Names -/

theorem isEntryName_binaryName {library : String} {cell : Cell} (hl : '/' ∉ library.toList)
    (hf : '/' ∉ cell.function.toList) (ha : '/' ∉ cell.architecture.toList)
    (ho : '/' ∉ cell.optimization.toList) :
    IsEntryName (binaryName library cell.function cell.architecture cell.optimization).toList := by
  have hk : '/' ∉ Text.replaceChar '_' '-' library.toList := fun hm =>
    (Text.mem_of_mem_replaceChar hm).elim (by decide) hl
  rw [toList_binaryName]
  exact isEntryName_entryName hk hf ha ho

theorem isEntryName_binaryNames {library : String} {cell : Cell} (hl : IsEntryName library.toList)
    (hf : '/' ∉ cell.function.toList) (ha : '/' ∉ cell.architecture.toList)
    (ho : '/' ∉ cell.optimization.toList) :
    ∀ n ∈ binaryNames library cell, IsEntryName n.toList :=
  List.forall_mem_cons.mpr ⟨by decide, List.forall_mem_cons.mpr ⟨hl,
    List.forall_mem_singleton.mpr (isEntryName_binaryName hl.1 hf ha ho)⟩⟩

/-- What a scan looks up stays when nothing changes at it. -/
theorem FileTree.Scans.of_changes {f : Bool} {place k : Key} {ns : List String} {e : Entry}
    (hc : ChangesOnly S t t') (hn : ∀ n ∈ ns, IsEntryName n.toList)
    (hout : ∀ m, m ≠ [] → m <+: ns → ¬ S (place ++ m))
    (h : Scans t f place ns (.place (.present k e))) : Scans t' f place ns (.place (.present k e)) := by
  induction ns generalizing place with
  | nil =>
    cases h
    exact .done _
  | cons x rest ih =>
    have hx : ¬ S (place ++ [x]) := hout [x] (by simp) (by simp)
    cases h with
    | here => exact absurd rfl (hn "." List.mem_cons_self).2.2.1
    | up => exact absurd rfl (hn ".." List.mem_cons_self).2.2.2
    | file hl hg => exact .file hl (hc.get?_eq hx hg)
    | lastLink hl hg hf => exact .lastLink hl (hc.get?_eq hx hg) hf
    | directory hl hg h =>
      refine .directory hl (hc.get?_eq hx hg) (ih (fun n hm => hn n (List.mem_cons_of_mem _ hm))
        (fun m hm hp => ?_) h)
      rw [List.append_assoc]
      exact hout (x :: m) (by simp) ((List.prefix_cons_inj x).mpr hp)

/-- A binary is kept by what changes nothing at its key or above it under the root. -/
theorem Kept.of_changes (hk : Kept root home t a) (hc : ChangesOnly S t t')
    (hout : ∀ m, m ≠ [] → m <+: binaryNames a.library a.cell → ¬ S (home ++ m)) :
    Kept root home t' a := by
  obtain ⟨body, x, hs, hrest⟩ := hk.file
  exact ⟨hk.toPlaced, hk.text, body, x, hs.of_changes hc hk.names hout, hrest⟩

/-- A kept binary is read as it was hashed. -/
theorem Kept.read (hk : Kept root home h.files a) (hh : Home root home h)
    (hl : Leads h.files h.cwd root home) : ∃ data, h.read a.binaryPath = .ok data ∧
      a.size = UInt64.ofNat data.length ∧ a.md5 = Digest.Md5.text data := by
  have hn := hk.names
  have hne : binaryNames a.library a.cell ≠ [] := by simp [binaryNames]
  obtain ⟨body, x, hs, hsize, hmd5⟩ := hk.file
  refine ⟨body.data, ?_, hsize, hmd5⟩
  have htext := hk.text
  rw [hk.path] at htext
  have hr := (hh.resolve_iff (f := true) hn hne).mpr ⟨htext, hl, hs⟩
  unfold Host.read FileTree.read openRead stat
  rw [hk.path, hr]
  rfl

namespace Compiler

variable {c : Compiler} {library : String}

/-! ## One cell -/

/-- A path that stands for a file on a command line: it is not dropped, and is no flag for the output. -/
def IsFileArgument (p : Path) : Prop := p.text ≠ "" ∧ p.text ≠ "-o"

theorem isFileArgument_of_sep_mem {p : Path} (hp : '/' ∈ p.text.toList) : IsFileArgument p := by
  refine ⟨fun e => ?_, fun e => ?_⟩
  · rw [e] at hp
    cases hp
  · rw [e] at hp
    exact absurd hp (by decide)

theorem output_callFor (profile : Architecture) (level compiler : String) {source output : Path}
    (hs : IsFileArgument source) (ho : IsFileArgument output) :
    (c.callFor profile level compiler source output).output = output := by
  obtain ⟨hs0, hso⟩ := hs
  obtain ⟨ho0, hoo⟩ := ho
  have hargs : ∃ pre, (commandFor profile level compiler source output []).2 =
      pre ++ ["-o", output.text, source.text] := by
    unfold commandFor
    rcases compilerFor profile compiler with ⟨program, target⟩
    refine ⟨(level :: profile.flags ++ [target, "-static", "-fno-stack-protector"]).filter (· != ""),
      ?_⟩
    have hlast : ["-o", output.text, source.text].filter (· != "") =
        ["-o", output.text, source.text] := by
      simp [hs0, ho0]
    refine Eq.trans ?_ (congrArg (_ ++ ·) hlast)
    rw [← List.filter_append]
    simp only [List.append_assoc, List.append_nil, List.cons_append, List.nil_append]
  obtain ⟨pre, hpre⟩ := hargs
  unfold Invocation.output callFor
  rw [hpre]
  simp [hso, hoo]

/-- A compile touches only its output, whether it succeeds or not. -/
theorem compileSource_touches (ht : c.runner.TouchesOutput) {source output : Path}
    (hs : '/' ∈ source.text.toList) (ho : '/' ∈ output.text.toList)
    {architecture level compiler : String} {compiled : Bool}
    (hr : Runs (c.compileSource source output architecture level compiler []) h compiled h') :
    h.TouchesOnly output h' := by
  rcases runs_compileSource.mp hr with ⟨-, -, rfl⟩ | ⟨profile, answer, g, -, hcall, -, rfl⟩
  · exact h'.touchesOnly_refl _
  · have htouch := ht _ _ _ _ hcall
    rw [output_callFor profile level compiler (isFileArgument_of_sep_mem hs)
      (isFileArgument_of_sep_mem ho)] at htouch
    exact ⟨htouch.cwd, htouch.entry, htouch.links⟩

/-- What is measured is kept. -/
theorem kept_of_measure {cell : Cell} {source : Path}
    (hh : Home root home h) (hn : ∀ n ∈ binaryNames library cell, IsEntryName n.toList)
    (hr : Runs (c.measure library cell source (under root (binaryNames library cell))) h (.built a) h') :
    Kept root home h.files a := by
  obtain ⟨-, size, md5, hs, hm, rfl⟩ := built_of_measure hr
  have hne : binaryNames library cell ≠ [] := by simp [binaryNames]
  unfold sizeOf? at hs
  unfold md5Of Host.read FileTree.read openRead at hm
  cases ht : h.files.stat h.cwd (under root (binaryNames library cell)) with
  | error e =>
    rw [ht] at hs
    cases hs
  | ok r =>
    obtain ⟨key, e⟩ := r
    rw [ht] at hs hm
    cases e with
    | directory => cases hm
    | link target => cases hm
    | file body x =>
      have hres := stat_eq ht
      have hkey : key = home ++ binaryNames library cell := hh.key_eq hn hne hres
      subst hkey
      obtain ⟨htext, -, hscan⟩ := (hh.resolve_iff hn hne).mp hres
      refine ⟨⟨?_, ?_⟩, ?_, ?_⟩
      · rw [artifactOf_library, artifactOf_cell]
        exact hn
      · rw [artifactOf_binaryPath, artifactOf_library, artifactOf_cell]
      · rw [artifactOf_binaryPath]
        exact htext
      · rw [artifactOf_library, artifactOf_cell, artifactOf_size, artifactOf_md5]
        exact ⟨body, x, hscan, (Option.some.inj hs).symm, (Except.ok.inj hm).symm⟩

theorem binaryPath_under (root : Path) (library : String) (cell : Cell) :
    binaryPath library (under root ["binaries", library]) cell =
      under root (binaryNames library cell) := by
  unfold binaryPath binaryNames
  simp only [under_cons, under_nil]

theorem sep_mem_binary {cell : Cell} (hn : ∀ n ∈ binaryNames library cell, IsEntryName n.toList)
    (root : Path) : '/' ∈ (under root (binaryNames library cell)).text.toList := by
  have hl : library ∈ binaryNames library cell := by simp [binaryNames]
  have hb : binaryName library cell.function cell.architecture cell.optimization ∈
      binaryNames library cell := by simp [binaryNames]
  unfold binaryNames
  simp only [under_cons, under_nil]
  exact sep_mem_child_child _ (hn _ hl) (hn _ hb)

/-- Building a cell changes at most the binary of the cell, which is kept if it is built. -/
theorem runCell_changes (ht : c.runner.TouchesOutput) {cell : Cell} {source? : Option Path}
    {outcome : CellResult} (hh : Home root home h)
    (hn : ∀ n ∈ binaryNames library cell, IsEntryName n.toList)
    (hs : ∀ source ∈ source?, '/' ∈ source.text.toList)
    (hr : Runs (c.runCell library (under root ["binaries", library]) cell source?) h outcome h') :
    ChangesFiles (· = home ++ binaryNames library cell) h h' ∧
      ∀ a, outcome = .built a → Kept root home h'.files a := by
  unfold runCell at hr
  cases source? with
  | none =>
    obtain ⟨rfl, rfl⟩ := runs_pure.mp hr
    exact ⟨.refl _ _, fun a ha => by cases ha⟩
  | some source =>
    dsimp only at hr
    rw [binaryPath_under] at hr
    obtain ⟨compiled, h1, hc, hr⟩ := runs_bind.mp hr
    have hchange := hh.touch hn (by simp [binaryNames])
      (compileSource_touches ht (hs source rfl) (sep_mem_binary hn root) hc)
    cases compiled with
    | false =>
      obtain ⟨rfl, rfl⟩ := runs_pure.mp hr
      exact ⟨hchange, fun a ha => by cases ha⟩
    | true =>
      obtain ⟨rfl, -⟩ := runs_measure.mp hr
      refine ⟨hchange, fun a ha => ?_⟩
      subst ha
      exact kept_of_measure (hh.of_changes hchange) hn hr

/-! ## All cells of a library -/

/-- Where the jobs of a library read and write. -/
def Inside (library : String) (job : Job) : Prop :=
  (∀ n ∈ binaryNames library job.1, IsEntryName n.toList) ∧ ∀ source ∈ job.2, '/' ∈ source.text.toList

/-- An artifact of a grown report is the new one or an old one. -/
theorem get?_add {report : MatrixResult} {cell cell' : Cell} {outcome : CellResult}
    (hg : (report.add cell outcome).units.get? cell' = some a) :
    outcome = .built a ∨ report.units.get? cell' = some a := by
  cases outcome with
  | failed => exact Or.inr hg
  | missingSource => exact Or.inr hg
  | built b =>
    rw [MatrixResult.add, OrderedMap.get?_insert] at hg
    split at hg
    · exact Or.inl (congrArg CellResult.built (Option.some.inj hg))
    · exact Or.inr hg

/-- A run of cells builds the first one and goes on. -/
theorem buildCells_cons (ht : c.runner.TouchesOutput) {total done : Nat} {job : Job} {jobs : List Job}
    {report r : MatrixResult} (hh : Home root home h) (hj : Inside library job)
    (hr : Runs (c.buildCells library (under root ["binaries", library]) total done report (job :: jobs))
      h r h') :
    ∃ outcome h1, ChangesFiles (· = home ++ binaryNames library job.1) h h1 ∧
      c.Fits library job outcome ∧ (∀ a, outcome = .built a → Kept root home h1.files a) ∧
      Runs (c.buildCells library (under root ["binaries", library]) total (done + 1)
        (report.add job.1 outcome) jobs) h1 r h' := by
  obtain ⟨cell, source?⟩ := job
  unfold buildCells at hr
  obtain ⟨outcome, h1, hcell, hr⟩ := runs_bind.mp hr
  obtain ⟨u, h2, hfin, hr⟩ := runs_bind.mp hr
  obtain ⟨hc, hbuilt⟩ := runCell_changes ht hh hj.1 hj.2 hcell
  have hsame : h2.files = h1.files ∧ h2.cwd = h1.cwd := by
    rw [runs_modify.mp hfin]
    exact ⟨rfl, rfl⟩
  refine ⟨outcome, h2, ⟨hsame.2.trans hc.cwd, ?_⟩, runCell_fits hcell, ?_, hr⟩
  · rw [hsame.1]
    exact hc.files
  · rw [hsame.1]
    exact hbuilt

/-- **The cells of a library are built in its own directory.** -/
theorem buildCells_changes (ht : c.runner.TouchesOutput) {total : Nat} (jobs : List Job) :
    ∀ {done : Nat} {report r : MatrixResult} {h h' : Host}, Home root home h →
      Runs (c.buildCells library (under root ["binaries", library]) total done report jobs) h r h' →
      (∀ job ∈ jobs, Inside library job) →
      (∀ cell a, report.units.get? cell = some a → Placed root a) →
      ChangesFiles (home ++ ["binaries", library] <+: ·) h h' ∧
        ∀ cell a, r.units.get? cell = some a → Placed root a := by
  induction jobs with
  | nil =>
    intro done report r h h' _ hr _ hp
    unfold buildCells at hr
    obtain ⟨rfl, rfl⟩ := runs_pure.mp hr
    exact ⟨.refl _ _, hp⟩
  | cons job rest ih =>
    intro done report r h h' hh hr hj hp
    obtain ⟨outcome, h1, hc, -, hbuilt, hr⟩ := buildCells_cons ht hh (hj _ List.mem_cons_self) hr
    obtain ⟨hc', hplaced⟩ := ih (hh.of_changes hc) hr (fun job hm => hj job (List.mem_cons_of_mem _ hm))
      fun cell a hg => (get?_add hg).elim (fun he => (hbuilt a he).toPlaced) (hp cell a)
    refine ⟨(hc.mono fun k hk => ?_).trans hc', hplaced⟩
    rw [hk]
    exact (List.prefix_append_right_inj home).mpr ⟨[_], rfl⟩

/-- No two cells of a library have the same output name. -/
def NamesDistinct (c : Compiler) (library : String) (functions : List String) : Prop :=
  ∀ x ∈ c.cellsFor functions, ∀ y ∈ c.cellsFor functions,
    binaryName library x.function x.architecture x.optimization =
      binaryName library y.function y.architecture y.optimization → x = y

instance (c : Compiler) (library : String) (functions : List String) :
    Decidable (c.NamesDistinct library functions) :=
  inferInstanceAs (Decidable (∀ x ∈ c.cellsFor functions, ∀ y ∈ c.cellsFor functions, _ → x = y))

theorem isEntryName_of_mem_cellsFor {accepts : Architecture → Bool}
    (hp : Registry.probe accepts = .ok c.registry) {functions : List String}
    (hl : IsEntryName library.toList) (hf : ∀ s ∈ functions ++ c.options.levels, '/' ∉ s.toList)
    {cell : Cell} (hc : cell ∈ c.cellsFor functions) :
    ∀ n ∈ binaryNames library cell, IsEntryName n.toList := by
  obtain ⟨ha, ho, hfun⟩ := mem_cells.mp hc
  exact isEntryName_binaryNames hl (hf _ (List.mem_append_left _ (mem_distinct.mp hfun)))
    (Registry.notMem_id_of_probe hp ha).2 (hf _ (List.mem_append_right _ (mem_distinct.mp ho)))

/-- The jobs of a library read and write where they should. -/
theorem inside_of_mem_jobsFor {accepts : Architecture → Bool}
    (hp : Registry.probe accepts = .ok c.registry) {functions : List String} {sourceDir : Path}
    (hl : IsEntryName library.toList) (hf : ∀ s ∈ functions ++ c.options.levels, '/' ∉ s.toList)
    (hs : '/' ∈ sourceDir.text.toList) {job : Job} (hj : job ∈ c.jobsFor h sourceDir functions) :
    Inside library job := by
  have hcell : job.1 ∈ c.cellsFor functions :=
    jobsFor_cells c h sourceDir functions ▸ List.mem_map_of_mem hj
  refine ⟨isEntryName_of_mem_cellsFor hp hl hf hcell, fun source hsrc => ?_⟩
  obtain ⟨cell, -, rfl⟩ := List.mem_map.mp hj
  exact Sources.sep_mem_find? hs hsrc

/-- **A library is compiled in its own directory.** -/
theorem runMatrix_changes {accepts : Architecture → Bool}
    (hp : Registry.probe accepts = .ok c.registry) (ht : c.runner.TouchesOutput)
    {functions : List String} {sourceDir : Path} (hh : Home root home h)
    (hl : IsEntryName library.toList) (hf : ∀ s ∈ functions ++ c.options.levels, '/' ∉ s.toList)
    (hs : '/' ∈ sourceDir.text.toList) {r : Except MatrixFailure MatrixResult}
    (hr : Runs (c.runMatrix library sourceDir functions (under root ["binaries", library])).outcome
      h r h') :
    ChangesFiles (home ++ ["binaries", library] <+: ·) h h' ∧
      ∀ report, r = .ok report → ∀ a ∈ report.units.values, Placed root a := by
  rcases runs_runMatrix.mp hr with ⟨e, -, rfl, rfl⟩ | ⟨files, hmake, hrest⟩
  · exact ⟨.refl _ _, nofun⟩
  · have hc : ChangesFiles (home ++ ["binaries", library] <+: ·) h { h with files := files } :=
      ⟨rfl, (changesOnly_makeDirectories hmake).mono nofun⟩
    rcases hrest with ⟨-, rfl, rfl⟩ | ⟨-, report, rfl, hrun⟩
    · exact ⟨hc, nofun⟩
    · obtain ⟨hc', hplaced⟩ := buildCells_changes ht _ (hh.of_changes hc) hrun
        (fun _ => inside_of_mem_jobsFor hp hl hf hs) nofun
      refine ⟨hc.trans hc', fun report' hrep a ha => ?_⟩
      cases hrep
      obtain ⟨cell, hg⟩ := OrderedMap.mem_values.mp ha
      exact hplaced cell a hg

end Compiler

end CipherCorpus
