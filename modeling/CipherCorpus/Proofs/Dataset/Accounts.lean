import CipherCorpus.Proofs.Dataset.Entries
import CipherCorpus.Proofs.Manifest.File
import CipherCorpus.Proofs.Sources.Recovery

/-!
# What a build tells about its libraries

A library comes to a report of its matrix, or to none (`Reports`).  The summary has an account of each
library of the configuration (`Accounts`), the manifest names the libraries with a report, and the record
of the run is the sum of the accounts (`Totals`):

    Runs (b.buildLibraries m libraries) h (ss, m') h'  →
      b.Reports h libraries reports h'  and  ss accounts for libraries and reports
-/

namespace CipherCorpus

open Dataset

/-! ## Sums over libraries -/

theorem total_map_add {α : Type} (f g : α → Nat) (as : List α) :
    total (as.map fun a => f a + g a) = total (as.map f) + total (as.map g) := by
  induction as with
  | nil => rfl
  | cons a rest ih =>
    rw [List.map_cons, List.map_cons, List.map_cons, total_cons, total_cons, total_cons, ih]
    omega

theorem total_eq_zero_iff (ns : List Nat) : total ns = 0 ↔ ∀ n ∈ ns, n = 0 := by
  induction ns with
  | nil => simp
  | cons n rest ih => rw [total_cons, Nat.add_eq_zero_iff, ih, List.forall_mem_cons]

/-- The record of a run is the sum of what is told of its libraries, and its status agrees with that. -/
structure Dataset.Totals (libraries : List LibraryReport) (run : BuildRun) : Prop where
  sum : run.attempted = run.succeeded + run.failed
  attempted : run.attempted = UInt64.ofNat (total (libraries.map (·.attempted)))
  succeeded : run.succeeded = UInt64.ofNat (total (libraries.map (·.succeeded)))
  failed : run.failed = UInt64.ofNat (total (libraries.map fun s => s.failed + s.missingSource))
  builtLibraries : run.builtLibraries = UInt64.ofNat (libraries.countP (·.status = .built))
  someBuilt : run.status ≠ .failed
  allBuilt : run.status = .succeeded ↔ ∀ s ∈ libraries, s.status = .built ∧ s.attempted = s.succeeded

theorem Dataset.Summary.totals {s : Summary}
    (hsum : ∀ l ∈ s.libraries, l.attempted = l.succeeded + l.failed + l.missingSource)
    (hbuilt : s.builtLibraries ≠ 0) (hash : Option String) : Totals s.libraries (s.run hash) := by
  have hattempted : s.attempted = s.succeeded + s.failed := by
    rw [Summary.attempted, Summary.succeeded, Summary.failed, ← total_map_add]
    exact congrArg total (List.map_congr_left fun l hl => (hsum l hl).trans (Nat.add_assoc ..))
  refine ⟨?_, rfl, rfl, rfl, rfl, ?_, ?_⟩
  · show UInt64.ofNat s.attempted = UInt64.ofNat s.succeeded + UInt64.ofNat s.failed
    rw [hattempted, UInt64.ofNat_add]
  · show s.status ≠ .failed
    rw [Summary.status, if_neg hbuilt]
    split <;> exact nofun
  · have hall : s.builtLibraries = s.libraries.length ∧ s.failed = 0 ↔
        ∀ l ∈ s.libraries, l.status = .built ∧ l.attempted = l.succeeded := by
      rw [Summary.failed, total_eq_zero_iff, List.forall_mem_map, Summary.builtLibraries,
        List.countP_eq_length, ← forall₂_and]
      refine forall₂_congr fun l hl => and_congr (by simp) ?_
      rw [hsum l hl]
      omega
    show s.status = .succeeded ↔ _
    rw [Summary.status, if_neg hbuilt, ← hall]
    split
    · next h => exact iff_of_true rfl h
    · next h => exact iff_of_false nofun h

/-! ## The report of a matrix -/

/-- A report has as many cells as its matrix, each of them in one of its counts. -/
theorem Compiler.runMatrix_attempted {c : Compiler} {library : String} {outputDir : Path}
    {accepts : Architecture → Bool} (hp : Registry.probe accepts = .ok c.registry) {sourceDir : Path}
    {functions : List String} {h h' : Host} {report : MatrixResult}
    (hr : Runs (c.runMatrix library sourceDir functions outputDir).outcome h (.ok report) h') :
    report.attempted = (c.cellsFor functions).length ∧
      report.attempted = report.succeeded + report.failed + report.missingSource := by
  rcases runs_runMatrix.mp hr with ⟨e, -, he, -⟩ | ⟨files, -, ⟨-, -, he⟩ | ⟨-, r, he, hb⟩⟩
  · cases he
  · cases he
  · cases he
    obtain ⟨hc, -, hattempted⟩ := buildCells_counts _ hb (.nil ..) (by
      rw [List.nil_append, jobsFor_cells]
      exact nodup_cellsFor hp functions)
    have hlength : (c.jobsFor { h with files := files } sourceDir functions).length =
        (c.cellsFor functions).length := List.length_map ..
    refine ⟨hattempted, hattempted.trans ?_⟩
    rw [hc.sum, List.nil_append, hlength]

namespace DatasetBuilder

variable {b : DatasetBuilder}

/-! ## Accounts of libraries -/

/-- What is told of a library: the counts of its report, or zeros when it came to none. -/
structure Accounts (b : DatasetBuilder) (l : Library) (report? : Option MatrixResult) (s : LibraryReport) :
    Prop where
  name : s.name = l.name
  functions : s.functions = (functionsOf l).length
  attempted : s.attempted = report?.elim 0 fun _ => (b.compiler.cellsFor (functionsOf l)).length
  succeeded : s.succeeded = report?.elim 0 (·.succeeded)
  failed : s.failed = report?.elim 0 (·.failed)
  missingSource : s.missingSource = report?.elim 0 (·.missingSource)
  sum : s.attempted = s.succeeded + s.failed + s.missingSource
  built_iff : s.status = .built ↔ 0 < s.succeeded
  nothingBuilt_iff : s.status = .nothingBuilt ↔ report?.isSome ∧ s.succeeded = 0

theorem accounts_withoutBinaries (l : Library) {status : LibraryOutcome} (hb : status ≠ .built)
    (hn : status ≠ .nothingBuilt) :
    b.Accounts l none (.withoutBinaries l.name (functionsOf l).length status) :=
  ⟨rfl, rfl, rfl, rfl, rfl, rfl, rfl, iff_of_false hb (Nat.lt_irrefl 0),
    iff_of_false hn fun h => Bool.false_ne_true h.1⟩

theorem accounts_ofReport {accepts : Architecture → Bool}
    (hp : Registry.probe accepts = .ok b.compiler.registry) {l : Library} {sources : Path} {h h' : Host}
    {report : MatrixResult} (hr : Runs (b.compile l sources).outcome h (.ok report) h') :
    b.Accounts l (some report) (.ofReport l.name (functionsOf l).length report) := by
  obtain ⟨hattempted, hsum⟩ := Compiler.runMatrix_attempted hp hr
  refine ⟨rfl, rfl, hattempted, rfl, rfl, rfl, hsum, ?_, ?_⟩
  · rw [LibraryReport.ofReport]
    dsimp only
    split
    · next hs => exact iff_of_true rfl hs
    · next hs => exact iff_of_false nofun hs
  · rw [LibraryReport.ofReport]
    dsimp only
    split
    · next hs => exact iff_of_false nofun fun h => Nat.ne_of_gt hs h.2
    · next hs => exact iff_of_true rfl ⟨rfl, Nat.eq_zero_of_not_pos hs⟩

theorem Accounts.built_iff_artifacts {l : Library} {report? : Option MatrixResult} {s : LibraryReport}
    (ha : b.Accounts l report? s) : s.status = .built ↔ artifactsOf report? ≠ [] := by
  rw [ha.built_iff, ha.succeeded, ← List.length_pos_iff]
  cases report? with
  | none => exact Iff.rfl
  | some report => rw [length_artifactsOf, Option.elim_some]

/-- Each library with its report has its account. -/
abbrev AccountsForAll (b : DatasetBuilder) (libraries : List Library) (reports : List (Option MatrixResult))
    (ss : List LibraryReport) : Prop :=
  List.Forall₂ (fun lr s => b.Accounts lr.1 lr.2 s) (libraries.zip reports) ss

/-- The libraries that came to a report. -/
def withReport (libraries : List Library) (reports : List (Option MatrixResult)) : List Library :=
  ((libraries.zip reports).filter (·.2.isSome)).map (·.1)

theorem mem_keys_add {m : Manifest} {library name : String} {as : List Artifact} :
    name ∈ (m.add library as).libraries.keys ↔ name = library ∨ name ∈ m.libraries.keys := by
  simp only [OrderedMap.mem_keys]
  rw [Manifest.add, OrderedMap.get?_insert]
  split
  · next he => exact iff_of_true ⟨_, rfl⟩ (Or.inl he)
  · next he => exact (or_iff_right he).symm

/-- Libraries that are built one after the other come to reports: the manifest gets the names of those
with a report, and each of them has its account. -/
theorem buildLibraries_reports {accepts : Architecture → Bool}
    (hp : Registry.probe accepts = .ok b.compiler.registry) (libraries : List Library) :
    ∀ {m m' : Manifest} {ss : List LibraryReport} {h h' : Host},
      Runs (b.buildLibraries m libraries) h (ss, m') h' →
      ∃ reports, b.Reports h libraries reports h' ∧ b.AccountsForAll libraries reports ss ∧
        ∀ name, name ∈ m'.libraries.keys ↔
          name ∈ m.libraries.keys ∨ name ∈ (withReport libraries reports).map (·.name) := by
  induction libraries with
  | nil =>
    intro m m' ss h h' hr
    obtain ⟨rfl, rfl, rfl⟩ := runs_buildLibraries_nil.mp hr
    exact ⟨[], .nil _, .nil, fun name => (or_iff_left List.not_mem_nil).symm⟩
  | cons l rest ih =>
    intro m m' ss h h' hr
    obtain ⟨s, m1, h1, more, hl, hrest, rfl⟩ := runs_buildLibraries_cons.mp hr
    obtain ⟨reports, hreps, hacc, hnames⟩ := ih hrest
    rcases runs_buildLibrary.mp hl with ⟨e, ha, rfl, rfl⟩ | ⟨sources, h2, ha, hc⟩
    · exact ⟨none :: reports, .unavailable ha hreps,
        .cons (accounts_withoutBinaries l nofun nofun) hacc, hnames⟩
    · rcases hc with ⟨e, hc, rfl, rfl⟩ | ⟨report, hc, rfl, rfl⟩
      · exact ⟨none :: reports, .failed ha hc hreps,
          .cons (accounts_withoutBinaries l nofun nofun) hacc, hnames⟩
      · refine ⟨some report :: reports, .compiled ha hc hreps, .cons (accounts_ofReport hp hc) hacc,
          fun name => ?_⟩
        rw [hnames name, mem_keys_add]
        show _ ↔ _ ∨ name ∈ l.name :: (withReport rest reports).map (·.name)
        rw [List.mem_cons, or_assoc, or_left_comm]

theorem AccountsForAll.map_name {libraries : List Library} {reports : List (Option MatrixResult)}
    {ss : List LibraryReport} (ha : b.AccountsForAll libraries reports ss)
    (hl : libraries.length = reports.length) : ss.map (·.name) = libraries.map (·.name) := by
  induction libraries generalizing reports ss with
  | nil =>
    cases ha
    rfl
  | cons l rest ih =>
    cases reports with
    | nil => cases hl
    | cons r reports =>
      cases ha with
      | cons h hrest => rw [List.map_cons, List.map_cons, h.name, ih hrest (Nat.succ.inj hl)]

theorem AccountsForAll.sum {libraries : List Library} {reports : List (Option MatrixResult)}
    {ss : List LibraryReport} (ha : b.AccountsForAll libraries reports ss) :
    ∀ s ∈ ss, s.attempted = s.succeeded + s.failed + s.missingSource := by
  unfold AccountsForAll at ha
  generalize libraries.zip reports = lrs at ha
  induction ha with
  | nil => exact List.forall_mem_nil _
  | cons h _ ih => exact List.forall_mem_cons.mpr ⟨h.sum, ih⟩

/-- A library was built when one of the reports has an artifact. -/
theorem AccountsForAll.builtLibraries_eq_zero {libraries : List Library}
    {reports : List (Option MatrixResult)} {ss : List LibraryReport}
    (ha : b.AccountsForAll libraries reports ss) (hl : libraries.length = reports.length) :
    ss.countP (·.status = .built) = 0 ↔ ∀ report? ∈ reports, artifactsOf report? = [] := by
  induction libraries generalizing reports ss with
  | nil =>
    obtain rfl := List.length_eq_zero_iff.mp hl.symm
    cases ha
    exact iff_of_true rfl (List.forall_mem_nil _)
  | cons l rest ih =>
    cases reports with
    | nil => cases hl
    | cons r reports =>
      cases ha with
      | @cons _ s _ ss h hrest =>
        rw [List.countP_cons, Nat.add_eq_zero_iff, ih hrest (Nat.succ.inj hl), List.forall_mem_cons,
          and_comm]
        refine and_congr_left fun _ => ?_
        have hs := h.built_iff_artifacts
        dsimp only at hs
        by_cases hb : s.status = .built
        · simp [hb, hs.mp hb]
        · simp [hb, not_not.mp (mt hs.mpr hb)]

/-! ## Builds that come to an end -/

section Ends

variable (ha : b.compiler.runner.Answers) (hf : ∀ url p, (b.sources.fetcher url p).Finishes)
include ha

theorem finishes_compile (l : Library) (sources : Path) : (b.compile l sources).Finishes := by
  intro h
  cases hd : h.files.makeDirectories h.cwd (b.layout.libraryBinaries l.name) with
  | error e => exact ⟨_, h, Compiler.runs_runMatrix.mpr (Or.inl ⟨e, hd, rfl, rfl⟩)⟩
  | ok files =>
    by_cases hw : h.threadLimit < b.compiler.options.jobs.toNat
    · exact ⟨_, _, Compiler.runs_runMatrix.mpr (Or.inr ⟨files, hd, Or.inl ⟨hw, rfl, rfl⟩⟩)⟩
    · obtain ⟨r, h', hr⟩ := Compiler.buildCells_ends ha l.name (b.layout.libraryBinaries l.name)
        (b.compiler.cellsFor (functionsOf l)).length
        (b.compiler.jobsFor { h with files := files } sources (functionsOf l)) 0
        ⟨l.name, .empty, (b.compiler.cellsFor (functionsOf l)).length, 0, 0⟩ { h with files := files }
      exact ⟨_, h', Compiler.runs_runMatrix.mpr
        (Or.inr ⟨files, hd, Or.inr ⟨Nat.le_of_not_lt hw, r, rfl, hr⟩⟩)⟩

include hf

theorem exists_runs_buildLibrary (l : Library) (m : Manifest) (h : Host) :
    ∃ r h', Runs (b.buildLibrary l m) h r h' := by
  obtain ⟨acquired, h1, hacquired⟩ : ∃ r h1, Runs (b.acquire l).outcome h r h1 := SourceCache.finishes_tree hf h
  cases acquired with
  | error e => exact ⟨_, h1, runs_buildLibrary.mpr (Or.inl ⟨e, hacquired, rfl, rfl⟩)⟩
  | ok sources =>
    obtain ⟨compiled, h2, hcompiled⟩ := finishes_compile ha l sources h1
    cases compiled with
    | error e =>
      exact ⟨_, h2, runs_buildLibrary.mpr (Or.inr ⟨sources, h1, hacquired, Or.inl ⟨e, hcompiled, rfl, rfl⟩⟩)⟩
    | ok report =>
      exact ⟨_, h2, runs_buildLibrary.mpr
        (Or.inr ⟨sources, h1, hacquired, Or.inr ⟨report, hcompiled, rfl, rfl⟩⟩)⟩

theorem exists_runs_buildLibraries (libraries : List Library) : ∀ (m : Manifest) (h : Host),
    ∃ r h', Runs (b.buildLibraries m libraries) h r h' := by
  induction libraries with
  | nil => exact fun m h => ⟨_, h, runs_buildLibraries_nil.mpr ⟨rfl, rfl, rfl⟩⟩
  | cons l rest ih =>
    intro m h
    obtain ⟨⟨s, m1⟩, h1, hl⟩ := exists_runs_buildLibrary ha hf l m h
    obtain ⟨⟨more, m'⟩, h', hrest⟩ := ih m1 h1
    exact ⟨_, h', runs_buildLibraries_cons.mpr ⟨s, m1, h1, more, hl, hrest, rfl⟩⟩

/-- With tools that answer, a build ends. -/
theorem finishes_build : b.build.Finishes := by
  have hsave : ∀ m : Manifest, (m.save b.layout.manifest).Finishes := by
    intro m
    unfold Manifest.save
    split
    · exact ((Attempt.finishes_change _).inWords _).bind fun _ => (Attempt.finishes_change _).inWords _
    · exact (Attempt.finishes_pure _).bind fun _ => (Attempt.finishes_change _).inWords _
  unfold build
  refine Attempt.finishes_get.bind fun h => ((Attempt.finishes_change _).inWords _).bind fun _ => ?_
  refine (Attempt.finishes_ofAction (exists_runs_buildLibraries ha hf _ _)).bind fun ⟨ss, m⟩ => ?_
  refine ((hsave m).inWords _).bind fun _ => Attempt.finishes_get.bind fun h' => ?_
  dsimp only
  split
  · exact Attempt.finishes_throw _
  · exact Attempt.finishes_pure _

end Ends

/-! ## Main result -/

/-- **What a build tells about its libraries.**  With tools that answer a build ends.  When the directory
of the binaries can be made and the manifest is saved, the saved manifest is loaded again, and it names
the libraries that came to a report.  The build fails exactly when none of the reports has an artifact,
otherwise it gives the manifest and a summary with one account for each library of the configuration, in
order; the record of the run is the sum of these accounts. -/
theorem build_accounts {accepts : Architecture → Bool}
    (hp : Registry.probe accepts = .ok b.compiler.registry) {h : Host} {files : FileTree}
    (hd : h.files.makeDirectories h.cwd b.layout.binaries = .ok files) :
    (b.compiler.runner.Answers → (∀ url p, (b.sources.fetcher url p).Finishes) →
      ∃ result h', Runs b.build.outcome h result h') ∧
    ∀ {result h'}, Runs b.build.outcome h result h' → (∀ e, result ≠ .error (.manifest e)) →
      ∃ reports h1 m, b.Reports { h with files := files } b.config.libraries reports h1 ∧
        Runs (Manifest.load b.layout.manifest).outcome h' (.ok m) h' ∧
        (∀ name, name ∈ m.libraries.keys ↔ name ∈ (withReport b.config.libraries reports).map (·.name)) ∧
        (result = .error .noLibrariesBuilt ↔ ∀ report? ∈ reports, artifactsOf report? = []) ∧
        (result = .error .noLibrariesBuilt ∨ ∃ s, result = .ok (m, s) ∧
          s.libraries.map (·.name) = b.config.libraries.map (·.name) ∧
          b.AccountsForAll b.config.libraries reports s.libraries ∧
          ∀ hash, Totals s.libraries (s.run hash)) := by
  refine ⟨fun ha hf => finishes_build ha hf h, fun {result h'} hr hsaved => ?_⟩
  rcases runs_build.mp hr with ⟨e, he, -, -⟩ | ⟨files', ss, m, h1, hmake, hb, hend⟩
  · cases hd.symm.trans he
  cases hd.symm.trans hmake
  obtain ⟨hsave, hresult⟩ := hend.resolve_left fun ⟨e, _, he⟩ => hsaved e he
  obtain ⟨reports, hreps, hacc, hnames⟩ := buildLibraries_reports hp _ hb
  have hlength := hreps.reported.length_eq
  have hnone : (b.summaryOf h h' ss).builtLibraries = 0 ↔ ∀ report? ∈ reports, artifactsOf report? = [] :=
    hacc.builtLibraries_eq_zero hlength
  refine ⟨reports, h1, m, hreps, Manifest.load_of_saved hsave,
    fun name => (hnames name).trans (or_iff_right List.not_mem_nil), ?_, ?_⟩
  · rw [← hnone, hresult]
    split
    · next hz => exact iff_of_true rfl hz
    · next hz => exact iff_of_false nofun hz
  · by_cases hz : (b.summaryOf h h' ss).builtLibraries = 0
    · exact Or.inl (hresult.trans (if_pos hz))
    · exact Or.inr ⟨b.summaryOf h h' ss, hresult.trans (if_neg hz), hacc.map_name hlength, hacc,
        Summary.totals hacc.sum hz⟩

/-- One library is built and one has no sources: both are told of, and the run is partly a success. -/
theorem unavailable_library_is_told :
    let b := offline [⟨"lib", none, none, some ["f"]⟩, ⟨"net", none, none, some ["g"]⟩]
    let h := hostWithCached ["lib"]
    Registry.probe (·.id == "x86") = .ok b.compiler.registry ∧
      ∃ files m s h', h.files.makeDirectories h.cwd b.layout.binaries = .ok files ∧
        Runs b.build.outcome h (.ok (m, s)) h' ∧ Runs (Manifest.load b.layout.manifest).outcome h' (.ok m) h' ∧
        s.libraries.map (·.name) = ["lib", "net"] ∧ s.libraries.map (·.attempted) = [1, 0] ∧
        Totals s.libraries (s.run none) ∧ (s.run none).status = .partly := by
  intro b h
  have hp : Registry.probe (·.id == "x86") = .ok b.compiler.registry := by decide
  obtain ⟨m, s, h', hr, hs⟩ := exists_of_yields (b := b) (h := h)
    (p := fun _ s _ => s.libraries.map (·.attempted) == [1, 0] && decide (s.status = .partly)) (by decide +kernel)
  rw [Bool.and_eq_true, beq_iff_eq, decide_eq_true_iff] at hs
  obtain ⟨files, -, -, -, hd, -⟩ := (runs_build.mp hr).resolve_left fun ⟨e, _, he, _⟩ => nomatch he
  obtain ⟨reports, h1, m', -, hload, -, -, hend⟩ := (build_accounts hp hd).2 hr nofun
  obtain ⟨s', he, hnames, -, htotals⟩ := hend.resolve_left nofun
  cases he
  exact ⟨hp, files, m, s, h', hd, hr, hload, hnames, hs.1, htotals none, hs.2⟩

end DatasetBuilder

end CipherCorpus
