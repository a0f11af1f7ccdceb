import CipherCorpus.Config.Validate
import CipherCorpus.Proofs.Compile.Matrix
import CipherCorpus.Proofs.Dataset.Build
import CipherCorpus.Proofs.Manifest.Added

/-!
# Which artifacts of a build are in its manifest

The manifest of a build records the artifacts of all its reports in order
(`buildLibraries_records`), and the summary counts them one by one.  Both numbers agree exactly when
no two artifacts have the same library and key:

    m.size = s.succeeded ↔ places of all artifacts pairwise different

This holds when the names of the libraries differ and the cells of each library have different keys, as
they do when no level holds an underscore (`keysDistinct_of_levels`).
-/

namespace CipherCorpus

/-! ## Keys of cells -/

/-- No two cells of a library are recorded under one key. -/
def Compiler.KeysDistinct (c : Compiler) (functions : List String) : Prop :=
  ∀ x ∈ c.cellsFor functions, ∀ y ∈ c.cellsFor functions, x.key = y.key → x = y

theorem Compiler.keysDistinct_of_levels {c : Compiler} {accepts : Architecture → Bool}
    (hp : Registry.probe accepts = .ok c.registry) (hl : ∀ o ∈ c.options.levels, '_' ∉ o.toList)
    (functions : List String) : c.KeysDistinct functions := by
  have hseparable : ∀ x ∈ c.cellsFor functions, x.Separable := by
    intro x hx
    obtain ⟨harch, hlevel, -⟩ := mem_cells.mp hx
    exact ⟨(Registry.notMem_id_of_probe hp harch).1, hl _ (mem_distinct.mp hlevel)⟩
  exact fun x hx y hy => (Cell.key_inj (hseparable x hx) (hseparable y hy)).mp

namespace DatasetBuilder

open Dataset

variable {b : DatasetBuilder}

/-! ## Reports of a build -/

/-- A library came to no report, or to one that its matrix gives. -/
def Reported (b : DatasetBuilder) (l : Library) : Option MatrixResult → Prop
  | none => True
  | some report => ∃ sources h h', Runs (b.compile l sources).outcome h (.ok report) h'

/-- The reports that libraries come to one after the other; a library without sources, or whose matrix
fails, comes to none. -/
inductive Reports (b : DatasetBuilder) :
    Host → List Library → List (Option MatrixResult) → Host → Prop where
  | nil (h : Host) : Reports b h [] [] h
  | unavailable {l rest reports h h1 h' e} : Runs (b.acquire l).outcome h (.error e) h1 →
      Reports b h1 rest reports h' → Reports b h (l :: rest) (none :: reports) h'
  | failed {l rest reports h h1 h2 h' sources e} : Runs (b.acquire l).outcome h (.ok sources) h1 →
      Runs (b.compile l sources).outcome h1 (.error e) h2 →
      Reports b h2 rest reports h' → Reports b h (l :: rest) (none :: reports) h'
  | compiled {l rest reports h h1 h2 h' sources report} :
      Runs (b.acquire l).outcome h (.ok sources) h1 →
      Runs (b.compile l sources).outcome h1 (.ok report) h2 →
      Reports b h2 rest reports h' → Reports b h (l :: rest) (some report :: reports) h'

theorem Reports.reported {libraries : List Library} {reports : List (Option MatrixResult)}
    {h h' : Host} (hr : b.Reports h libraries reports h') :
    List.Forall₂ b.Reported libraries reports := by
  induction hr with
  | nil => exact .nil
  | unavailable _ _ ih => exact .cons trivial ih
  | failed _ _ _ ih => exact .cons trivial ih
  | compiled _ hc _ ih => exact .cons ⟨_, _, _, hc⟩ ih

/-- The artifacts of a report, none without one. -/
def artifactsOf (report? : Option MatrixResult) : List Artifact :=
  (report?.map (·.units.values)).getD []

theorem length_artifactsOf (report : MatrixResult) :
    (artifactsOf (some report)).length = report.succeeded := by
  unfold artifactsOf MatrixResult.succeeded OrderedMap.size OrderedMap.values
  exact List.length_map ..

theorem length_flatMap_artifactsOf (reports : List (Option MatrixResult)) :
    (reports.flatMap artifactsOf).length = total (reports.map fun r => (artifactsOf r).length) := by
  induction reports with
  | nil => rfl
  | cons r rest ih => rw [List.flatMap_cons, List.length_append, ih, List.map_cons, total_cons]

theorem library_of_reported {accepts : Architecture → Bool}
    (hp : Registry.probe accepts = .ok b.compiler.registry) {l : Library}
    {report? : Option MatrixResult} (hr : b.Reported l report?) :
    ∀ a ∈ artifactsOf report?, a.library = l.name := by
  intro a ha
  cases report? with
  | none => cases ha
  | some report =>
    obtain ⟨sources, h, h', hr⟩ := hr
    obtain ⟨cell, hg⟩ := OrderedMap.mem_values.mp ha
    exact (Compiler.runMatrix_units hp hr hg).2.library

/-- The manifest of a build records the artifacts of the reports, and the summary counts them. -/
theorem buildLibraries_records {accepts : Architecture → Bool}
    (hp : Registry.probe accepts = .ok b.compiler.registry) (libraries : List Library) :
    ∀ {m m' : Manifest} {ss : List LibraryReport} {h h' : Host} {artifacts : List Artifact},
      Runs (b.buildLibraries m libraries) h (ss, m') h' → m.Records artifacts →
      ∃ reports, b.Reports h libraries reports h' ∧
        m'.Records (artifacts ++ reports.flatMap artifactsOf) ∧
        ss.map (·.succeeded) = reports.map fun r => (artifactsOf r).length := by
  induction libraries with
  | nil =>
    intro m m' ss h h' artifacts hr hm
    obtain ⟨rfl, rfl, rfl⟩ := runs_buildLibraries_nil.mp hr
    exact ⟨[], .nil _, by simpa using hm, rfl⟩
  | cons l rest ih =>
    intro m m' ss h h' artifacts hr hm
    obtain ⟨s, m1, h1, more, hl, hrest, rfl⟩ := runs_buildLibraries_cons.mp hr
    rcases runs_buildLibrary.mp hl with ⟨e, ha, rfl, rfl⟩ | ⟨sources, h2, ha, hc⟩
    · obtain ⟨reports, hreps, hm', hss⟩ := ih hrest hm
      exact ⟨none :: reports, .unavailable ha hreps, hm', congrArg (0 :: ·) hss⟩
    · rcases hc with ⟨e, hc, rfl, rfl⟩ | ⟨report, hc, rfl, rfl⟩
      · obtain ⟨reports, hreps, hm', hss⟩ := ih hrest hm
        exact ⟨none :: reports, .failed ha hc hreps, hm', congrArg (0 :: ·) hss⟩
      · have hrep : b.Reported l (some report) := ⟨sources, h2, h1, hc⟩
        obtain ⟨reports, hreps, hm', hss⟩ := ih hrest (hm.add l.name _ (library_of_reported hp hrep))
        refine ⟨some report :: reports, .compiled ha hc hreps, ?_, ?_⟩
        · rwa [List.flatMap_cons, ← List.append_assoc]
        · rw [List.map_cons, List.map_cons, hss, length_artifactsOf]
          rfl

/-! ## Places of artifacts -/

theorem nodup_places_of_reported {accepts : Architecture → Bool}
    (hp : Registry.probe accepts = .ok b.compiler.registry) {l : Library}
    (hk : b.compiler.KeysDistinct (functionsOf l)) {report? : Option MatrixResult}
    (hr : b.Reported l report?) : ((artifactsOf report?).map (·.place)).Nodup := by
  cases report? with
  | none => exact List.nodup_nil
  | some report =>
    obtain ⟨sources, h, h', hr⟩ := hr
    have hkeys := MatrixResult.nodup_keys_of_inj (Compiler.keyed_of_runMatrix hp hr) fun a ha a' ha' =>
      hk _ (Compiler.cell_mem_of_runMatrix hp hr ha) _ (Compiler.cell_mem_of_runMatrix hp hr ha')
    refine List.Nodup.of_map Prod.snd ?_
    rw [List.map_map]
    exact hkeys

theorem library_mem_of_reported {accepts : Architecture → Bool}
    (hp : Registry.probe accepts = .ok b.compiler.registry) {libraries : List Library}
    {reports : List (Option MatrixResult)} (hr : List.Forall₂ b.Reported libraries reports) :
    ∀ a ∈ reports.flatMap artifactsOf, a.library ∈ libraries.map (·.name) := by
  induction hr with
  | nil =>
    intro a ha
    cases ha
  | @cons l report? libraries reports hl hrest ih =>
    intro a ha
    rw [List.flatMap_cons] at ha
    rw [List.map_cons]
    rcases List.mem_append.mp ha with ha | ha
    · rw [library_of_reported hp hl a ha]
      exact List.mem_cons_self
    · exact List.mem_cons_of_mem _ (ih a ha)

/-- Different names of libraries keep the places of different reports apart. -/
theorem nodup_places_of_names {accepts : Architecture → Bool}
    (hp : Registry.probe accepts = .ok b.compiler.registry) {libraries : List Library}
    {reports : List (Option MatrixResult)} (hr : List.Forall₂ b.Reported libraries reports)
    (hn : (libraries.map (·.name)).Nodup)
    (hk : ∀ r ∈ reports, ((artifactsOf r).map (·.place)).Nodup) :
    ((reports.flatMap artifactsOf).map (·.place)).Nodup := by
  induction hr with
  | nil => exact List.nodup_nil
  | @cons l report? libraries reports hl hrest ih =>
    obtain ⟨hnew, hn⟩ := List.nodup_cons.mp hn
    rw [List.flatMap_cons, List.map_append]
    refine List.nodup_append.mpr ⟨hk _ List.mem_cons_self,
      ih hn fun r hr => hk r (List.mem_cons_of_mem _ hr), ?_⟩
    intro p hpl q hq hpq
    obtain ⟨a, ha, rfl⟩ := List.mem_map.mp hpl
    obtain ⟨a', ha', rfl⟩ := List.mem_map.mp hq
    have hsame : a'.library = l.name := by
      rw [← library_of_reported hp hl a ha]
      exact (congrArg Prod.fst hpq).symm
    have hmem := library_mem_of_reported hp hrest a' ha'
    rw [hsame] at hmem
    exact hnew hmem

theorem nodup_places {accepts : Architecture → Bool}
    (hp : Registry.probe accepts = .ok b.compiler.registry) {libraries : List Library}
    {reports : List (Option MatrixResult)} (hr : List.Forall₂ b.Reported libraries reports)
    (hn : (libraries.map (·.name)).Nodup)
    (hk : ∀ l ∈ libraries, b.compiler.KeysDistinct (functionsOf l)) :
    ((reports.flatMap artifactsOf).map (·.place)).Nodup := by
  refine nodup_places_of_names hp hr hn fun r hmem => ?_
  clear hn
  induction hr with
  | nil => cases hmem
  | cons hl _ ih =>
    rcases List.mem_cons.mp hmem with rfl | hmem
    · exact nodup_places_of_reported hp (hk _ List.mem_cons_self) hl
    · exact ih (fun l hl => hk l (List.mem_cons_of_mem _ hl)) hmem

/-! ## Main result -/

/-- **When a build loses no artifact.**  A build that succeeds counts the artifacts of the reports that
its libraries come to one after the other.  Its manifest has as many entries exactly when no two of them
have the same library and key; then each has its own entry.  Different names of libraries and different
keys of cells are enough for this. -/
theorem entries_of_build {accepts : Architecture → Bool}
    (hp : Registry.probe accepts = .ok b.compiler.registry) {h h' : Host} {m : Manifest}
    {s : Summary} (hr : Runs b.build.outcome h (.ok (m, s)) h') :
    ∃ files reports h1, h.files.makeDirectories h.cwd b.layout.binaries = .ok files ∧
      b.Reports { h with files := files } b.config.libraries reports h1 ∧
      s.libraries.map (·.succeeded) = reports.map (fun r => (artifactsOf r).length) ∧
      (m.size = s.succeeded ↔ ((reports.flatMap artifactsOf).map (·.place)).Nodup) ∧
      (m.size = s.succeeded → ∀ a ∈ reports.flatMap artifactsOf,
        m.find? a.place = some (.ofArtifact a)) ∧
      ((b.config.libraries.map (·.name)).Nodup →
        (∀ l ∈ b.config.libraries, b.compiler.KeysDistinct (functionsOf l)) →
        m.size = s.succeeded) := by
  rcases runs_build.mp hr with ⟨e, -, he, -⟩ | ⟨files, ss, m', h1, hmake, hb, ⟨e, -, he⟩ | ⟨-, he⟩⟩
  · cases he
  · cases he
  · split at he
    · cases he
    · cases he
      obtain ⟨reports, hreps, hm, hss⟩ := buildLibraries_records hp _ hb .empty
      rw [List.nil_append] at hm
      have hcount : (b.summaryOf h h' ss).succeeded = (reports.flatMap artifactsOf).length := by
        show total (ss.map (·.succeeded)) = _
        rw [hss, length_flatMap_artifactsOf]
      have hiff := hm.size_eq_iff
      rw [← hcount] at hiff
      exact ⟨files, reports, h1, hmake, hreps, hss, hiff, fun hs a ha => hm.find?_place (hiff.mp hs) ha,
        fun hn hk => hiff.mpr (nodup_places hp hreps.reported hn hk)⟩

/-! ## Builds that can be computed -/

/-- Whether a build succeeds, with a result that passes a test. -/
def yields (b : DatasetBuilder) (h : Host) (p : Manifest → Summary → Host → Bool) : Bool :=
  match b.build.outcome.run h with
  | .ok (.ok (m, s), h') => p m s h'
  | _ => false

theorem exists_of_yields {h : Host} {p : Manifest → Summary → Host → Bool}
    (hy : b.yields h p = true) :
    ∃ m s h', Runs b.build.outcome h (.ok (m, s)) h' ∧ p m s h' = true := by
  unfold yields at hy
  split at hy
  · next m s h' hr => exact ⟨m, s, h', hr, hy⟩
  · cases hy

/-- A builder that has only cached sources, and a compiler for x86 that writes one byte. -/
def offline (libraries : List Library) : DatasetBuilder :=
  let config : Config := { Config.standard with libraries, levels := ["-O2"], jobs := 1 }
  let layout := Layout.ofRoot ⟨"/d"⟩
  ⟨config, layout, ⟨layout.sources, fun url _ => throw (.download url "offline")⟩,
    ⟨⟨Architecture.catalog.take 1⟩, .writing [0], config.compileSettings⟩⟩

/-- A host on which the source of a function `f` is cached in each of some trees. -/
def hostWithCached (trees : List String) : Host :=
  ⟨⟨(["d"], .directory) :: (["d", "sources"], .directory) :: trees.flatMap fun tree =>
    [(["d", "sources", tree], .directory), (["d", "sources", tree, "f.c"], .file (.bytes []) false)]⟩,
    [], [], ⟨0, 0⟩, "", 1, .empty⟩

/-- One library, one artifact, one entry. -/
theorem single_library_keeps_its_artifact :
    let b := offline [⟨"lib", none, none, some ["f"]⟩]
    Registry.probe (·.id == "x86") = .ok b.compiler.registry ∧
      ∃ m s h', Runs b.build.outcome (hostWithCached ["lib"]) (.ok (m, s)) h' ∧
        m.size = s.succeeded ∧ s.succeeded = 1 := by
  intro b
  have hp : Registry.probe (·.id == "x86") = .ok b.compiler.registry := by decide
  obtain ⟨m, s, h', hr, hs⟩ := exists_of_yields (b := b) (h := hostWithCached ["lib"])
    (p := fun _ s _ => s.succeeded == 1) (by decide +kernel)
  obtain ⟨files, reports, h1, -, -, -, -, -, henough⟩ := entries_of_build hp hr
  have hk := Compiler.keysDistinct_of_levels (c := b.compiler) hp (by decide)
  exact ⟨hp, m, s, h', hr, henough (by decide) fun l _ => hk _, eq_of_beq hs⟩

/-- A library in two versions: both give an artifact, the manifest keeps one. -/
theorem two_versions_share_an_entry :
    let b := offline [⟨"lib", some "1", none, some ["f"]⟩, ⟨"lib", some "2", none, some ["f"]⟩]
    b.config.validate = .ok () ∧ Registry.probe (·.id == "x86") = .ok b.compiler.registry ∧
      ∃ m s h', Runs b.build.outcome (hostWithCached ["lib-1", "lib-2"]) (.ok (m, s)) h' ∧
        m.size = 1 ∧ s.succeeded = 2 := by
  intro b
  have hv : b.config.fault? = none := by decide +kernel
  refine ⟨by unfold Config.validate; rw [hv], by decide, ?_⟩
  obtain ⟨m, s, h', hr, hs⟩ := exists_of_yields (b := b) (h := hostWithCached ["lib-1", "lib-2"])
    (p := fun m s _ => m.size == 1 && s.succeeded == 2) (by decide +kernel)
  have hs : m.size = 1 ∧ s.succeeded = 2 := by simpa using hs
  exact ⟨m, s, h', hr, hs⟩

end DatasetBuilder

end CipherCorpus
