import CipherCorpus.Proofs.Compile.Binaries
import CipherCorpus.Proofs.Dataset.Entries
import CipherCorpus.Proofs.Manifest.File
import CipherCorpus.Proofs.Sources.Cache

/-!
# What a build changes

Looking for the sources of a library changes only the sources directory, and its matrix only its own
directory of binaries (`buildLibrary_changes`).  So the libraries of a build change nothing outside of
these two directories, and what they record lies under the second one by names of entries
(`buildLibraries_changes`).
-/

namespace CipherCorpus

open Dataset FileTree CipherCorpus.Path
open Archive (under)

variable {root : Path} {home : Key} {h h' : Host}

/-- The keys that are changed for a library. -/
def ownKeys (home : Key) (library : String) (k : Key) : Prop :=
  home ++ ["sources"] <+: k ∨ home ++ ["binaries", library] <+: k

/-- The keys that are changed for all libraries. -/
def builtKeys (home : Key) (k : Key) : Prop :=
  home ++ ["sources"] <+: k ∨ home ++ ["binaries"] <+: k

/-- The names that a library leads to are names of entries. -/
structure Compiler.EntryNames (c : Compiler) (l : Library) : Prop where
  name : IsEntryName l.name.toList
  version : ∀ v ∈ l.version, '/' ∉ v.toList
  fields : ∀ s ∈ DatasetBuilder.functionsOf l ++ c.options.levels, '/' ∉ s.toList

namespace DatasetBuilder

/-- A build under `root` whose tools touch only the files they are given. -/
structure Confined (b : DatasetBuilder) (root : Path) : Prop where
  layout : b.layout = Layout.ofRoot root
  sources : b.sources.sources = b.layout.sources
  registry : ∃ accepts, Registry.probe accepts = .ok b.compiler.registry
  runner : b.compiler.runner.TouchesOutput
  fetcher : b.sources.fetcher.Delivers

variable {b : DatasetBuilder} {l : Library} {sources : Path} {m m' : Manifest}

theorem Confined.libraryBinaries (hb : b.Confined root) (library : String) :
    b.layout.libraryBinaries library = under root ["binaries", library] := by
  rw [hb.layout]
  rfl

theorem Confined.sourcesDirectory (hb : b.Confined root) :
    b.sources.sources = root.child "sources" := by
  rw [hb.sources, hb.layout]
  rfl

/-! ## One library -/

theorem acquire_changes (hb : b.Confined root) (hl : b.compiler.EntryNames l) (hh : Home root home h)
    {r : Except SourceError Path} (ha : Runs (b.acquire l).outcome h r h') :
    ChangesFiles (ownKeys home l.name) h h' :=
  (SourceCache.tree_changes hh hb.fetcher hb.sourcesDirectory
    (SourceCache.isEntryName_cacheName hl.name hl.version) ha).mono fun _ => Or.inl

theorem sep_mem_sources (hb : b.Confined root) (hl : b.compiler.EntryNames l)
    (ha : Runs (b.acquire l).outcome h (.ok sources) h') : '/' ∈ sources.text.toList := by
  rw [SourceCache.tree_path ha]
  unfold SourceCache.treePath
  rw [hb.sourcesDirectory]
  exact sep_mem_child_child root (by decide) (SourceCache.isEntryName_cacheName hl.name hl.version)

theorem library_of_compile (hb : b.Confined root) {report : MatrixResult}
    (hc : Runs (b.compile l sources).outcome h (.ok report) h') :
    ∀ a ∈ report.units.values, a.library = l.name := by
  obtain ⟨accepts, hp⟩ := hb.registry
  have hr : b.Reported l (some report) := ⟨sources, h, h', hc⟩
  exact library_of_reported hp hr

theorem compile_changes (hb : b.Confined root) (hl : b.compiler.EntryNames l) (hh : Home root home h)
    (hsep : '/' ∈ sources.text.toList) {r : Except MatrixFailure MatrixResult}
    (hc : Runs (b.compile l sources).outcome h r h') :
    ChangesFiles (ownKeys home l.name) h h' ∧
      ∀ report, r = .ok report → ∀ a ∈ report.units.values, Placed root a := by
  obtain ⟨accepts, hp⟩ := hb.registry
  rw [compile, hb.libraryBinaries] at hc
  obtain ⟨hchange, hplaced⟩ :=
    Compiler.runMatrix_changes hp hb.runner hh hl.name hl.fields hsep hc
  exact ⟨hchange.mono fun _ => Or.inr, hplaced⟩

/-- **Building a library changes only its own keys**, and what it records is placed under the root. -/
theorem buildLibrary_changes (hb : b.Confined root) (hl : b.compiler.EntryNames l)
    (hh : Home root home h) {s : LibraryReport} (hr : Runs (b.buildLibrary l m) h (s, m') h') :
    ChangesFiles (ownKeys home l.name) h h' ∧
      ∃ more, (∀ artifacts, m.Records artifacts → m'.Records (artifacts ++ more)) ∧
        ∀ a ∈ more, Placed root a := by
  have hnothing : ∃ more : List Artifact, (∀ artifacts, m.Records artifacts →
      m.Records (artifacts ++ more)) ∧ ∀ a ∈ more, Placed root a :=
    ⟨[], fun artifacts hm => by rwa [List.append_nil], nofun⟩
  rcases runs_buildLibrary.mp hr with ⟨e, ha, rfl, -⟩ | ⟨sources, h1, ha, hcompile⟩
  · exact ⟨acquire_changes hb hl hh ha, hnothing⟩
  · have hc1 := acquire_changes hb hl hh ha
    have hsep := sep_mem_sources hb hl ha
    rcases hcompile with ⟨e, hc, rfl, -⟩ | ⟨report, hc, rfl, -⟩
    · exact ⟨hc1.trans (compile_changes hb hl (hh.of_changes hc1) hsep hc).1, hnothing⟩
    · obtain ⟨hc2, hplaced⟩ := compile_changes hb hl (hh.of_changes hc1) hsep hc
      exact ⟨hc1.trans hc2, report.units.values,
        fun artifacts hm => hm.add l.name _ (library_of_compile hb hc), hplaced report rfl⟩

/-! ## All libraries -/

theorem builtKeys_of_ownKeys {library : String} {k : Key} (hk : ownKeys home library k) :
    builtKeys home k :=
  hk.imp_right fun hk => prefix_of_append (d := ["binaries"]) (l := [library]) hk

/-- **Libraries change only the sources and the binaries**, and what is recorded is placed under the
root. -/
theorem buildLibraries_changes (hb : b.Confined root) (libraries : List Library) :
    ∀ {m m' : Manifest} {ss : List LibraryReport} {h h' : Host} {artifacts : List Artifact},
      (∀ l ∈ libraries, b.compiler.EntryNames l) → Home root home h → m.Records artifacts →
      (∀ a ∈ artifacts, Placed root a) → Runs (b.buildLibraries m libraries) h (ss, m') h' →
      ChangesFiles (builtKeys home) h h' ∧
        ∃ artifacts', m'.Records artifacts' ∧ ∀ a ∈ artifacts', Placed root a := by
  induction libraries with
  | nil =>
    intro m m' ss h h' artifacts _ _ hm hp hr
    obtain ⟨rfl, rfl, rfl⟩ := runs_buildLibraries_nil.mp hr
    exact ⟨.refl _ _, artifacts, hm, hp⟩
  | cons l rest ih =>
    intro m m' ss h h' artifacts hl hh hm hp hr
    obtain ⟨s, m1, h1, more, hone, hrest, rfl⟩ := runs_buildLibraries_cons.mp hr
    obtain ⟨hc, added, hrec, hadded⟩ := buildLibrary_changes hb (hl l List.mem_cons_self) hh hone
    obtain ⟨hc', hall⟩ := ih (fun l' hm' => hl l' (List.mem_cons_of_mem _ hm')) (hh.of_changes hc)
      (hrec artifacts hm) (List.forall_mem_append.mpr ⟨hp, hadded⟩) hrest
    exact ⟨(hc.mono fun _ => builtKeys_of_ownKeys).trans hc', hall⟩

/-- **A build changes only the sources, the binaries and the manifest.** -/
theorem build_changes (hb : b.Confined root) (hl : ∀ l ∈ b.config.libraries, b.compiler.EntryNames l)
    (hh : Home root home h) {r : Except BuildError (Manifest × Summary)} (hr : Runs b.build.outcome h r h') :
    ChangesFiles (fun k => builtKeys home k ∨ k = home ++ [manifestFileName]) h h' := by
  rcases runs_build.mp hr with ⟨e, -, -, rfl⟩ | ⟨files, ss, m, h1, hmake, hlibraries, hend⟩
  · exact .refl _ _
  obtain ⟨x, hsave⟩ : ∃ x, Runs (m.save (root.child manifestFileName)).outcome h1 x h' := by
    rw [hb.layout] at hend
    rcases hend with ⟨e, hx, -⟩ | ⟨hx, -⟩
    · exact ⟨_, hx⟩
    · exact ⟨_, hx⟩
  have hmade : ChangesFiles (fun _ => False) h { h with files := files } :=
    ⟨rfl, changesOnly_makeDirectories hmake⟩
  have hh1 := hh.of_changes hmade
  obtain ⟨hbuilt, -⟩ := buildLibraries_changes hb _ hl hh1 .empty nofun hlibraries
  obtain ⟨-, hsaved⟩ := Manifest.save_keeps (Q := fun _ => True) (hh1.of_changes hbuilt)
    (fun _ _ _ _ _ => trivial) trivial hsave
  exact ((hmade.mono nofun).trans (hbuilt.mono fun _ => Or.inl)).trans (hsaved.mono fun _ => Or.inr)

/-- The manifest of a build that succeeds is loaded from the file it was saved in. -/
theorem load_of_build {s : Summary} (hr : Runs b.build.outcome h (.ok (m, s)) h') :
    Runs (Manifest.load b.layout.manifest).outcome h' (.ok m) h' := by
  rcases runs_build.mp hr with ⟨e, -, he, -⟩ | ⟨files, ss, m', g, -, -, ⟨e, -, he⟩ | ⟨hsave, he⟩⟩
  · cases he
  · cases he
  · split at he
    · cases he
    · cases he
      exact Manifest.load_of_saved hsave

end DatasetBuilder

end CipherCorpus
