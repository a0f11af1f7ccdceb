import CipherCorpus.Dataset.Build
import CipherCorpus.Proofs.Host

/-!
# Taking a build apart

A build makes the binaries directory, goes through the libraries and saves the manifest
(`runs_build`).  A library whose sources or matrix fail leaves the manifest as it is, any other adds the
artifacts of its report (`runs_buildLibrary`).
-/

namespace CipherCorpus.DatasetBuilder

open Dataset

variable {b : DatasetBuilder}

/-- The sources of a library are looked for. -/
abbrev acquire (b : DatasetBuilder) (l : Library) : Attempt SourceError Path :=
  b.sources.tree l.name l.version l.url

/-- The cells of a library are compiled. -/
abbrev compile (b : DatasetBuilder) (l : Library) (sources : Path) :
    Attempt MatrixFailure MatrixResult :=
  b.compiler.runMatrix l.name sources (functionsOf l) (b.layout.libraryBinaries l.name)

theorem runs_buildLibrary {l : Library} {m m' : Manifest} {s : LibraryReport} {h h' : Host} :
    Runs (b.buildLibrary l m) h (s, m') h' ↔
      (∃ e, Runs (b.acquire l).outcome h (.error e) h' ∧ m' = m ∧
        s = .withoutBinaries l.name (functionsOf l).length (.sourceUnavailable e.message)) ∨
      ∃ sources h1, Runs (b.acquire l).outcome h (.ok sources) h1 ∧
        ((∃ e, Runs (b.compile l sources).outcome h1 (.error e) h' ∧ m' = m ∧
          s = .withoutBinaries l.name (functionsOf l).length (.matrixFailed e.message)) ∨
        ∃ report, Runs (b.compile l sources).outcome h1 (.ok report) h' ∧
          m' = m.add l.name report.units.values ∧
          s = .ofReport l.name (functionsOf l).length report) := by
  unfold buildLibrary
  simp only [runs_bind]
  constructor
  · rintro ⟨acquired, h1, ha, hr⟩
    cases acquired with
    | error e =>
      obtain ⟨he, rfl⟩ := runs_pure.mp hr
      cases he
      exact Or.inl ⟨e, ha, rfl, rfl⟩
    | ok sources =>
      obtain ⟨compiled, h2, hc, hr⟩ := runs_bind.mp hr
      refine Or.inr ⟨sources, h1, ha, ?_⟩
      cases compiled with
      | error e =>
        obtain ⟨he, rfl⟩ := runs_pure.mp hr
        cases he
        exact Or.inl ⟨e, hc, rfl, rfl⟩
      | ok report =>
        obtain ⟨he, rfl⟩ := runs_pure.mp hr
        cases he
        exact Or.inr ⟨report, hc, rfl, rfl⟩
  · rintro (⟨e, ha, rfl, rfl⟩ | ⟨sources, h1, ha, ⟨e, hc, rfl, rfl⟩ | ⟨report, hc, rfl, rfl⟩⟩)
    · exact ⟨.error e, h', ha, runs_pure.mpr ⟨rfl, rfl⟩⟩
    · exact ⟨.ok sources, h1, ha, runs_bind.mpr ⟨.error e, h', hc, runs_pure.mpr ⟨rfl, rfl⟩⟩⟩
    · exact ⟨.ok sources, h1, ha, runs_bind.mpr ⟨.ok report, h', hc, runs_pure.mpr ⟨rfl, rfl⟩⟩⟩

theorem runs_buildLibraries_nil {m m' : Manifest} {ss : List LibraryReport} {h h' : Host} :
    Runs (b.buildLibraries m []) h (ss, m') h' ↔ ss = [] ∧ m' = m ∧ h' = h := by
  unfold buildLibraries
  rw [runs_pure, Prod.mk.injEq, and_assoc]

theorem runs_buildLibraries_cons {l : Library} {rest : List Library} {m m' : Manifest}
    {ss : List LibraryReport} {h h' : Host} :
    Runs (b.buildLibraries m (l :: rest)) h (ss, m') h' ↔
      ∃ s m1 h1 more, Runs (b.buildLibrary l m) h (s, m1) h1 ∧
        Runs (b.buildLibraries m1 rest) h1 (more, m') h' ∧ ss = s :: more := by
  conv => lhs; unfold buildLibraries
  simp only [runs_bind]
  constructor
  · rintro ⟨⟨s, m1⟩, h1, hl, ⟨more, m2⟩, h2, hrest, hr⟩
    obtain ⟨he, rfl⟩ := runs_pure.mp hr
    cases he
    exact ⟨s, m1, h1, more, hl, hrest, rfl⟩
  · rintro ⟨s, m1, h1, more, hl, hrest, rfl⟩
    exact ⟨(s, m1), h1, hl, (more, m'), h', hrest, runs_pure.mpr ⟨rfl, rfl⟩⟩

theorem runs_buildLibraries_append {before after : List Library} : ∀ {m m' : Manifest} {ss : List LibraryReport}
    {h h' : Host}, Runs (b.buildLibraries m (before ++ after)) h (ss, m') h' ↔
      ∃ s1 m1 h1 s2, Runs (b.buildLibraries m before) h (s1, m1) h1 ∧
        Runs (b.buildLibraries m1 after) h1 (s2, m') h' ∧ ss = s1 ++ s2 := by
  induction before with
  | nil =>
    intro m m' ss h h'
    simp only [runs_buildLibraries_nil]
    constructor
    · exact fun hr => ⟨[], m, h, ss, ⟨rfl, rfl, rfl⟩, hr, rfl⟩
    · rintro ⟨_, _, _, s2, ⟨rfl, rfl, rfl⟩, hr, rfl⟩
      exact hr
  | cons l rest ih =>
    intro m m' ss h h'
    rw [List.cons_append]
    simp only [runs_buildLibraries_cons, ih]
    constructor
    · rintro ⟨s, m1, h1, more, hl, ⟨s1, m2, h2, s2, hrest, hafter, rfl⟩, rfl⟩
      exact ⟨s :: s1, m2, h2, s2, ⟨s, m1, h1, s1, hl, hrest, rfl⟩, hafter, rfl⟩
    · rintro ⟨_, m2, h2, s2, ⟨s, m1, h1, s1, hl, hrest, rfl⟩, hafter, rfl⟩
      exact ⟨s, m1, h1, s1 ++ s2, hl, ⟨s1, m2, h2, s2, hrest, hafter, rfl⟩, rfl⟩

/-- The summary of a build that went from `h` to `h'`. -/
def summaryOf (b : DatasetBuilder) (h h' : Host) (libraries : List LibraryReport) : Summary :=
  ⟨h.date, h'.date, b.compiler.registry.ids, libraries, b.layout.manifest⟩

/-- A build saves the manifest of all libraries, also when it fails because none gave a binary. -/
theorem runs_build {r : Except BuildError (Manifest × Summary)} {h h' : Host} :
    Runs b.build.outcome h r h' ↔
      (∃ e, h.files.makeDirectories h.cwd b.layout.binaries = .error e ∧
        r = .error (.files b.layout.binaries e) ∧ h' = h) ∨
      ∃ files ss m h1, h.files.makeDirectories h.cwd b.layout.binaries = .ok files ∧
        Runs (b.buildLibraries .empty b.config.libraries) { h with files := files } (ss, m) h1 ∧
        ((∃ e, Runs (m.save b.layout.manifest).outcome h1 (.error e) h' ∧ r = .error (.manifest e)) ∨
        (Runs (m.save b.layout.manifest).outcome h1 (.ok ()) h' ∧
          r = if (b.summaryOf h h' ss).builtLibraries = 0 then .error .noLibrariesBuilt
            else .ok (m, b.summaryOf h h' ss))) := by
  unfold build
  rw [Attempt.runs_get_bind, Attempt.runs_change_bind, or_comm]
  refine or_congr Iff.rfl ?_
  simp only [Attempt.runs_ofAction_bind, Attempt.runs_inWords_bind, Attempt.runs_get_bind]
  constructor
  · rintro ⟨files, hd, ⟨ss, m⟩, h1, hb, hsave⟩
    refine ⟨files, ss, m, h1, hd, hb, ?_⟩
    rcases hsave with ⟨u, h2, hs, hr⟩ | ⟨e, hs, rfl⟩
    · refine Or.inr ?_
      split at hr
      · next hz =>
        obtain ⟨rfl, rfl⟩ := runs_pure.mp hr
        exact ⟨hs, (if_pos hz).symm⟩
      · next hz =>
        obtain ⟨rfl, rfl⟩ := runs_pure.mp hr
        exact ⟨hs, (if_neg hz).symm⟩
    · exact Or.inl ⟨e, hs, rfl⟩
  · rintro ⟨files, ss, m, h1, hd, hb, hsave⟩
    refine ⟨files, hd, (ss, m), h1, hb, ?_⟩
    rcases hsave with ⟨e, hs, rfl⟩ | ⟨hs, rfl⟩
    · exact Or.inr ⟨e, hs, rfl⟩
    · refine Or.inl ⟨(), h', hs, ?_⟩
      split
      · next hz => exact runs_pure.mpr ⟨if_pos hz, rfl⟩
      · next hz => exact runs_pure.mpr ⟨if_neg hz, rfl⟩

end CipherCorpus.DatasetBuilder
