import CipherCorpus.Proofs.Compile.Matrix
import CipherCorpus.Proofs.Manifest
import CipherCorpus.Proofs.Text.Pieces

/-!
# What a report adds to a manifest

The key of a cell joins its fields with underscores.  The function stands last and may hold underscores or nothing
at all; where the two fields in front of it hold none, they end at the first two underscores, so the key tells the
cell (`Cell.key_inj`).  A report has each unit under its own cell, hence its units have different keys
(`MatrixResult.WellKeyed.nodup_keys`), and none takes the place of another when they are put into the map of their
library (`entries_addAll_perm`).  A library that has no entries before gets exactly those of the units:

    (m.add library units).entries ~ m.entries ++ units under their keys                    (entries_add_perm)

An entry has every field of its unit but the compiler (`ManifestEntry.artifact_ofArtifact`).
-/

namespace CipherCorpus

/-! ## Keys of cells -/

namespace Cell

theorem toList_key (x : Cell) : x.key.toList =
    x.architecture.toList ++ '_' :: (x.optimization.toList ++ '_' :: x.function.toList) := by
  unfold key
  simp [String.toList_append]

/-- No underscore in front of the function. -/
structure Separable (x : Cell) : Prop where
  architecture : '_' ∉ x.architecture.toList
  optimization : '_' ∉ x.optimization.toList

/-- A key tells the cell that it was joined from. -/
theorem key_inj {x y : Cell} (hx : x.Separable) (hy : y.Separable) : x.key = y.key ↔ x = y := by
  refine ⟨fun hkey => ?_, congrArg key⟩
  have h := congrArg String.toList hkey
  rw [toList_key, toList_key] at h
  obtain ⟨harch, h⟩ := (Text.append_sep_inj hx.architecture hy.architecture).mp h
  obtain ⟨hopt, hfun⟩ := (Text.append_sep_inj hx.optimization hy.optimization).mp h
  cases x
  cases y
  simp only [mk.injEq]
  exact ⟨String.toList_inj.mp harch, String.toList_inj.mp hopt, String.toList_inj.mp hfun⟩

end Cell

/-! ## Reports -/

namespace MatrixResult

/-- The units stand under their own cells, of architectures of the catalog and levels without underscores. -/
structure WellKeyed (r : MatrixResult) : Prop where
  keyed : ∀ e ∈ r.units.entries, e.2.cell = e.1
  architecture : ∀ a ∈ r.units.values, a.architecture ∈ Architecture.catalog.map (·.id)
  level : ∀ a ∈ r.units.values, '_' ∉ a.optimization.toList

variable {r : MatrixResult}

/-- The units of a report have different cells. -/
theorem nodup_cells (hk : ∀ e ∈ r.units.entries, e.2.cell = e.1) : (r.units.values.map (·.cell)).Nodup := by
  have hkeys : r.units.values.map (·.cell) = r.units.keys := by
    unfold OrderedMap.values OrderedMap.keys
    rw [List.map_map]
    exact List.map_congr_left hk
  rw [hkeys]
  exact r.units.nodup_keys

/-- Units whose cells are told by their keys have different keys. -/
theorem nodup_keys_of_inj (hk : ∀ e ∈ r.units.entries, e.2.cell = e.1)
    (hinj : ∀ a ∈ r.units.values, ∀ b ∈ r.units.values, a.cell.key = b.cell.key → a.cell = b.cell) :
    (r.units.values.map (·.cell.key)).Nodup :=
  (List.Nodup.of_map _ (nodup_cells hk)).map_on fun a ha b hb hkey =>
    List.inj_on_of_nodup_map (nodup_cells hk) ha hb (hinj a ha b hb hkey)

theorem WellKeyed.separable (hr : r.WellKeyed) {a : Artifact} (ha : a ∈ r.units.values) : a.cell.Separable :=
  ⟨(Architecture.notMem_id_of_catalog (hr.architecture a ha)).1, hr.level a ha⟩

/-- The units of a report have different keys. -/
theorem WellKeyed.nodup_keys (hr : r.WellKeyed) : (r.units.values.map (·.cell.key)).Nodup :=
  nodup_keys_of_inj hr.keyed fun _ ha _ hb => (Cell.key_inj (hr.separable ha) (hr.separable hb)).mp

/-- A matrix run gives such a report when no unit has a level with an underscore. -/
theorem wellKeyed_of_runMatrix {accepts : Architecture → Bool} {c : Compiler}
    (hp : Registry.probe accepts = .ok c.registry) {library : String} {sourceDir outputDir : Path}
    {functions : List String} {h h' : Host}
    (hr : Runs (c.runMatrix library sourceDir functions outputDir).outcome h (.ok r) h')
    (hl : ∀ a ∈ r.units.values, '_' ∉ a.optimization.toList) : r.WellKeyed where
  keyed := Compiler.keyed_of_runMatrix hp hr
  architecture _ ha := Registry.mem_catalog_of_probe hp
    (Compiler.mem_cells.mp (Compiler.cell_mem_of_runMatrix hp hr ha)).1
  level := hl

end MatrixResult

/-! ## Entries -/

/-- The unit that an entry is about, were it built with `compiler`. -/
def ManifestEntry.artifact (e : ManifestEntry) (compiler : String) : Artifact :=
  ⟨e.library, e.function, e.architecture, e.optimization, compiler, e.binaryPath, e.sourcePath, e.size, e.md5⟩

/-- An entry and the compiler make up the unit. -/
theorem ManifestEntry.artifact_ofArtifact (a : Artifact) : (ofArtifact a).artifact a.compiler = a := rfl

namespace Manifest

variable {m : Manifest} {library : String} {units : List Artifact} {entries : OrderedMap String ManifestEntry}

/-- Units with different keys that are free add an entry each. -/
theorem entries_addAll_perm (hn : (units.map (·.cell.key)).Nodup)
    (hfree : ∀ a ∈ units, entries.get? a.cell.key = none) :
    (addAll entries units).entries.Perm
      (entries.entries ++ units.map fun a => (a.cell.key, .ofArtifact a)) := by
  induction units generalizing entries with
  | nil => exact .of_eq (List.append_nil _).symm
  | cons a rest ih =>
    obtain ⟨hnew, hn⟩ := List.nodup_cons.mp hn
    have hrest : ∀ b ∈ rest, (entries.insert a.cell.key (.ofArtifact a)).get? b.cell.key = none := by
      intro b hb
      rw [OrderedMap.get?_insert_ne]
      · exact hfree b (List.mem_cons_of_mem a hb)
      · exact fun he => hnew (List.mem_map.mpr ⟨b, hb, he⟩)
    have hfirst := OrderedMap.entries_insert_perm (hfree a List.mem_cons_self) (.ofArtifact a)
    exact (ih hn hrest).trans ((hfirst.append_right _).trans List.perm_middle.symm)

theorem find?_add_self (key : String) : (m.add library units).find? (library, key) =
    (addAll ((m.libraries.get? library).getD .empty) units).get? key := by
  unfold find? add
  rw [OrderedMap.get?_insert_self]
  rfl

theorem libraries_add_of_ne {other : String} (h : other ≠ library) :
    (m.add library units).libraries.get? other = m.libraries.get? other :=
  m.libraries.get?_insert_ne _ h

theorem find?_add_of_ne {other : String} (h : other ≠ library) (key : String) :
    (m.add library units).find? (other, key) = m.find? (other, key) := by
  unfold find?
  rw [libraries_add_of_ne h]

section
variable (hfree : ∀ key, m.find? (library, key) = none) (hn : (units.map (·.cell.key)).Nodup)
include hfree hn

/-- Under a library without entries stand the units that are added, each under its key. -/
theorem find?_add_eq_some_iff {key : String} {e : ManifestEntry} :
    (m.add library units).find? (library, key) = some e ↔
      ∃ a ∈ units, a.cell.key = key ∧ .ofArtifact a = e := by
  have hbefore : ∀ key, ((m.libraries.get? library).getD .empty).get? key = none := by
    intro key
    have hnone := hfree key
    unfold find? at hnone
    cases hl : m.libraries.get? library with
    | none => rfl
    | some es =>
      rw [hl] at hnone
      exact hnone
  rw [find?_add_self, ← OrderedMap.mem_entries_iff,
    (entries_addAll_perm hn fun a _ => hbefore a.cell.key).mem_iff, List.mem_append,
    OrderedMap.mem_entries_iff, hbefore, List.mem_map]
  simp only [reduceCtorEq, false_or, Prod.mk.injEq]

theorem find?_add_of_mem {a : Artifact} (ha : a ∈ units) :
    (m.add library units).find? (library, a.cell.key) = some (.ofArtifact a) :=
  (find?_add_eq_some_iff hfree hn).mpr ⟨a, ha, rfl, rfl⟩

/-- The entries of the units are added to those that are there. -/
theorem entries_add_perm : (m.add library units).entries.Perm
    (m.entries ++ units.map fun a => (library, a.cell.key, .ofArtifact a)) := by
  have hnew : (units.map fun a => (library, a.cell.key, ManifestEntry.ofArtifact a)).Nodup := by
    refine List.Nodup.of_map (fun e => e.2.1) ?_
    rw [List.map_map]
    exact hn
  have hright : (m.entries ++ units.map fun a => (library, a.cell.key, ManifestEntry.ofArtifact a)).Nodup := by
    refine List.nodup_append.mpr ⟨List.Nodup.of_map _ (nodup_entries m), hnew, ?_⟩
    rintro e he e' he' rfl
    obtain ⟨a, -, rfl⟩ := List.mem_map.mp he'
    have hfound := mem_entries_iff.mp he
    rw [hfree] at hfound
    cases hfound
  refine (List.perm_ext_iff_of_nodup (List.Nodup.of_map _ (nodup_entries _)) hright).mpr ?_
  rintro ⟨other, key, e⟩
  rw [mem_entries_iff, List.mem_append, mem_entries_iff, List.mem_map]
  by_cases ho : other = library
  · subst ho
    rw [find?_add_eq_some_iff hfree hn, hfree]
    simp only [reduceCtorEq, false_or, Prod.mk.injEq, true_and]
  · rw [find?_add_of_ne ho]
    simp only [Prod.mk.injEq, Ne.symm ho, false_and, and_false, exists_false, or_false]

end

/-! ## Main result -/

/-- **A report is recorded unit by unit.**  Keys of cells without underscores in front of the function tell the cells
apart.  So a report of such cells adds to a library without entries exactly one entry for each unit, found under
the key of the unit with all that an entry has of it, and leaves the other libraries as they are.  Every report of
a matrix run is of this kind when the levels of its units hold no underscores. -/
theorem report_is_recorded :
    (∀ x y : Cell, x.Separable → y.Separable → (x.key = y.key ↔ x = y)) ∧
    (∀ (m : Manifest) (library : String) (r : MatrixResult),
      (∀ key, m.find? (library, key) = none) → r.WellKeyed →
      (m.add library r.units.values).entries.Perm
        (m.entries ++ r.units.values.map fun a => (library, a.cell.key, ManifestEntry.ofArtifact a)) ∧
      (m.add library r.units.values).size = m.size + r.succeeded ∧
      (∀ a ∈ r.units.values, ∃ e,
        (m.add library r.units.values).find? (library, a.cell.key) = some e ∧ e.artifact a.compiler = a) ∧
      ∀ other, other ≠ library →
        (m.add library r.units.values).libraries.get? other = m.libraries.get? other) ∧
    ∀ (accepts : Architecture → Bool) (c : Compiler) (library : String) (sourceDir outputDir : Path)
      (functions : List String) (h h' : Host) (r : MatrixResult),
      Registry.probe accepts = .ok c.registry →
      Runs (c.runMatrix library sourceDir functions outputDir).outcome h (.ok r) h' →
      (∀ a ∈ r.units.values, '_' ∉ a.optimization.toList) → r.WellKeyed := by
  refine ⟨fun x y hx hy => Cell.key_inj hx hy, fun m library r hfree hr => ?_,
    fun accepts c library sourceDir outputDir functions h h' r hp hr hl =>
      MatrixResult.wellKeyed_of_runMatrix hp hr hl⟩
  have hperm := entries_add_perm hfree hr.nodup_keys
  refine ⟨hperm, ?_, fun a ha => ⟨_, find?_add_of_mem hfree hr.nodup_keys ha,
    ManifestEntry.artifact_ofArtifact a⟩, fun other ho => libraries_add_of_ne ho⟩
  rw [← length_entries, ← length_entries, hperm.length_eq, List.length_append, List.length_map]
  simp only [MatrixResult.succeeded, OrderedMap.size, OrderedMap.values, List.length_map]

/-- Two functions, one without a name and one that starts with an underscore, are compiled for a library that has no
entries yet. -/
theorem two_units_are_recorded :
    let c : Compiler := ⟨⟨Architecture.catalog.take 1⟩, .writing [0],
      { CompileSettings.standard with levels := ["-O2"] }⟩
    let h : Host := ⟨⟨[(["src"], .directory), (["src", "_f.c"], .file (.bytes []) false),
      (["src", ".c"], .file (.bytes []) false)]⟩, [], [], ⟨0, 0⟩, "", 4, .empty⟩
    let m := (empty.add "other" [⟨"other", "g", "arm", "-O0", "gcc", ⟨"g"⟩, ⟨"g.c"⟩, 1, ""⟩]).add "lib" []
    Registry.probe (·.id == "x86") = .ok c.registry ∧ (∀ key, m.find? ("lib", key) = none) ∧
      ∃ r h', Runs (c.runMatrix "lib" ⟨"/src"⟩ ["_f", ""] ⟨"/out"⟩).outcome h (.ok r) h' ∧ r.WellKeyed ∧
        r.units.values.map (·.cell.key) = ["x86_-O2_", "x86_-O2__f"] ∧
        (m.add "lib" r.units.values).size = 3 ∧
        (m.add "lib" r.units.values).libraries.get? "other" = m.libraries.get? "other" ∧
        ∀ a ∈ r.units.values, ∃ e,
          (m.add "lib" r.units.values).find? ("lib", a.cell.key) = some e ∧ e.artifact a.compiler = a := by
  intro c h m
  obtain ⟨-, hrecorded, hreport⟩ := report_is_recorded
  have hp : Registry.probe (·.id == "x86") = .ok c.registry := by decide
  have hfree : ∀ key, m.find? ("lib", key) = none := by
    intro key
    unfold m
    rw [find?_add_nil]
    exact find?_add_of_ne (by decide) key
  have hends : ((c.runMatrix "lib" ⟨"/src"⟩ ["_f", ""] ⟨"/out"⟩).outcome.run h).toOption.any
      (·.1.toOption.any fun r => r.units.values.all (·.optimization == "-O2") &&
        r.units.values.map (·.cell.key) == ["x86_-O2_", "x86_-O2__f"]) = true := by
    decide +kernel
  cases hr : (c.runMatrix "lib" ⟨"/src"⟩ ["_f", ""] ⟨"/out"⟩).outcome.run h with
  | error e =>
    rw [hr] at hends
    cases hends
  | ok ended =>
    obtain ⟨result, h'⟩ := ended
    rw [hr] at hends
    cases result with
    | error e => cases hends
    | ok r =>
      have hunits : (∀ a ∈ r.units.values, a.optimization = "-O2") ∧
          r.units.values.map (·.cell.key) = ["x86_-O2_", "x86_-O2__f"] := by
        simpa [Except.toOption] using hends
      obtain ⟨hlevel, hkeys⟩ := hunits
      have hkeyed := hreport (·.id == "x86") c "lib" ⟨"/src"⟩ ⟨"/out"⟩ ["_f", ""] h h' r hp hr fun a ha => by
        rw [hlevel a ha]
        decide
      obtain ⟨-, hsize, hfound, hother⟩ := hrecorded m "lib" r hfree hkeyed
      have htwo : r.succeeded = 2 := by
        have hlength := congrArg List.length hkeys
        rwa [List.length_map, OrderedMap.values, List.length_map] at hlength
      have hone : m.size = 1 := by decide
      rw [hone, htwo] at hsize
      exact ⟨hp, hfree, r, h', hr, hkeyed, hkeys, hsize, hother "other" (by decide), hfound⟩

/-- Reports that differ in the compiler of their units give the same manifest. -/
theorem compiler_is_not_recorded :
    let unit (compiler : String) : Artifact := ⟨"lib", "f", "x86", "-O2", compiler, ⟨"b"⟩, ⟨"f.c"⟩, 1, "m"⟩
    let r (compiler : String) : MatrixResult :=
      ⟨"lib", .ofList [((unit compiler).cell, unit compiler)], 1, 0, 0⟩
    (r "gcc").WellKeyed ∧ (r "clang").WellKeyed ∧ unit "gcc" ∈ (r "gcc").units.values ∧
      unit "clang" ∈ (r "clang").units.values ∧ (unit "gcc").compiler ≠ (unit "clang").compiler ∧
      Manifest.empty.add "lib" (r "gcc").units.values = Manifest.empty.add "lib" (r "clang").units.values := by
  intro unit r
  exact ⟨⟨by decide, by decide, by decide⟩, ⟨by decide, by decide, by decide⟩, by decide, by decide, by decide,
    by decide⟩

end Manifest

end CipherCorpus
