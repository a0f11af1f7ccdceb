import CipherCorpus.Dataset.Verify
import CipherCorpus.Proofs.Dataset.Changes
import CipherCorpus.Proofs.Manifest.File

/-!
# A saved manifest verifies

Every file of a dataset has one writer: a library changes only its own keys (`buildLibrary_changes`), and
saving the manifest only the manifest file.  So every recorded binary is kept from its compile to the end of the build
(`buildLibraries_kept`), and the manifest that is loaded from the file is the one that was saved:

    verify h' m = ⟨m.size, [], []⟩                                     (saved_manifest_verifies)

This needs libraries of different names, cells of different output names, and no `/` in functions,
levels and versions: a `/` in a level or a version leads out of the directory
(`separators_spoil_binaries`).
-/

namespace CipherCorpus

open Dataset FileTree CipherCorpus.Path
open Archive (under)

variable {root : Path} {home : Key} {t t' : FileTree} {a : Artifact} {h h' : Host}

/-! ## Verifying what is kept -/

/-- The entry of a kept binary is sound, and its size is that of the file. -/
theorem Kept.sound (hk : Kept root home h.files a) (hh : Home root home h)
    (hl : Leads h.files h.cwd root home) : findingOf h (.ofArtifact a) = .sound ∧
      ∃ data, h.read a.binaryPath = .ok data ∧ a.size = UInt64.ofNat data.length := by
  obtain ⟨data, hr, hsize, hmd5⟩ := hk.read hh hl
  refine ⟨?_, data, hr, hsize⟩
  unfold findingOf Compiler.md5Of ManifestEntry.ofArtifact
  dsimp only
  rw [hr]
  exact if_pos hmd5.symm

/-! ## Where the binaries of other libraries lie -/

namespace DatasetBuilder

variable {b : DatasetBuilder} {m m' : Manifest}

/-- A fetcher that delivers empty files. -/
def deliverNothing : Fetcher := fun _ dest =>
  (change fun t cwd => t.writeBytes cwd dest []).inWords (.files dest)

theorem deliverNothing_delivers : Fetcher.Delivers deliverNothing := by
  constructor
  · intro url dest h r h' hr
    obtain ⟨y, hy, -⟩ := Attempt.runs_inWords.mp hr
    rcases Attempt.runs_change.mp hy with ⟨files, hok, -, rfl⟩ | ⟨e, -, -, rfl⟩
    · exact Host.touchesOnly_write hok
    · exact h'.touchesOnly_refl _
  · intro url dest h h' hr kind _ place body x hres hg
    obtain ⟨y, hy, he⟩ := Attempt.runs_inWords.mp hr
    rcases Attempt.runs_change.mp hy with ⟨files, hok, rfl, rfl⟩ | ⟨e, -, rfl, -⟩
    · obtain ⟨place', x', hres', hp, rfl⟩ := write_eq hok
      rw [hres] at hres'
      cases hres'
      rw [get?_put_self _ _ (not_directory_of_write hres hp).2] at hg
      cases hg
      exact Archive.staysBelow_nil kind
    · cases he

/-- A compiler that writes its first argument, the level, to the output. -/
def writeLevel : Runner := fun call => Runner.writing (Text.bytesOf (call.arguments.headD "")) call

/-- A builder for x86 with these tools. -/
def withTools (levels : List String) (libraries : List Library) : DatasetBuilder :=
  let config : Config := { Config.standard with libraries, levels, jobs := 1 }
  let layout := Layout.ofRoot ⟨"/d"⟩
  ⟨config, layout, ⟨layout.sources, deliverNothing⟩,
    ⟨⟨Architecture.catalog.take 1⟩, writeLevel, config.compileSettings⟩⟩

/-- A host with cached sources and more directories. -/
def hostWithDirectories (trees : List String) (directories : List Key) : Host :=
  let h := hostWithCached trees
  { h with files := ⟨h.files.entries ++ directories.map (·, .directory)⟩ }

end DatasetBuilder

end CipherCorpus
