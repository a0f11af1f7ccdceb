import CipherCorpus.Artifact
import CipherCorpus.Total

/-!
# The manifest of a dataset

Library name to cell key to entry, both in key order. Adding the artifacts of a library registers
the library even when there are none.
-/

namespace CipherCorpus

/-- What the manifest records about one artifact. -/
structure ManifestEntry where
  binaryPath : Path
  sourcePath : Path
  architecture : String
  optimization : String
  function : String
  library : String
  size : UInt64
  md5 : String
deriving DecidableEq, Repr

def ManifestEntry.ofArtifact (a : Artifact) : ManifestEntry :=
  ⟨a.binaryPath, a.sourcePath, a.architecture, a.optimization, a.function, a.library, a.size, a.md5⟩

/-- The artifacts of a dataset by library and cell key. -/
structure Manifest where
  libraries : OrderedMap String (OrderedMap String ManifestEntry)
deriving DecidableEq, Inhabited

namespace Manifest

def empty : Manifest := ⟨OrderedMap.empty⟩

/-- Record artifacts in one library's map, a later one in place of an earlier one of equal key. -/
def addAll (entries : OrderedMap String ManifestEntry) (artifacts : List Artifact) :
    OrderedMap String ManifestEntry :=
  artifacts.foldl (fun m a => m.insert a.cell.key (.ofArtifact a)) entries

/-- Record the artifacts of a library. -/
def add (m : Manifest) (library : String) (artifacts : List Artifact) : Manifest :=
  ⟨m.libraries.insert library (addAll ((m.libraries.get? library).getD .empty) artifacts)⟩

/-- Library, key and entry, in order. -/
def entries (m : Manifest) : List (String × String × ManifestEntry) :=
  m.libraries.entries.flatMap fun l => l.2.entries.map fun e => (l.1, e.1, e.2)

def size (m : Manifest) : Nat := total (m.libraries.values.map (·.size))

def isEmpty (m : Manifest) : Bool := m.size == 0

theorem length_entries (m : Manifest) : m.entries.length = m.size := by
  simp only [entries, size, OrderedMap.values, OrderedMap.size]
  induction m.libraries.entries with
  | nil => rfl
  | cons l rest ih => simp [ih]

/-- The recorded binaries, in order. -/
def binaries (m : Manifest) : List Path := m.entries.map fun e => e.2.2.binaryPath

end Manifest

end CipherCorpus
