import CipherCorpus.Failure
import CipherCorpus.Manifest.File

/-!
# Opening a dataset

The manifest and the database of a dataset root.
-/

namespace CipherCorpus.Dataset

/-- The manifest of a dataset. -/
def loadManifest (l : Layout) : Attempt Failure Manifest :=
  (Manifest.load l.manifest).inWords fun e =>
    Failure.under s!"Failed to load compilation metadata at {l.manifest.text}" ⟨e.causes⟩

/-- The database of a dataset; the root is made when it is not there. -/
def openDatabase (l : Layout) : Attempt Failure Store.Connection := do
  (change fun t cwd => t.makeDirectories cwd l.root).inWords fun e =>
    Failure.under s!"Failed to create {l.root.text}" (.ofFile e)
  (Store.Connection.openAt l.database).inWords fun e =>
    Failure.under s!"Failed to open corpus database at {l.database.text}" (.ofDatabase e)

/-- An existing dataset. -/
structure Context where
  layout : Layout
  manifest : Manifest
  database : Store.Connection

/-- Open the dataset at a root. -/
def Context.ofRoot (root : Path) : Attempt Failure Context := do
  let layout := Layout.ofRoot root
  let manifest ← loadManifest layout
  let database ← openDatabase layout
  return ⟨layout, manifest, database⟩

end CipherCorpus.Dataset
