import CipherCorpus.Path

/-!
# Where a dataset keeps its files
-/

namespace CipherCorpus

/-- Name of the manifest file. -/
def manifestFileName : String := "compilation_metadata.json"

/-- The places of one dataset, all computed from its root. -/
structure Layout where
  root : Path
  sources : Path
  downloads : Path
  binaries : Path
  manifest : Path
  database : Path
deriving DecidableEq, Repr

namespace Layout

/-- Where archives are kept while they are unpacked. -/
def downloadsOf (sources : Path) : Path := sources.child ".downloads"

def ofRoot (root : Path) : Layout :=
  let sources := root.child "sources"
  ⟨root, sources, downloadsOf sources, root.child "binaries", root.child manifestFileName,
    root.child "corpus.db"⟩

/-- Where the binaries of one library go. -/
def libraryBinaries (l : Layout) (library : String) : Path := l.binaries.child library

end Layout

end CipherCorpus
