import CipherCorpus.Config.Basic
import CipherCorpus.Dataset.Catalog
import CipherCorpus.Dataset.Summary
import CipherCorpus.Manifest.File
import CipherCorpus.Sources.Cache

/-!
# Building a dataset

The libraries of the configuration are acquired and compiled one after the other. One that cannot be
had or compiled is noted and passed over. The manifest is written in any case; the build fails when
no library gave a binary.
-/

namespace CipherCorpus

/-- What a build uses. -/
structure DatasetBuilder where
  config : Config
  layout : Layout
  sources : SourceCache
  compiler : Compiler

/-- Why a dataset is not built. -/
inductive BuildError where
  | toolchain (error : RegistryError)
  | noLibrariesBuilt
  | manifest (error : ManifestError)
  | files (path : Path) (error : FileError)
deriving DecidableEq, Repr

namespace BuildError

def message : BuildError → String
  | toolchain error => error.message
  | noLibrariesBuilt => "No library in the config produced any binaries"
  | manifest error => error.message
  | files path error => s!"I/O error at {path.text}: {error.message}"

/-- The message and those of its causes. -/
def causes (e : BuildError) : List String :=
  match e with
  | manifest error => error.causes
  | files _ error => [e.message, error.message]
  | _ => [e.message]

end BuildError

namespace DatasetBuilder

/-- The functions to compile from a library. -/
def functionsOf (l : Library) : List String := l.functions.getD (Dataset.functionsOf l.name)

/-- Acquire and compile one library; its artifacts go into the manifest. -/
def buildLibrary (b : DatasetBuilder) (l : Library) (m : Manifest) :
    Action (Dataset.LibraryReport × Manifest) := do
  let functions := functionsOf l
  match ← (b.sources.tree l.name l.version l.url).outcome with
  | .error e => return (.withoutBinaries l.name functions.length (.sourceUnavailable e.message), m)
  | .ok sources =>
    let output := b.layout.libraryBinaries l.name
    match ← (b.compiler.runMatrix l.name sources functions output).outcome with
    | .error e => return (.withoutBinaries l.name functions.length (.matrixFailed e.message), m)
    | .ok report => return (.ofReport l.name functions.length report, m.add l.name report.units.values)

/-- Build libraries in order. -/
def buildLibraries (b : DatasetBuilder) (m : Manifest) :
    List Library → Action (List Dataset.LibraryReport × Manifest)
  | [] => return ([], m)
  | l :: rest => do
    let (summary, m) ← b.buildLibrary l m
    let (summaries, m) ← b.buildLibraries m rest
    return (summary :: summaries, m)

/-- Build the whole dataset. -/
def build (b : DatasetBuilder) : Attempt BuildError (Manifest × Dataset.Summary) := do
  let startedAt := (← get).date
  (change fun t cwd => t.makeDirectories cwd b.layout.binaries).inWords (.files b.layout.binaries)
  let (libraries, m) ← .ofAction (b.buildLibraries .empty b.config.libraries)
  (m.save b.layout.manifest).inWords .manifest
  let finishedAt := (← get).date
  let summary : Dataset.Summary :=
    ⟨startedAt, finishedAt, b.compiler.registry.ids, libraries, b.layout.manifest⟩
  if summary.builtLibraries = 0 then throw .noLibrariesBuilt
  return (m, summary)

end DatasetBuilder

end CipherCorpus
