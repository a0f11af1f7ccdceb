import CipherCorpus.Command.Place
import CipherCorpus.Config.File
import CipherCorpus.Dataset.Build
import CipherCorpus.Dataset.Labeling
import CipherCorpus.Dataset.Open
import CipherCorpus.Dataset.Verify
import CipherCorpus.Digest.Sha256

/-!
# Commands about a whole dataset

`buildDataset` records every run that ends with a manifest, the ones in which no library was built
included.
-/

namespace CipherCorpus.Command

/-- SHA-256 of a file in hexadecimal. -/
def fileHash (h : Host) (p : Path) : Except Failure String :=
  match h.files.openRead h.cwd p with
  | .error e => .error (Failure.under s!"Failed to open file for hashing: {p.text}" (.ofFile e))
  | .ok entry =>
    match FileTree.readEntry entry with
    | .error e => .error (Failure.under s!"Failed to read file for hashing: {p.text}" (.ofFile e))
    | .ok data => .ok (Digest.Sha256.text data)

/-- A step on the database, with a message for its failure. -/
def onDatabase {α : Type} (text : String) (a : Attempt Store.DatabaseError α) : Report α :=
  perform (a.inWords fun e => Failure.under text (.ofDatabase e))

/-- Record a run; the answer is its id and the database after it. -/
def storeRun (c : Store.Connection) (run : BuildRun) : Report (Int64 × Store.Connection) :=
  onDatabase "Failed to record build run" (c.update (Store.Database.insertRun run))

def statusText : Dataset.LibraryOutcome → String
  | .built => "built"
  | .nothingBuilt => "nothing built"
  | .sourceUnavailable reason => s!"source unavailable: {reason}"
  | .matrixFailed reason => s!"matrix failed: {reason}"

/-- Print the summary of a build. -/
def tellSummary (s : Dataset.Summary) : Report Unit := do
  tell "Dataset build finished:"
  tell ("  Architectures: " ++ ", ".intercalate s.architectures)
  tell s!"  Compiled {s.succeeded}/{s.attempted} successfully"
  tell "  Libraries:"
  for l in s.libraries do
    tell (s!"  - {l.name} [{statusText l.status}] functions={l.functions} " ++
      s!"succeeded={l.succeeded} failed={l.failed} missing_source={l.missingSource}")
  tell s!"  Metadata: {s.manifestPath.text}"

/-- What builds a dataset on this host. -/
def builderOn (o : Outside) (h : Host) (config : Config) (root : Path) : Except Failure DatasetBuilder :=
  match Registry.probe (Tools.hasCompiler h) with
  | .error e => .error (Failure.under "Failed to prepare dataset build" (.ofMessage e.message))
  | .ok registry =>
    let layout := Layout.ofRoot root
    .ok ⟨config, layout, ⟨layout.sources, o.fetcher⟩, ⟨registry, o.runner, config.compileSettings⟩⟩

/-- An outcome as a step. -/
def ofOutcome {α : Type} (x : Except Failure α) : Report α := ExceptT.mk (pure x)

/-- Record how a build ended, and store the labels of its binaries. -/
def recordBuild (o : Outside) (b : DatasetBuilder) (hash : String) (withLabels : Bool)
    (database : Store.Connection) (startedAt : String) :
    Except BuildError (Manifest × Dataset.Summary) → Report Unit
  | .error .noLibrariesBuilt => do
    let finishedAt ← look (·.date)
    let _ ← storeRun database (Dataset.failedRun (some hash) startedAt finishedAt)
    throw (.ofMessage
      s!"No library produced any binaries; manifest written to {b.layout.manifest.text}")
  | .error e => throw (Failure.under "Dataset build failed" ⟨e.causes⟩)
  | .ok (manifest, summary) => do
    let run := summary.run (some hash)
    let (id, database) ← storeRun database run
    tellSummary summary
    tell s!"  Run id: {id} ({run.status.name})"
    if withLabels then
      let reader ← look (o.lister · b.config.symbolLimit)
      let (stored, _) ← onDatabase "Failed to store labeled corpus"
        (Dataset.storeLabels reader manifest database)
      tell s!"  Labeled functions: {stored}"

/-- Build the dataset of a configuration file and record the run. -/
def buildDataset (o : Outside) (config output : String) (withLabels : Bool) : Report Unit := do
  let configPath : Path := ⟨config⟩
  let loaded ← look fun h =>
    (Config.load h configPath).mapError fun e =>
      Failure.under s!"Failed to load dataset config {configPath.text}" ⟨e.causes⟩
  let settings ← ofOutcome loaded
  let hash ← ofOutcome (← look (fileHash · configPath))
  let root ← look (absolutePath · output)
  let builder ← ofOutcome (← look (builderOn o · settings root))
  let database ← perform (Dataset.openDatabase builder.layout)
  let startedAt ← look (·.date)
  let outcome ← act builder.build.outcome
  recordBuild o builder hash withLabels database startedAt outcome

/-- Label the binaries of an existing dataset and store the labels. -/
def labelBinaries (o : Outside) (output : String) : Report Unit := do
  let root ← look (absolutePath · output)
  let context ← perform (Dataset.Context.ofRoot root)
  let reader ← look (o.lister · symbolLimit)
  let (stored, database) ← onDatabase "Failed to store labeled functions"
    (Dataset.storeLabels reader context.manifest context.database)
  let stats ← onDatabase "Failed to compute corpus stats" (database.query Store.Database.stats)
  tell "Labeled corpus:"
  tell s!"  Binaries in manifest: {context.manifest.size}"
  tell s!"  Functions stored: {stored}"
  tell s!"  Corpus: {stats.functions} functions across {stats.binaries} binaries"
  for (algorithm, count) in stats.byAlgorithm do tell s!"  - {algorithm}: {count}"
  tell s!"  DB: {context.layout.database.text}"

/-- Compare the binaries of a dataset with its manifest; fails when one is not as recorded. -/
def verify (output : String) (json : Bool) : Report Unit := do
  let layout ← look (layoutOf · output)
  let manifest ← perform (Dataset.loadManifest layout)
  let report ← look (Dataset.verify · manifest)
  if json then tell report.toJson.prettyText
  else
    tell s!"Verified {report.checked} binaries:"
    tell s!"  Missing: {report.missing.length}"
    for p in report.missing do tell s!"  - missing {p.text}"
    tell s!"  Mismatched: {report.mismatched.length}"
    for p in report.mismatched do tell s!"  - mismatched {p.text}"
  if !report.isOk then
    throw (.ofMessage s!"{report.faults} of {report.checked} binaries failed verification")

/-- List the stored functions of a dataset. -/
def listFunctions (output : String) (json : Bool) : Report Unit := do
  let layout ← look (layoutOf · output)
  let database ← perform (Dataset.openDatabase layout)
  let functions ← onDatabase "Failed to list labeled functions"
    (database.query (Store.Database.listFunctions none))
  if json then tell (Json.Value.list (functions.map Json.toJson)).prettyText
  else
    tell s!"Labeled functions ({functions.length}):"
    if functions.isEmpty then tell "  (none)"
    for f in functions do
      let g := f.function
      tell (s!"  - {g.binaryPath.text} {g.name} @ {addressText g.address} " ++
        s!"size={sizeText g.size} [{f.label.algorithm}]")

end CipherCorpus.Command
