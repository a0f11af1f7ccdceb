import CipherCorpus.Proofs.Command.Stored
import CipherCorpus.Proofs.Dataset.Accounts

/-!
# The recorded run

A build that ends with a manifest appends one row to the runs of the database.  When some library was
built the row tells what happened: its counts are the sums over the libraries, and the attempted cells are
those that were shown to the observer (`build_appends_run`).

When no library was built the row has zeros, whether cells were attempted or not
(`failed_cells_are_recorded_as_none`).
-/

namespace CipherCorpus

open Dataset FileTree

/-! ## What is shown to the observer -/

/-- Only the program itself shows a cell to the observer; the attempt shows none. -/
def Attempt.ShowsNothing {ε α : Type} (x : Attempt ε α) : Prop :=
  ∀ h r h', Runs x.outcome h r h' → h'.trace.progress = h.trace.progress

/-- A tool shows nothing to the observer. -/
def Runner.ShowsNothing (run : Runner) : Prop :=
  ∀ call h r h', Runs (run call) h r h' → h'.trace.progress = h.trace.progress

namespace Attempt.ShowsNothing

variable {ε ε' α β : Type}

theorem pure (a : α) : ShowsNothing (pure a : Attempt ε α) := by
  intro h r h' hr
  obtain ⟨-, rfl⟩ := runs_pure.mp hr
  rfl

theorem throw (e : ε) : ShowsNothing (throw e : Attempt ε α) := by
  intro h r h' hr
  obtain ⟨-, rfl⟩ := runs_pure.mp hr
  rfl

theorem bind {x : Attempt ε α} {f : α → Attempt ε β} (hx : ShowsNothing x) (hf : ∀ a, ShowsNothing (f a)) :
    ShowsNothing (x >>= f) := by
  intro h r h' hr
  rcases Attempt.runs_bind.mp hr with ⟨a, h1, ha, hr⟩ | ⟨e, he, -⟩
  · exact (hf a _ _ _ hr).trans (hx _ _ _ ha)
  · exact hx _ _ _ he

theorem inWords {x : Attempt ε α} (hx : ShowsNothing x) (w : ε → ε') : ShowsNothing (x.inWords w) := by
  intro h r h' hr
  obtain ⟨y, hy, -⟩ := Attempt.runs_inWords.mp hr
  exact hx _ _ _ hy

theorem get : ShowsNothing (get : Attempt ε Host) := by
  intro h r h' hr
  obtain ⟨-, rfl⟩ := Attempt.runs_get.mp hr
  rfl

theorem inspect (f : Host → α) : ShowsNothing (inspect f : Attempt ε α) := by
  intro h r h' hr
  obtain ⟨-, rfl⟩ := Attempt.runs_inspect.mp hr
  rfl

theorem change (f : FileTree → Key → Except FileError FileTree) : ShowsNothing (change f) := by
  intro h r h' hr
  rcases Attempt.runs_change.mp hr with ⟨files, -, -, rfl⟩ | ⟨e, -, -, rfl⟩
  · rfl
  · rfl

end Attempt.ShowsNothing

open Attempt (ShowsNothing)

namespace SourceCache

variable {a : SourceCache}

theorem showsNothing_perform (hf : ∀ url p, (a.fetcher url p).ShowsNothing) (cached : Path) (r : Request)
    (w : Work) : (a.perform cached r w).ShowsNothing := by
  have hfiles : ∀ p f, (filesAt p f).ShowsNothing := fun p f => (ShowsNothing.change f).inWords _
  cases w with
  | fetch =>
    refine (hfiles _ _).bind fun _ => ShowsNothing.bind ?_ fun _ => hf _ _
    intro h r h' hr
    obtain ⟨-, rfl⟩ := Attempt.runs_modify.mp hr
    rfl
  | reset =>
    refine (ShowsNothing.inspect _).bind fun there => ?_
    split
    · exact (hfiles _ _).bind fun _ => hfiles _ _
    · exact hfiles _ _
  | unpack =>
    intro h x h' hr
    rcases runs_unpackFile hr with rfl | ⟨key, e, data, -, -, rfl⟩
    · rfl
    · rfl
  | place =>
    refine ShowsNothing.get.bind fun h => ?_
    split
    · exact .throw _
    · dsimp only
      split
      · exact (hfiles _ _).bind fun _ => hfiles _ _
      · exact hfiles _ _
    · exact hfiles _ _
  | discard => exact hfiles _ _

theorem showsNothing_tree (hf : ∀ url p, (a.fetcher url p).ShowsNothing) (name : String)
    (version url : Option String) : (a.tree name version url).ShowsNothing := by
  have hall : ∀ cached r works, (a.performAll cached r works).ShowsNothing := by
    intro cached r works
    induction works with
    | nil => exact .pure _
    | cons w rest ih => exact (showsNothing_perform hf cached r w).bind fun _ => ih
  rw [tree_eq]
  refine (ShowsNothing.inspect _).bind fun there => ?_
  split
  · exact .pure _
  · refine ShowsNothing.bind ?_ fun r => hall _ _ _
    cases request name url with
    | ok r => exact .pure r
    | error e => exact .throw e

end SourceCache

namespace Compiler

variable {c : Compiler} {library : String} {outputDir : Path}

theorem progress_runCell (hs : c.runner.ShowsNothing) {cell : Cell} {source? : Option Path} {h h' : Host}
    {outcome : CellResult} (hr : Runs (c.runCell library outputDir cell source?) h outcome h') :
    h'.trace.progress = h.trace.progress := by
  cases source? with
  | none =>
    obtain ⟨-, rfl⟩ := runs_pure.mp hr
    rfl
  | some source =>
    obtain ⟨compiled, h1, hc, hr⟩ := runs_bind.mp hr
    have hend : h' = h1 := by
      split at hr
      · exact (runs_measure.mp hr).1
      · exact (runs_pure.mp hr).2
    rw [hend]
    rcases runs_compileSource.mp hc with ⟨-, -, rfl⟩ | ⟨profile, answer, g, -, hcall, -, rfl⟩
    · rfl
    · have hsame := hs _ _ _ _ hcall
      exact hsame

/-- Each cell is shown once. -/
theorem progress_buildCells (hs : c.runner.ShowsNothing) {total : Nat} (jobs : List Job) :
    ∀ {done : Nat} {report r : MatrixResult} {h h' : Host},
      Runs (c.buildCells library outputDir total done report jobs) h r h' →
      h'.trace.progress = h.trace.progress ++ (List.range' (done + 1) jobs.length).map (⟨·, total⟩) := by
  induction jobs with
  | nil =>
    intro done report r h h' hr
    obtain ⟨-, rfl⟩ := runs_pure.mp hr
    exact (List.append_nil _).symm
  | cons job rest ih =>
    intro done report r h h' hr
    obtain ⟨outcome, h1, hcell, hr⟩ := runs_bind.mp hr
    obtain ⟨u, h2, hshow, hr⟩ := runs_bind.mp hr
    obtain rfl := runs_modify.mp hshow
    rw [ih hr, progress_runCell hs hcell, List.length_cons, List.range'_succ, List.map_cons, List.append_assoc]
    rfl

end Compiler

namespace DatasetBuilder

variable {b : DatasetBuilder}

/-- The cells of a library are shown when its matrix runs. -/
theorem progress_compile (hs : b.compiler.runner.ShowsNothing) {l : Library} {sources : Path} {h h' : Host}
    {r : Except MatrixFailure MatrixResult} (hr : Runs (b.compile l sources).outcome h r h') :
    h'.trace.progress.length =
      h.trace.progress.length + r.toOption.elim 0 fun _ => (b.compiler.cellsFor (functionsOf l)).length := by
  rcases Compiler.runs_runMatrix.mp hr with ⟨e, -, rfl, rfl⟩ | ⟨files, -, ⟨-, rfl, rfl⟩ | ⟨-, report, rfl, hb⟩⟩
  · rfl
  · rfl
  · rw [Compiler.progress_buildCells hs _ hb, List.length_append, List.length_map, List.length_range']
    exact congrArg _ (List.length_map ..)

/-- As many cells are shown as the summary tells of. -/
theorem progress_buildLibraries (hs : b.compiler.runner.ShowsNothing)
    (hf : ∀ url p, (b.sources.fetcher url p).ShowsNothing) (libraries : List Library) :
    ∀ {reports : List (Option MatrixResult)} {ss : List LibraryReport} {h h' : Host},
      b.Reports h libraries reports h' → b.AccountsForAll libraries reports ss →
      h'.trace.progress.length = h.trace.progress.length + total (ss.map (·.attempted)) := by
  have hacquire : ∀ {l : Library} {h r h'}, Runs (b.acquire l).outcome h r h' →
      h'.trace.progress = h.trace.progress := fun hr => SourceCache.showsNothing_tree hf _ _ _ _ _ _ hr
  intro reports ss h h' hr ha
  induction hr generalizing ss with
  | nil h =>
    cases ha
    rfl
  | unavailable hacq _ ih =>
    cases ha with
    | cons hacc hrest =>
      rw [ih hrest, hacquire hacq, List.map_cons, total_cons, hacc.attempted]
      exact congrArg _ (Nat.zero_add _).symm
  | failed hacq hc _ ih =>
    cases ha with
    | cons hacc hrest =>
      rw [ih hrest, progress_compile hs hc, hacquire hacq, List.map_cons, total_cons, hacc.attempted,
        Nat.add_assoc]
      rfl
  | compiled hacq hc _ ih =>
    cases ha with
    | cons hacc hrest =>
      rw [ih hrest, progress_compile hs hc, hacquire hacq, List.map_cons, total_cons, hacc.attempted,
        Nat.add_assoc]
      rfl

theorem showsNothing_save (m : Manifest) (p : Path) : (m.save p).ShowsNothing := by
  unfold Manifest.save
  split
  · exact ((ShowsNothing.change _).inWords _).bind fun _ => (ShowsNothing.change _).inWords _
  · exact (ShowsNothing.pure _).bind fun _ => (ShowsNothing.change _).inWords _

/-- What a build that ends with a manifest tells of its libraries, and that it shows every cell that it
attempts. -/
theorem progress_build (hs : b.compiler.runner.ShowsNothing)
    (hf : ∀ url p, (b.sources.fetcher url p).ShowsNothing) {accepts : Architecture → Bool}
    (hp : Registry.probe accepts = .ok b.compiler.registry) {h h' : Host}
    {built : Except BuildError (Manifest × Summary)} (hr : Runs b.build.outcome h built h')
    (hend : built = .error .noLibrariesBuilt ∨ ∃ m s, built = .ok (m, s)) :
    ∃ g g' reports ss, b.Reports g b.config.libraries reports g' ∧
      b.AccountsForAll b.config.libraries reports ss ∧
      h'.trace.progress.length = h.trace.progress.length + total (ss.map (·.attempted)) ∧
      ∀ m s, built = .ok (m, s) → s.libraries = ss ∧ s.builtLibraries ≠ 0 := by
  rcases runs_build.mp hr with ⟨e, -, rfl, -⟩ | ⟨files, ss, m, h1, -, hb, ⟨e, -, rfl⟩ | ⟨hsave, hresult⟩⟩
  · rcases hend with he | ⟨m, s, he⟩ <;> cases he
  · rcases hend with he | ⟨m, s, he⟩ <;> cases he
  · obtain ⟨reports, hreps, hacc, -⟩ := buildLibraries_reports hp _ hb
    refine ⟨_, h1, reports, ss, hreps, hacc, ?_, fun m' s he => ?_⟩
    · have hshown := progress_buildLibraries hs hf _ hreps hacc
      rw [showsNothing_save m _ _ _ _ hsave]
      exact hshown
    · rw [hresult] at he
      split at he
      · cases he
      · next hz =>
        cases he
        exact ⟨rfl, hz⟩

/-- A build of libraries with proper names leaves the file of the database. -/
theorem get?_database_of_build {root : Path} {home : Key} {h h' : Host} {e : Entry}
    {r : Except BuildError (Manifest × Summary)} (hg : h.files.get? (home ++ ["corpus.db"]) = some e)
    (hb : b.Confined root) (hl : ∀ l ∈ b.config.libraries, b.compiler.EntryNames l)
    (hh : Home root home h) (hr : Runs b.build.outcome h r h') :
    h'.files.get? (home ++ ["corpus.db"]) = some e := by
  have hother : ¬ (builtKeys home (home ++ ["corpus.db"]) ∨
      home ++ ["corpus.db"] = home ++ [manifestFileName]) := by
    rintro ((hk | hk) | he)
    · exact InOrder.not_prefix_of_ne (by decide) hk
    · exact InOrder.not_prefix_of_ne (by decide) hk
    · exact absurd (List.append_cancel_left he) (by decide)
  rcases (DatasetBuilder.build_changes hb hl hh hr).files.frame _ hother with he | ⟨hnone, -⟩
  · exact he.trans hg
  · cases hg.symm.trans hnone

end DatasetBuilder

/-! ## One row more -/

namespace Store

/-- The file at a key holds a database with these runs. -/
def RunsAt (key : Key) (h : Host) (rows : List RunRow) : Prop :=
  ∃ db x, h.files.get? key = some (.file (.database db) x) ∧ db.runs = some rows

theorem RunsAt.of_same {key : Key} {h h' : Host} {rows : List RunRow} (hr : RunsAt key h rows)
    (hsame : h'.files.get? key = h.files.get? key) : RunsAt key h' rows := by
  obtain ⟨db, x, hg, hruns⟩ := hr
  exact ⟨db, x, hsame.trans hg, hruns⟩

/-- A build of libraries with proper names leaves the runs of the database. -/
theorem RunsAt.build {b : DatasetBuilder} {root : Path} {home : Key} {h h' : Host} {rows : List RunRow}
    {r : Except BuildError (Manifest × Summary)} (hat : RunsAt (home ++ ["corpus.db"]) h rows)
    (hb : b.Confined root) (hl : ∀ l ∈ b.config.libraries, b.compiler.EntryNames l)
    (hh : Home root home h) (hr : Runs b.build.outcome h r h') : RunsAt (home ++ ["corpus.db"]) h' rows := by
  obtain ⟨db, x, hg, hruns⟩ := hat
  exact ⟨db, x, DatasetBuilder.get?_database_of_build hg hb hl hh hr, hruns⟩

theorem Database.insertRun_eq {db : Database} {rows : List RunRow} {id : Int64} (hruns : db.runs = some rows)
    (hid : nextRunId? rows = some id) (run : BuildRun) :
    db.insertRun run = .ok (id, { db with runs := some (rows ++ [.ofRun id run]) }) := by
  unfold insertRun insertRunRow runRows
  rw [hruns]
  simp only [bind, Except.bind, hid]
  rfl

theorem Database.runs_transact (db : Database) (refused : Nat → Option Fault) (statements : List Statement) :
    (db.transact refused statements).2.runs = db.runs := by
  unfold transact
  split
  · rfl
  · split <;> rfl

namespace Connection

variable {c c' : Connection} {key : Key} {h h' : Host} {rows : List RunRow}

/-- A change of the database that says what becomes of the runs. -/
theorem runsAt_update {α : Type} {f : Database → Except Fault (α × Database)} {rows' : List RunRow}
    {r : Except DatabaseError (α × Connection)} (hkey : c.key = some key) (hat : RunsAt key h rows)
    (hf : ∀ db, db.runs = some rows → (∃ a db', f db = .ok (a, db') ∧ db'.runs = some rows') ∨
      rows' = rows ∧ ∃ fault, f db = .error fault)
    (hr : Runs (c.update f).outcome h r h') :
    RunsAt key h' rows' ∧ ∀ a c', r = .ok (a, c') → c'.key = some key := by
  obtain ⟨db, x, hg, hruns⟩ := hat
  have hload : c.load h = db := load_eq hkey hg
  rcases runs_update.mp hr with ⟨a, db1, hok, rfl, rfl⟩ | ⟨fault, herror, rfl, rfl⟩
  · rw [hload] at hok
    have hruns' : db1.runs = some rows' := by
      rcases hf db hruns with ⟨a', db', he, hruns'⟩ | ⟨-, fault, he⟩
      · cases hok.symm.trans he
        exact hruns'
      · cases hok.symm.trans he
    refine ⟨⟨db1, x, ?_, hruns'⟩, fun a' c' he => ?_⟩
    · rw [written, hkey]
      exact get?_writeImage hg
    · cases he
      exact hkey
  · rw [hload] at herror
    refine ⟨?_, nofun⟩
    rcases hf db hruns with ⟨a', db', he, -⟩ | ⟨rfl, -⟩
    · cases herror.symm.trans he
    · exact ⟨db, x, hg, hruns⟩

theorem runsAt_insertRun {id : Int64} {run : BuildRun} {r : Except DatabaseError (Int64 × Connection)}
    (hkey : c.key = some key) (hat : RunsAt key h rows) (hid : Database.nextRunId? rows = some id)
    (hr : Runs (c.update (Database.insertRun run)).outcome h r h') :
    RunsAt key h' (rows ++ [.ofRun id run]) ∧ ∀ a c', r = .ok (a, c') → c'.key = some key :=
  runsAt_update hkey hat (fun _ hruns => Or.inl ⟨id, _, Database.insertRun_eq hruns hid run, rfl⟩) hr

/-- Storing labels leaves the runs, when listing the symbols of binaries leaves the file. -/
theorem runsAt_storeLabels {reader : SymbolSource} {m : Manifest}
    {r : Except DatabaseError (Nat × Connection)} (hkey : c.key = some key) (hat : RunsAt key h rows)
    (hlist : ∀ p g fs g', Runs (recoverFunctions reader p) g fs g' → g'.files.get? key = g.files.get? key)
    (hr : Runs (storeLabels reader m c).outcome h r h') : RunsAt key h' rows := by
  obtain ⟨labeled, h1, hlabels, hr⟩ := Attempt.runs_ofAction_bind.mp hr
  have hread : h1.files.get? key = h.files.get? key :=
    labelBinaries_relates (R := fun g g' => g'.files.get? key = g.files.get? key) (fun _ => rfl)
      (fun h1 h2 => h2.trans h1) (fun p _ => hlist p) hlabels
  refine (runsAt_update hkey (hat.of_same hread) (fun db hruns => ?_) hr).1
  have hkept := db.runs_transact Database.noRefusal (Database.replaceStatements m.binaries labeled)
  unfold Database.replaceFunctions
  split
  · next n db' he =>
    rw [he] at hkept
    exact Or.inl ⟨n, db', rfl, hkept.trans hruns⟩
  · next fault db' he => exact Or.inr ⟨rfl, fault, rfl⟩

end Connection

end Store

/-! ## Main result -/

namespace Command

open Store

/-- Listing the symbols of a binary leaves the file at a key. -/
def Outside.ListsBeside (o : Outside) (key : Key) : Prop :=
  ∀ g limit p h fs h', Runs (recoverFunctions (o.lister g limit) p) h fs h' →
    h'.files.get? key = h.files.get? key

/-- **A build appends its run.**  The build of a command that has opened its database ends in some way.
When it ends with a manifest, it has shown to the observer the cells that it attempted, as many as it tells
of its libraries.  If it has left the file of the database (`RunsAt.build`), one row is then appended to
the runs: with the sums over the libraries when some library was built, with zeros when none was. -/
theorem build_appends_run {o : Outside} {config output hash : String} {withLabels : Bool} {h h1 h' : Host}
    {b : DatasetBuilder} {c : Connection} {key : Key} {x : Except Failure Unit}
    (hrun : o.runner.ShowsNothing) (hfetch : ∀ url p, (o.fetcher url p).ShowsNothing)
    (hlist : o.ListsBeside key) (hp : Prepares o config output h hash b)
    (hopen : Runs (openDatabase b.layout).outcome h (.ok c) h1) (hkey : c.key = some key)
    (hd : (buildDataset o config output withLabels).Does h x h') :
    ∃ built h2, Runs b.build.outcome h1 built h2 ∧
      (built = .error .noLibrariesBuilt ∨ (∃ m s, built = .ok (m, s)) →
        ∃ g g' reports ss, b.Reports g b.config.libraries reports g' ∧
          b.AccountsForAll b.config.libraries reports ss ∧
          h2.trace.progress.length = h1.trace.progress.length + total (ss.map (·.attempted)) ∧
          ∀ {rows id}, RunsAt key h2 rows → Database.nextRunId? rows = some id →
            (∀ m s, built = .ok (m, s) → s.libraries = ss ∧ Totals ss (s.run (some hash)) ∧
              RunsAt key h' (rows ++ [.ofRun id (s.run (some hash))])) ∧
            (built = .error .noLibrariesBuilt →
              RunsAt key h' (rows ++ [.ofRun id (failedRun (some hash) h1.date h2.date)]))) := by
  obtain ⟨accepts, hprobe, hrunner, hfetcher⟩ : ∃ accepts,
      Registry.probe accepts = .ok b.compiler.registry ∧ b.compiler.runner = o.runner ∧
        b.sources.fetcher = o.fetcher := by
    obtain ⟨settings, -, hb⟩ := hp.builder
    obtain ⟨registry, hprobe, rfl⟩ := builderOn_eq hb
    exact ⟨_, hprobe, rfl, rfl⟩
  rcases buildDataset_cases hd with ⟨-, hno⟩ | ⟨hash', b', hp', hrest⟩
  · exact absurd hp (hno hash b)
  obtain ⟨rfl, rfl⟩ := hp.unique hp'
  rcases hrest with ⟨e, hfail⟩ | ⟨c', h1', built, h2, hopen', hbuild, hrecorded⟩
  · cases (hopen.unique hfail).1
  obtain ⟨he, rfl⟩ := hopen.unique hopen'
  cases he
  refine ⟨built, h2, hbuild, fun hend => ?_⟩
  obtain ⟨g, g', reports, ss, hreps, hacc, hshown, hsum⟩ := b.progress_build (hrunner ▸ hrun)
    (hfetcher ▸ hfetch) hprobe hbuild hend
  refine ⟨g, g', reports, ss, hreps, hacc, hshown, fun {rows id} hat hid => ⟨?_, ?_⟩⟩
  · rintro m s rfl
    obtain ⟨rfl, hbuilt⟩ := hsum m s rfl
    refine ⟨rfl, Summary.totals hacc.sum hbuilt _, ?_⟩
    cases hrecorded with
    | run hr => exact (Connection.runsAt_insertRun hkey hat hid hr).1
    | labels hr hl =>
      obtain ⟨hat', hkey'⟩ := Connection.runsAt_insertRun hkey hat hid hr
      exact Connection.runsAt_storeLabels (hkey' _ _ rfl) hat' (hlist _ _) hl
  · rintro rfl
    cases hrecorded with
    | nothing he => exact absurd rfl he
    | failed hr => exact (Connection.runsAt_insertRun hkey hat hid hr).1

/-! ## Builds that can be computed -/

/-- The runs of the database in the file at a key. -/
def runsAt? (key : Key) (h : Host) : Option (List RunRow) :=
  match h.files.get? key with
  | some (.file (.database db) _) => db.runs
  | _ => none

theorem runsAt_of_eq_some {key : Key} {h : Host} {rows : List RunRow} (hr : runsAt? key h = some rows) :
    RunsAt key h rows := by
  unfold runsAt? at hr
  split at hr
  · next db x hg => exact ⟨db, x, hg, hr⟩
  · cases hr

/-- Where a build of a command begins and how it ends, and the host after the command. -/
structure Stages where
  connection : Connection
  opened : Host
  built : Except BuildError (Manifest × Summary)
  finished : Host
  ended : Host

/-- Whether a command that builds without labels gets to its build, with stages that pass a test. -/
def builds (o : Outside) (config output : String) (h : Host) (p : Stages → Bool) : Bool :=
  match Config.load h ⟨config⟩, fileHash h ⟨config⟩ with
  | .ok settings, .ok _ =>
    match builderOn o h settings (absolutePath h output) with
    | .ok b =>
      match (openDatabase b.layout).outcome.run h,
          ((Request.buildDataset config output false).reportWith o).outcome.run h with
      | .ok (.ok c, h1), .ok (_, h') =>
        match b.build.outcome.run h1 with
        | .ok (built, h2) => p ⟨c, h1, built, h2, h'⟩
        | .error _ => false
      | _, _ => false
    | .error _ => false
  | _, _ => false

theorem runs_of_builds {o : Outside} {config output : String} {h : Host} {p : Stages → Bool}
    (hy : builds o config output h p = true) : ∃ hash b s ended, Prepares o config output h hash b ∧
      Runs (openDatabase b.layout).outcome h (.ok s.connection) s.opened ∧
      Runs b.build.outcome s.opened s.built s.finished ∧
      Runs ((Request.buildDataset config output false).reportWith o).outcome h ended s.ended ∧ p s = true := by
  unfold builds at hy
  split at hy
  · next settings hash hload hhash =>
    split at hy
    · next b hb =>
      split at hy
      · next c h1 ended h' hopen hend =>
        split at hy
        · next built h2 hbuild =>
          exact ⟨hash, b, ⟨c, h1, built, h2, h'⟩, ended, ⟨⟨settings, hload, hb⟩, hhash⟩, hopen, hbuild, hend, hy⟩
        · cases hy
      · cases hy
    · cases hy
  · cases hy

theorem exists_of_builds {o : Outside} {config output : String} {h : Host} {p : Stages → Bool}
    (hy : builds o config output h p = true) : ∃ hash b s x, Prepares o config output h hash b ∧
      Runs (openDatabase b.layout).outcome h (.ok s.connection) s.opened ∧
      Runs b.build.outcome s.opened s.built s.finished ∧
      (buildDataset o config output false).Does h x s.ended ∧ p s = true := by
  obtain ⟨hash, b, s, ended, hp, hopen, hbuild, hend, hs⟩ := runs_of_builds hy
  exact ⟨hash, b, s, ended.1, hp, hopen, hbuild, Report.does_of_outcome hend, hs⟩

theorem showsNothing_writing (data : List UInt8) : (Runner.writing data).ShowsNothing := by
  intro call h r h' hr
  obtain ⟨u, h1, hw, hp⟩ := runs_bind.mp hr
  obtain ⟨-, rfl⟩ := runs_pure.mp hp
  obtain rfl := runs_modify.mp hw
  split
  · rfl
  · rfl

theorem showsNothing_writesPrologues : writesPrologues.ShowsNothing := by
  intro call h r h' hr
  unfold writesPrologues at hr
  split at hr
  · exact showsNothing_writing _ call h r h' hr
  · obtain ⟨-, rfl⟩ := runs_pure.mp hr
    rfl

theorem showsNothing_deliverNothing (url : String) (p : Path) :
    (DatasetBuilder.deliverNothing url p).ShowsNothing :=
  (ShowsNothing.change _).inWords _

/-- The compiler that writes prologues has nothing to write to when it lists symbols, and lists none. -/
theorem listing_writesPrologues {t : ListingTool} {b : Path} {h h' : Host} {answer : Except ToolError ToolOutput}
    (hr : Runs (writesPrologues (t.invocation b)) h answer h') : answer = .ok ⟨true, some 0, "", ""⟩ ∧ h' = h := by
  unfold writesPrologues at hr
  split at hr
  · next ho =>
    have hb : b.text = "-o" := by simpa [ListingTool.invocation, eq_comm] using ho
    obtain ⟨u, h1, hw, hpure⟩ := runs_bind.mp hr
    obtain ⟨rfl, rfl⟩ := runs_pure.mp hpure
    obtain rfl := runs_modify.mp hw
    rw [ListingTool.invocation, hb]
    exact ⟨rfl, rfl⟩
  · exact runs_pure.mp hr

theorem writesAndDelivers_listsBeside (key : Key) : writesAndDelivers.ListsBeside key := by
  intro g limit p h fs h' hr
  obtain ⟨a, hcall⟩ := exists_call_of_recover hr
  rw [(listing_writesPrologues hcall).2]

/-- A cell is built: the row tells of one attempted cell, the one that was shown. -/
theorem built_cell_is_recorded :
    let o := writesAndDelivers
    let key := ["w", "out", "corpus.db"]
    ∃ hash b c h1 x h' m s h2, o.runner.ShowsNothing ∧ (∀ url p, (o.fetcher url p).ShowsNothing) ∧
      o.ListsBeside key ∧ Prepares o "c.json" "out" hostWithSources hash b ∧
      Runs (openDatabase b.layout).outcome hostWithSources (.ok c) h1 ∧ c.key = some key ∧
      (buildDataset o "c.json" "out" false).Does hostWithSources x h' ∧
      Runs b.build.outcome h1 (.ok (m, s)) h2 ∧ h2.trace.progress.length = 1 ∧ RunsAt key h2 [] ∧
      Totals s.libraries (s.run (some hash)) ∧ RunsAt key h' [.ofRun 1 (s.run (some hash))] ∧
      (s.run (some hash)).attempted = 1 := by
  intro o key
  have hb : builds o "c.json" "out" hostWithSources (fun s => s.connection.key == some key &&
      s.finished.trace.progress.length == 1 && runsAt? key s.finished == some [] &&
      s.built.toOption.elim false fun r => (r.2.run none).attempted == 1) = true := by
    decide +kernel
  obtain ⟨hash, b, stages, x, hp, hopen, hbuild, hd, hs⟩ := exists_of_builds hb
  simp only [Bool.and_eq_true, beq_iff_eq] at hs
  obtain ⟨⟨⟨hkey, hshown⟩, hruns⟩, hattempted⟩ := hs
  obtain ⟨built, h2, hbuild', hend⟩ := build_appends_run showsNothing_writesPrologues
    showsNothing_deliverNothing (writesAndDelivers_listsBeside key) hp hopen hkey hd
  obtain ⟨he, rfl⟩ := hbuild'.unique hbuild
  cases he
  cases hbuilt : stages.built with
  | error e =>
    rw [hbuilt] at hattempted
    cases hattempted
  | ok r =>
    rw [hbuilt] at hattempted hend hbuild
    obtain ⟨g, g', reports, ss, -, -, -, hrow⟩ := hend (Or.inr ⟨_, _, rfl⟩)
    obtain ⟨rfl, htotals, hat⟩ := (hrow (runsAt_of_eq_some hruns) rfl).1 _ _ rfl
    exact ⟨hash, b, _, _, x, _, r.1, r.2, _, showsNothing_writesPrologues, showsNothing_deliverNothing,
      writesAndDelivers_listsBeside key, hp, hopen, hkey, hd, hbuild, hshown, runsAt_of_eq_some hruns,
      htotals, hat, beq_iff_eq.mp hattempted⟩

/-- A compiler that fails, and addresses that deliver empty files. -/
def failsAndDelivers : Outside := ⟨fun _ => return .ok ⟨false, some 1, "", ""⟩, DatasetBuilder.deliverNothing⟩

/-- Whether no library was built and one row is left, which tells of no cell. -/
def Stages.tellsOfNone (key : Key) (s : Stages) : Bool :=
  match s.built, runsAt? key s.ended with
  | .error .noLibrariesBuilt, some [row] => row.attempted == 0 && row.failed == 0
  | _, _ => false

theorem Stages.exists_of_tellsOfNone {key : Key} {s : Stages} (hs : s.tellsOfNone key = true) :
    s.built = .error .noLibrariesBuilt ∧
      ∃ row, RunsAt key s.ended [row] ∧ row.attempted = 0 ∧ row.failed = 0 := by
  unfold tellsOfNone at hs
  split at hs
  · next row hbuilt hruns =>
    rw [Bool.and_eq_true, beq_iff_eq, beq_iff_eq] at hs
    exact ⟨hbuilt, row, runsAt_of_eq_some hruns, hs⟩
  · cases hs

/-- The only cell fails: it is shown to the observer, and the row tells of no cell at all. -/
theorem failed_cells_are_recorded_as_none :
    ∃ hash b c h1 x h' h2 row, Prepares failsAndDelivers "c.json" "out" hostWithSources hash b ∧
      Runs (openDatabase b.layout).outcome hostWithSources (.ok c) h1 ∧
      (buildDataset failsAndDelivers "c.json" "out" false).Does hostWithSources x h' ∧
      Runs b.build.outcome h1 (.error .noLibrariesBuilt) h2 ∧
      h1.trace.progress.length = 0 ∧ h2.trace.progress.length = 1 ∧
      RunsAt ["w", "out", "corpus.db"] h' [row] ∧ row.attempted = 0 ∧ row.failed = 0 := by
  have hb : builds failsAndDelivers "c.json" "out" hostWithSources (fun s =>
      s.opened.trace.progress.length == 0 && s.finished.trace.progress.length == 1 &&
      s.tellsOfNone ["w", "out", "corpus.db"]) = true := by
    decide +kernel
  obtain ⟨hash, b, stages, x, hp, hopen, hbuild, hd, hs⟩ := exists_of_builds hb
  simp only [Bool.and_eq_true, beq_iff_eq] at hs
  obtain ⟨⟨hbefore, hshown⟩, hnone⟩ := hs
  obtain ⟨hbuilt, row, hrow⟩ := stages.exists_of_tellsOfNone hnone
  exact ⟨hash, b, _, _, x, _, _, row, hp, hopen, hd, hbuilt ▸ hbuild, hbefore, hshown, hrow⟩

end Command

end CipherCorpus
