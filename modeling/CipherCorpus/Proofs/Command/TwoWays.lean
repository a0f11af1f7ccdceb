import CipherCorpus.Proofs.Command.Label
import CipherCorpus.Proofs.Dataset.SameFiles
import CipherCorpus.Proofs.FileTree.Answers
import CipherCorpus.Proofs.Sources.Callers
import CipherCorpus.Proofs.Store.Reopen

/-!
# Two ways to label a build

A build that labels goes on with the manifest, the connection and the reader that it has; labeling afterwards
resolves the argument again, loads the manifest from its file, opens the database and takes a reader with
another limit.  Both ways come to the same dataset when the build stays (`Stays`):

* the saved manifest is loaded and the database is opened as it is (`Stays.exists_again`), and
* the same labels are stored in the same rows (`SymbolSource.Agrees.storeLabels`).

So they leave the same files (`labeled_build_agrees`).  Builds from settled arguments stay (`Stays.of_settled`);
when an argument leads through a directory that the build removes, labels are stored with the build only
(`removed_directory_is_not_labeled`).
-/

namespace CipherCorpus

open Command Dataset FileTree CipherCorpus.Path Store

variable {o : Outside} {h h' g : Host} {output : String} {root : Path} {c : Connection} {m : Manifest}

/-! ## A dataset after its build -/

namespace Command

/-- A build has left its dataset in place: root and argument lead to one directory, and the file of the database
holds one that is up to date, and is not the file of the manifest. -/
structure Stays (output : String) (root : Path) (c : Connection) (h : Host) : Prop where
  directory : ∃ home, h.files.Reached home ∧ Leads h.files h.cwd root home ∧ Leads h.files h.cwd ⟨output⟩ home
  database : ∃ key db, c.key = some key ∧ db.version = currentVersion ∧
    Connection.find? h.files h.cwd (root.child "corpus.db") = some (key, some (.database db)) ∧
    ∀ e, h.files.stat h.cwd (root.child manifestFileName) ≠ .ok (key, e)

/-- What the listings of a dataset show: its functions and its runs. -/
def Lists (output : String) (h : Host) (functions : Except Fault (List LabeledFunction))
    (runs : Except Fault (List BuildRun)) : Prop :=
  ∃ c h', Runs (openDatabase (layoutOf h output)).outcome h (.ok c) h' ∧
    (c.load h').listFunctions none = functions ∧ (c.load h').listRuns = runs

end Command

theorem layoutOf_of_sameFiles (hs : h.SameFiles g) (output : String) : layoutOf g output = layoutOf h output := by
  unfold layoutOf absolutePath Host.cwdPath
  rw [hs.files, hs.cwd]

theorem Host.SameFiles.lists (hs : h.SameFiles g) {functions : Except Fault (List LabeledFunction)}
    {runs : Except Fault (List BuildRun)} (hl : Lists output h functions runs) : Lists output g functions runs := by
  obtain ⟨c, h', hopen, hfunctions, hruns⟩ := hl
  obtain ⟨g', hopen', hs'⟩ := seesFiles_openDatabase _ hs hopen
  refine ⟨c, g', by rwa [layoutOf_of_sameFiles hs], ?_, ?_⟩
  · rw [Connection.load_of_sameFiles hs']
    exact hfunctions
  · rw [Connection.load_of_sameFiles hs']
    exact hruns

theorem loadManifest_of_file {l : Layout} {key : Key} {body : Body} {x : Bool} {text : List Char}
    (hs : h.files.stat h.cwd l.manifest = .ok (key, .file body x)) (hd : Text.decode? body.data = some text)
    (hm : Manifest.ofFileText text = .ok m) : Runs (loadManifest l).outcome h (.ok m) h :=
  Attempt.runs_inWords.mpr ⟨_, Manifest.runs_load_ok.mpr ⟨rfl, text, Manifest.readText_of_file hs hd, hm⟩, rfl⟩

/-- A database that was opened is in its file, and up to date. -/
theorem file_of_openDatabase {l : Layout} (hm : Connection.isMemory l.database = false)
    (hr : Runs (openDatabase l).outcome h (.ok c) h') :
    c.image.version = currentVersion ∧
      ∃ key x, c.key = some key ∧ h'.files.get? key = some (.file (.database c.image) x) := by
  rcases Attempt.runs_change_bind.mp hr with ⟨files, -, hr⟩ | ⟨e, -, he, -⟩
  · obtain ⟨y, hopen, hy⟩ := Attempt.runs_inWords.mp hr
    obtain rfl := Attempt.eq_ok_of_mapError hy.symm
    obtain ⟨raw, h1, -, hmigrate, -⟩ := Connection.runs_openAt_ok.mp hopen
    exact ⟨Database.version_of_migrate hmigrate, Connection.file_of_openAt hm hopen⟩
  · cases he

/-- A dataset whose database is up to date is opened as it is. -/
theorem openDatabase_again {home key : Key} {db : Database} (hstands : StandsFor h.files h.cwd root home)
    (hf : Connection.find? h.files h.cwd (pathOf (home ++ ["corpus.db"])) = some (key, some (.database db)))
    (hv : db.version = currentVersion) : Runs (openDatabase (.ofRoot root)).outcome h (.ok ⟨some key, db⟩) h := by
  refine Attempt.runs_change_bind.mpr (Or.inl ⟨h.files, makeDirectories_of_leads hstands.zeroFree hstands.leads, ?_⟩)
  refine Attempt.runs_inWords.mpr ⟨.ok ⟨some key, db⟩, ?_, rfl⟩
  have hplace : (Layout.ofRoot root).database = pathOf (home ++ ["corpus.db"]) :=
    hstands.child "corpus.db" (isStep_of_isEntryName (by decide))
  rw [hplace]
  exact Connection.runs_openAt_again (Connection.isMemory_pathOf _) hf (Database.migrate_of_current hv)

/-- Labeling that stores the labels fails at most when it counts the rows afterwards. -/
theorem Command.exists_labelBinaries_stored {c' : Connection} {h1 : Host} {n : Nat}
    (hload : Runs (loadManifest (layoutOf h output)).outcome h (.ok m) h)
    (hopen : Runs (openDatabase (layoutOf h output)).outcome h (.ok c) h1)
    (hstore : Runs (storeLabels (o.lister h1 symbolLimit) m c).outcome h1 (.ok (n, c')) h') :
    ∃ x said, Runs (Command.labelBinaries o output).outcome h (x, said) h' ∧ (x = .ok () ∨
      ∃ fault, x = .error (Failure.under "Failed to compute corpus stats" (.ofDatabase (.engine fault)))) := by
  cases hstats : (c'.load h').stats with
  | ok stats =>
    obtain ⟨said, hr⟩ := exists_labelBinaries hload hopen hstore hstats
    exact ⟨_, said, hr, Or.inl rfl⟩
  | error fault =>
    have hcontext := runs_ofRoot hload hopen
    have hquery : Runs (c'.query Database.stats).outcome h' (.error (.engine fault)) h' :=
      Connection.runs_query.mpr ⟨by rw [hstats]; rfl, rfl⟩
    have hstored : (onDatabase "Failed to store labeled functions"
        (storeLabels (o.lister h1 symbolLimit) m c)).Prints h1 [] (n, c') h' :=
      Report.prints_perform (Attempt.runs_inWords.mpr ⟨_, hstore, rfl⟩)
    have hcounts : (onDatabase "Failed to compute corpus stats" (c'.query Database.stats)).Stops h' []
        (Failure.under "Failed to compute corpus stats" (.ofDatabase (.engine fault))) h' :=
      Report.stops_perform (Attempt.runs_inWords.mpr ⟨_, hquery, rfl⟩)
    have hall : (Command.labelBinaries o output).Stops h []
        (Failure.under "Failed to compute corpus stats" (.ofDatabase (.engine fault))) h' := by
      refine (Report.prints_look _ h).andStops ((Report.prints_perform hcontext).andStops ?_)
      refine (Report.prints_look _ h1).andStops (hstored.andStops ?_)
      exact hcounts.bind _
    exact ⟨_, _, hall.runs_outcome, Or.inr ⟨fault, rfl⟩⟩

/-- **An ordinary build stays**: the argument is settled, and the tools touch only the files they are given. -/
theorem Command.Stays.of_settled {home : Key} {config hash : String} {start h1 h2 : Host} {b : DatasetBuilder}
    {s : Summary} (hc : o.Confined) (hset : Settled start output home)
    (hnames : ∀ c, Config.load start ⟨config⟩ = .ok c → c.NamesEntries) (hp : Prepares o config output start hash b)
    (hopen : Runs (openDatabase b.layout).outcome start (.ok c) h1)
    (hbuild : Runs b.build.outcome h1 (.ok (m, s)) h2) : Stays output b.layout.root c h2 := by
  have hroot : absolutePath start output = pathOf home :=
    absolutePath_of_settles hset.cwd hset.clear hset.settles (.refl _ _)
  have hconfined := hp.confined hc
  have hlibraries := hp.entryNames hnames
  rw [hroot] at hconfined
  rw [hconfined.layout] at hopen ⊢
  have hsteps : ∀ n ∈ home, IsStep n := fun n hn => isStep_of_isEntryName (hset.clear.names n hn)
  have hplace : (pathOf home).child "corpus.db" = pathOf (home ++ ["corpus.db"]) :=
    child_pathOf hsteps (isStep_of_isEntryName (by decide))
  -- the database is opened in the directory, and the build changes other files there
  obtain ⟨-, hopened, hserves⟩ := openDatabase_keeps (Q := fun _ => True) hset.clear.names hset.clear.home trivial
    (fun _ _ _ _ => trivial) (fun _ _ _ => trivial) hopen
  have hkey := (hserves c rfl).1
  obtain ⟨hversion, key, x, he, hfile⟩ := file_of_openDatabase
    (show Connection.isMemory ((pathOf home).child "corpus.db") = false from hplace ▸ Connection.isMemory_pathOf _)
    hopen
  cases hkey.symm.trans he
  have hopened' := hset.clear.home.of_changes hopened
  have hbuilt := DatasetBuilder.build_changes hconfined hlibraries hopened' hbuild
  have hkept := DatasetBuilder.get?_database_of_build hfile hconfined hlibraries hopened' hbuild
  have hbelow : ChangesFiles (isBelow home · = true) start h2 := by
    refine (hopened.mono fun k hk => ?_).trans (hbuilt.mono fun k hk => ?_)
    · exact hk ▸ InOrder.isBelow_child home _
    · rcases hk with (hk | hk) | rfl
      · exact isBelow_of_prefix hk
      · exact isBelow_of_prefix hk
      · exact InOrder.isBelow_child home _
  -- the manifest was saved there, so the root is there
  have hhome := hset.clear.home.of_changes hbelow
  have hload := DatasetBuilder.load_of_build hbuild
  rw [hconfined.layout] at hload
  obtain ⟨-, text, htext, -⟩ := Manifest.runs_load_ok.mp hload
  obtain ⟨mkey, body, y, hmanifest, -⟩ := Manifest.file_of_readText htext
  have hname : ∀ n ∈ [manifestFileName], IsEntryName n.toList := by decide
  obtain ⟨k, -, hleads, -⟩ := leads_of_resolve hname (by simp) (stat_eq hmanifest)
  obtain rfl := hhome.leads _ k (.refl _) hleads
  have hzero := ((zeroFree_child (n := manifestFileName) (by decide)).mp
    (resolve_iff.mp (stat_eq hmanifest)).1.1).1
  have hreached := hleads.reached hset.clear.names hhome.clearTo hzero
  refine ⟨⟨k, hreached, hleads, leads_of_settles hset.cwd hset.settles hbelow hreached⟩, _, _, hkey, hversion, ?_, ?_⟩
  · exact Connection.find?_child hleads hzero ⟨by decide, by decide, by decide⟩ hkept
  · intro e hs
    have hsame := hhome.key_eq hname (by simp) (stat_eq hs)
    exact absurd (List.append_cancel_left hsame) (by decide)

/-- The dataset of a build that stays is found again after another database has been written to the file. -/
theorem Command.Stays.exists_again {start : Host} (hst : Stays output (absolutePath start output) c h)
    (hm : Runs (Manifest.load ((absolutePath start output).child manifestFileName)).outcome h (.ok m) h) :
    ∃ key db x, c.key = some key ∧ h.files.get? key = some (.file (.database db) x) ∧ db.version = currentVersion ∧
      ∀ db' g, db'.version = currentVersion → g.files = h.files.put key (.file (.database db') x) → g.cwd = h.cwd →
        Runs (loadManifest (layoutOf g output)).outcome g (.ok m) g ∧
          Runs (openDatabase (layoutOf g output)).outcome g (.ok ⟨some key, db'⟩) g := by
  obtain ⟨home, hreached, hroot, hargument⟩ := hst.directory
  obtain ⟨key, db, hkey, hversion, hfind, hother⟩ := hst.database
  obtain ⟨x, hfile⟩ : ∃ x, h.files.get? key = some (.file (.database db) x) := by
    rcases Connection.get?_of_find? hfind with ⟨_, x, he, hg⟩ | ⟨he, -⟩
    · cases he
      exact ⟨x, hg⟩
    · cases he
  refine ⟨key, db, x, hkey, hfile, hversion, fun db' g hcurrent hfiles hcwd => ?_⟩
  -- the argument leads to the directory on the other host, where its absolute path stands for it
  have hdirectory : ∀ k, h.files.get? k = some .directory → g.files.get? k = some .directory :=
    fun k hk => hfiles ▸ (get?_put_file hfile (by simp)).mpr hk
  have hlink : ∀ k target, h.files.get? k = some (.link target) → g.files.get? k = some (.link target) :=
    fun k target hk => hfiles ▸ (get?_put_file hfile (by simp)).mpr hk
  have hzero : Path.same ⟨output⟩ ⟨"."⟩ = false → ZeroFree output := zeroFree_of_absolutePath
    ((zeroFree_child (n := "corpus.db") (by decide)).mp (Connection.zeroFree_of_find? hfind)).1
  have hstands : StandsFor g.files g.cwd (absolutePath g output) home :=
    standsFor_absolutePath hzero (hreached.mono hdirectory) (hcwd ▸ hargument.grow hdirectory hlink)
  constructor
  · obtain ⟨-, text, htext, hloaded⟩ := Manifest.runs_load_ok.mp hm
    obtain ⟨mkey, body, y, hmanifest, hdecode⟩ := Manifest.file_of_readText htext
    have hplace : (layoutOf g output).manifest = pathOf (home ++ [manifestFileName]) :=
      hstands.child manifestFileName (isStep_of_isEntryName (by decide))
    have hfound : g.files.stat g.cwd (layoutOf g output).manifest = .ok (mkey, .file body y) := by
      rw [hplace, hfiles]
      exact stat_of_put hfile (fun he => hother _ (he ▸ hmanifest))
        (hroot.stat_pathOf hreached (by decide) hmanifest g.cwd)
    exact loadManifest_of_file hfound hdecode hloaded
  · refine openDatabase_again hstands ?_ hcurrent
    rw [hfiles]
    exact Connection.find?_put hfile (Connection.find?_pathOf hroot hreached (by decide) hfind g.cwd)

/-! ## Main result -/

/-- **Two ways to label a build agree.**  When a build with labels succeeds and the dataset stays where it is,
the build without labels succeeds, too.  Labeling after it leaves the files that the build with labels leaves,
so the same functions and runs are listed; it fails at most when it counts the rows in the end. -/
theorem labeled_build_agrees {o : Outside} {config output hash said : String} {start h1 h2 hA : Host}
    {b : DatasetBuilder} {c : Connection} {built : Except BuildError (Manifest × Summary)}
    (hp : Prepares o config output start hash b) (hopen : Runs (openDatabase b.layout).outcome start (.ok c) h1)
    (hbuild : Runs b.build.outcome h1 built h2) (hstays : Stays output b.layout.root c h2)
    (hreader : ∀ g, (o.lister g b.config.symbolLimit).Agrees (o.lister g symbolLimit))
    (hlabel : Runs (buildDataset o config output true).outcome start (.ok (), said) hA) :
    ∃ said' h', Runs (buildDataset o config output false).outcome start (.ok (), said') h' ∧
      ∀ g, h'.SameFiles g → ∃ x said'' hB, Runs (labelBinaries o output).outcome g (x, said'') hB ∧
        (x = .ok () ∨
          ∃ fault, x = .error (Failure.under "Failed to compute corpus stats" (.ofDatabase (.engine fault)))) ∧
        hA.SameFiles hB ∧ ∀ functions runs, Lists output hA functions runs ↔ Lists output hB functions runs := by
  -- what the labeled build did
  obtain ⟨m, s, id, c1, h3, n, c2, rfl, hrun, hstore⟩ :=
    recordBuild_labels ((Report.does_of_outcome hlabel).recordBuild hp hopen hbuild)
  obtain ⟨said', hplain⟩ := exists_buildDataset hp hopen hbuild hrun
  refine ⟨said', h3, hplain, fun g hsame => ?_⟩
  have hload := DatasetBuilder.load_of_build hbuild
  rw [hp.layout] at hstays hload
  obtain ⟨key, db, x, hkey, hfile, hversion, hagain⟩ := hstays.exists_again hload
  -- the run is written into the file of the database
  obtain ⟨db', hinsert, rfl, rfl⟩ : ∃ db', db.insertRun (s.run (some hash)) = .ok (id, db') ∧
      c1 = { c with image := db' } ∧ h3 = { h2 with files := h2.files.put key (.file (.database db') x) } := by
    rcases Connection.runs_update.mp hrun with ⟨id', db', hi, he, rfl⟩ | ⟨fault, -, he, -⟩
    · cases he
      rw [Connection.load_eq hkey hfile] at hi
      refine ⟨db', hi, rfl, ?_⟩
      unfold Connection.written Connection.writeImage
      rw [hkey]
      dsimp only
      rw [hfile]
    · cases he
  obtain ⟨hmanifest, hreopen⟩ :=
    hagain db' g ((Database.version_insertRun hinsert).trans hversion) hsame.files hsame.cwd
  -- so the same labels are stored in the same database
  have hlister : o.lister g symbolLimit =
      o.lister { h2 with files := h2.files.put key (.file (.database db') x) } symbolLimit := by
    unfold Outside.lister ListingTool.programOn Host.environmentValue?
    rw [hsame.environment]
  have hagree := hreader { h2 with files := h2.files.put key (.file (.database db') x) }
  rw [← hlister] at hagree
  obtain ⟨hB, hstore', hsameB⟩ := hagree.storeLabels hsame hstore
  rw [hkey] at hstore'
  obtain ⟨y, said'', hlabels, hy⟩ := exists_labelBinaries_stored hmanifest hreopen hstore'
  exact ⟨y, said'', hB, hlabels, hy, hsameB, fun functions runs => ⟨hsameB.lists, hsameB.symm.lists⟩⟩

/-! ## Examples -/

namespace Command

/-- The compiler that writes prologues lists no symbols, within any limit. -/
theorem writesPrologues_agrees (fetcher : Fetcher) (g : Host) (limit limit' : Duration) :
    (Outside.lister ⟨writesPrologues, fetcher⟩ g limit).Agrees (Outside.lister ⟨writesPrologues, fetcher⟩ g limit') := by
  intro b h g answer h' hs hr
  obtain ⟨output, h1, hcall, hrest⟩ := runs_bind.mp hr
  obtain ⟨rfl, rfl⟩ := listing_writesPrologues hcall
  obtain ⟨rfl, rfl⟩ := runs_pure.mp hrest
  obtain ⟨output, g', hcall', -⟩ := writesPrologues_answers (ListingTool.invocation ⟨_, _, limit'⟩ b) g
  obtain ⟨rfl, rfl⟩ := listing_writesPrologues hcall'
  exact ⟨g', runs_bind.mpr ⟨_, g', hcall', runs_pure.mpr ⟨rfl, rfl⟩⟩, hs⟩

/-- Whether a command ends on a host so that its outcome and the host after it pass a test. -/
def ends (x : Report Unit) (h : Host) (p : Except Failure Unit → Host → Bool) : Bool :=
  match x.outcome.run h with
  | .ok ((r, _), h') => p r h'
  | .error _ => false

theorem exists_of_ends {x : Report Unit} {p : Except Failure Unit → Host → Bool} (hy : ends x h p = true) :
    ∃ r said h', Runs x.outcome h (r, said) h' ∧ p r h' = true := by
  unfold ends at hy
  split at hy
  · next r said h' hr => exact ⟨r, said, h', hr, hy⟩
  · cases hy

theorem eq_ok_of_isOk {ε : Type} {r : Except ε Unit} (hr : r.isOk = true) : r = .ok () := by
  cases r with
  | error e => cases hr
  | ok u => rfl

/-- Whether so many functions and runs are listed. -/
def listsMany (output : String) (h : Host) (functions runs : Nat) : Bool :=
  match (openDatabase (layoutOf h output)).outcome.run h with
  | .ok (.ok c, g) =>
    let stored := ((c.load g).functions.getD []).filterMap FunctionRow.toLabeled?
    (c.load g).functions == some (stored.map FunctionRow.ofLabeled) && stored.length == functions &&
      (c.load g).listRuns.toOption.elim false (·.length == runs)
  | _ => false

theorem exists_lists_of_listsMany {n k : Nat} (hy : listsMany output h n k = true) :
    ∃ functions runs, Lists output h (.ok functions) (.ok runs) ∧ functions.length = n ∧ runs.length = k := by
  unfold listsMany at hy
  split at hy
  · next c g hopen =>
    simp only [Bool.and_eq_true, beq_iff_eq] at hy
    obtain ⟨⟨hfunctions, hn⟩, hk⟩ := hy
    cases hr : (c.load g).listRuns with
    | error fault =>
      rw [hr] at hk
      cases hk
    | ok runs =>
      rw [hr] at hk
      exact ⟨_, runs, ⟨c, g, hopen, Database.listFunctions_eq hfunctions, hr⟩,
        (List.length_mergeSort _).trans hn, eq_of_beq hk⟩
  · cases hy

/-- A dataset that is built from `./out` has its two functions and its run, whether it is labeled with the build
or after it. -/
theorem labels_of_either_way :
    let o := writesAndDelivers
    let start := hostWithSources
    ∃ hash b c h1 m s h2 said hA functions runs, Prepares o "c.json" "./out" start hash b ∧
      Runs (openDatabase b.layout).outcome start (.ok c) h1 ∧ Runs b.build.outcome h1 (.ok (m, s)) h2 ∧
      Stays "./out" b.layout.root c h2 ∧
      (∀ g, (o.lister g b.config.symbolLimit).Agrees (o.lister g symbolLimit)) ∧
      Runs (buildDataset o "c.json" "./out" true).outcome start (.ok (), said) hA ∧
      Lists "./out" hA (.ok functions) (.ok runs) ∧ functions.length = 2 ∧ runs.length = 1 ∧
      ∃ said' h' x said'' hB, Runs (buildDataset o "c.json" "./out" false).outcome start (.ok (), said') h' ∧
        Runs (labelBinaries o "./out").outcome h' (x, said'') hB ∧ Lists "./out" hB (.ok functions) (.ok runs) := by
  intro o start
  have hset : Settled start "./out" ["w", "out"] :=
    ⟨by decide, hostWithSources_clearAt, Or.inr (by decide +kernel)⟩
  have hstores : stores "./out" start (.buildDataset "c.json" "./out" true) = true := by decide +kernel
  have hnames : ∀ c, Config.load start ⟨"c.json"⟩ = .ok c → c.NamesEntries := by
    cases stores_of_eq_true hstores with
    | build names => exact names
  have hends : ends (buildDataset o "c.json" "./out" true) start
      (fun r hA => r.isOk && listsMany "./out" hA 2 1) = true := by
    unfold listsMany openDatabase
    rw [Connection.openAt_eq_openByVersion]
    decide +kernel
  obtain ⟨r, said, hA, hlabel, hr⟩ := exists_of_ends hends
  simp only [Bool.and_eq_true] at hr
  obtain ⟨hok, hlists⟩ := hr
  obtain rfl := eq_ok_of_isOk hok
  obtain ⟨functions, runs, hlists, htwo, hone⟩ := exists_lists_of_listsMany hlists
  obtain ⟨hash, b, c, h1, built, h2, hp, hopen, hbuild, hrecord⟩ := buildDataset_ok (Report.does_of_outcome hlabel)
  obtain ⟨m, s, -, -, -, -, -, rfl, -⟩ := recordBuild_labels hrecord
  have hstays := Stays.of_settled writesAndDelivers_confined hset hnames hp hopen hbuild
  have hreader : ∀ g, (o.lister g b.config.symbolLimit).Agrees (o.lister g symbolLimit) :=
    fun g => writesPrologues_agrees _ g _ _
  obtain ⟨said', h', hplain, hafter⟩ := labeled_build_agrees hp hopen hbuild hstays hreader hlabel
  obtain ⟨x, said'', hB, hlater, -, -, hsame⟩ := hafter h' (.refl h')
  exact ⟨hash, b, _, _, m, s, _, said, hA, functions, runs, hp, hopen, hbuild, hstays, hreader, hlabel, hlists,
    htwo, hone, said', h', x, said'', hB, hplain, hlater, (hsame _ _).mp hlists⟩

/-- A host whose configuration asks for sources from an address, and where a directory was left in which they
will be unpacked. -/
def hostWithStaging : Host :=
  ⟨⟨[(["bin"], .directory), (["bin", "riscv64-linux-gnu-gcc"], .file (.bytes []) true),
    (["c.json"], .file (.bytes (Text.bytesOf configuration)) false),
    (["sources"], .directory), (["sources", ".staging-z"], .directory)]⟩,
    [], [("PATH", "/bin")], ⟨0, 0⟩, "", 1, .empty⟩
where
  configuration : String :=
    "\x7b\"crypto_libraries\":[\x7b\"name\":\"z\",\"url\":\"http://h/z.zip\",\"functions\":[\"f\"]\x7d],\"optimization_levels\":[\"-O0\"]\x7d"

/-- The compiler that writes prologues, and addresses that deliver an archive of one file. -/
def writesAndServes : Outside := ⟨writesPrologues, .delivering SourceCache.zipOfFile⟩

theorem labeled_through_staging :
    ends (buildDataset writesAndServes "c.json" "sources/.staging-z/../.." true) hostWithStaging
      (fun r h => r.isOk && listsMany "sources/.staging-z/../.." h 2 1) = true := by
  unfold listsMany openDatabase
  rw [Connection.openAt_eq_openByVersion]
  decide +kernel

theorem not_labeled_through_staging :
    ends (buildDataset writesAndServes "c.json" "sources/.staging-z/../.." false) hostWithStaging
      (fun r h => r.isOk && ends (labelBinaries writesAndServes "sources/.staging-z/../..") h
        fun r g => !r.isOk && listsMany "sources/.staging-z/../.." g 0 1) = true := by
  unfold listsMany openDatabase
  rw [Connection.openAt_eq_openByVersion]
  decide +kernel

/-- An argument that goes through a directory which the build removes leads nowhere after it: labels are stored
with the build only. -/
theorem removed_directory_is_not_labeled :
    let o := writesAndServes
    let start := hostWithStaging
    let output := "sources/.staging-z/../.."
    (∀ g limit limit', (o.lister g limit).Agrees (o.lister g limit')) ∧
      ∃ said hA said' h' e said'' hB functions runs runs',
        Runs (buildDataset o "c.json" output true).outcome start (.ok (), said) hA ∧
        Runs (buildDataset o "c.json" output false).outcome start (.ok (), said') h' ∧
        Runs (labelBinaries o output).outcome h' (.error e, said'') hB ∧
        Lists output hA (.ok functions) (.ok runs) ∧ functions.length = 2 ∧ Lists output hB (.ok []) (.ok runs') := by
  intro o start output
  obtain ⟨r, said, hA, hlabeled, hr⟩ := exists_of_ends labeled_through_staging
  rw [Bool.and_eq_true] at hr
  obtain ⟨hokA, hlistsA⟩ := hr
  obtain rfl := eq_ok_of_isOk hokA
  obtain ⟨r, said', h', hplain, hr⟩ := exists_of_ends not_labeled_through_staging
  rw [Bool.and_eq_true] at hr
  obtain ⟨hok, hafter⟩ := hr
  obtain rfl := eq_ok_of_isOk hok
  obtain ⟨r, said'', hB, hlabel, hr⟩ := exists_of_ends hafter
  rw [Bool.and_eq_true] at hr
  obtain ⟨hfails, hlistsB⟩ := hr
  obtain ⟨functions, runs, hlistsA, htwo, -⟩ := exists_lists_of_listsMany hlistsA
  obtain ⟨_, runs', hlistsB, hnone, -⟩ := exists_lists_of_listsMany hlistsB
  obtain rfl := List.length_eq_zero_iff.mp hnone
  cases r with
  | ok u => cases hfails
  | error e =>
    exact ⟨fun g limit limit' => writesPrologues_agrees _ g limit limit', said, hA, said', h', e, said'', hB,
      functions, runs, runs', hlabeled, hplain, hlabel, hlistsA, htwo, hlistsB⟩

end Command

end CipherCorpus
