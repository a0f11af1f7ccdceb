import CipherCorpus.Dataset.Open
import CipherCorpus.Proofs.Dataset.Changes
import CipherCorpus.Proofs.Dataset.Labeling
import CipherCorpus.Proofs.FileTree.KeyPath
import CipherCorpus.Proofs.Manifest.File
import CipherCorpus.Proofs.Store.File

/-!
# A dataset in order

The dataset in a directory is in order when its manifest and its database name only files under the
canonical path of the directory, by names of entries, and the database has no two rows of one path,
address and name.  Opening the database, building, recording a run and storing labels keep it so, and
change nothing but what lies in the directory.
-/

namespace CipherCorpus

open FileTree CipherCorpus.Path
open Archive (under)

/-- A path that names of entries lead to from `root`. -/
def LiesUnder (root p : Path) : Prop :=
  ∃ ns, ns ≠ [] ∧ (∀ n ∈ ns, IsEntryName n.toList) ∧ p = under root ns

theorem Placed.liesUnder {root : Path} {a : Artifact} (hp : Placed root a) :
    LiesUnder root a.binaryPath := ⟨_, by simp [binaryNames], hp.names, hp.path⟩

/-- A path under a canonical one is no option. -/
theorem LiesUnder.ne_option {home : Key} {p : Path} (hp : LiesUnder (pathOf home) p) :
    p.text ≠ "-o" := by
  obtain ⟨ns, -, hn, rfl⟩ := hp
  refine text_ne_of_startOf (fun cwd => ?_) (by decide)
  exact (startOf_under (fun n hm => isStep_of_isEntryName (hn n hm)) cwd _).trans (startOf_pathOf cwd home)

/-! ## Rows -/

namespace Store.Database

/-- Every row is of a path in `P`, and no two have the same path, address and name. -/
structure OneEach (P : Path → Prop) (db : Database) : Prop where
  paths : ∀ rows, db.functions = some rows → ∀ r ∈ rows, P ⟨r.binaryPath⟩
  nodup : ∀ rows, db.functions = some rows → (rows.map FunctionRow.identity).Nodup

variable {P : Path → Prop} {db db' : Database}

theorem OneEach.fresh : OneEach P .fresh := ⟨nofun, nofun⟩

theorem OneEach.of_functions (ho : OneEach P db)
    (hf : db'.functions = db.functions ∨ db'.functions = some (db.functions.getD [])) :
    OneEach P db' := by
  rcases hf with hf | hf
  · exact ⟨fun rows h => ho.paths rows (hf ▸ h), fun rows h => ho.nodup rows (hf ▸ h)⟩
  · cases hrows : db.functions with
    | none =>
      rw [hrows] at hf
      refine ⟨fun rows h => ?_, fun rows h => ?_⟩
      · rw [hf] at h
        cases h
        nofun
      · rw [hf] at h
        cases h
        exact List.nodup_nil
    | some rows' =>
      rw [hrows, Option.getD_some, ← hrows] at hf
      exact ⟨fun rows h => ho.paths rows (hf ▸ h), fun rows h => ho.nodup rows (hf ▸ h)⟩

/-- A migration keeps the functions. -/
theorem functions_of_migrate (h : db.migrate = .ok db') :
    db'.functions = db.functions ∨ db'.functions = some (db.functions.getD []) := by
  unfold Database.migrate at h
  split at h
  · cases h
  · by_cases hz : db.version = 0
    · rw [if_pos hz] at h
      cases h
      exact Or.inr rfl
    · rw [if_neg hz] at h
      dsimp only at h
      split at h
      · cases h
        exact Or.inr rfl
      · cases h
        exact Or.inl rfl

theorem OneEach.migrate (ho : OneEach P db) (h : db.migrate = .ok db') : OneEach P db' :=
  ho.of_functions (functions_of_migrate h)

theorem OneEach.insertRun (ho : OneEach P db) {run : BuildRun} {id : Int64}
    (h : db.insertRun run = .ok (id, db')) : OneEach P db' := by
  refine ho.of_functions (Or.inl ?_)
  unfold Database.insertRun insertRunRow at h
  cases hr : db.runRows with
  | error fault =>
    rw [hr] at h
    cases h
  | ok rows =>
    rw [hr] at h
    dsimp only [bind, Except.bind] at h
    split at h
    · cases h
      rfl
    · cases h

/-- Functions of binaries in `P` take the place of what is stored for these. -/
theorem OneEach.replaceFunctions (ho : OneEach P db) {bs : List Path} {fs : List LabeledFunction}
    {n : Nat} (hbs : ∀ b ∈ bs, P b) (hfs : ∀ f ∈ fs, f.function.binaryPath ∈ bs)
    (h : db.replaceFunctions bs fs = (.ok n, db')) : OneEach P db' := by
  obtain ⟨rows, hf⟩ := functions_of_transact h
  rw [replaceFunctions_of_named hf hfs] at h
  cases h
  have hnew : ∀ r ∈ (latest keyOf fs).map FunctionRow.ofLabeled, ∃ b ∈ bs, r.binaryPath = b.text := by
    intro r hr
    obtain ⟨f, hm, rfl⟩ := List.mem_map.mp hr
    exact ⟨_, hfs f ((latest_sublist fs).subset hm), rfl⟩
  constructor
  · intro rows' he r hr
    cases he
    rcases List.mem_append.mp hr with hr | hr
    · exact ho.paths rows hf r (List.mem_filter.mp hr).1
    · obtain ⟨b, hb, hpath⟩ := hnew r hr
      rw [hpath]
      exact hbs b hb
  · intro rows' he
    cases he
    rw [List.map_append]
    refine List.nodup_append.mpr ⟨(ho.nodup rows hf).sublist (List.filter_sublist.map _), ?_, ?_⟩
    · rw [List.map_map]
      exact List.pairwise_map.mpr ((List.pairwise_map.mp (nodup_keys_latest fs)).imp fun hne he =>
        hne (identity_ofLabeled_inj.mp he))
    · intro i hi j hj he
      obtain ⟨r, hr, rfl⟩ := List.mem_map.mp hi
      obtain ⟨s, hs, rfl⟩ := List.mem_map.mp hj
      obtain ⟨b, hb, hpath⟩ := hnew s hs
      refine of_decide_eq_true (List.mem_filter.mp hr).2 ?_
      rw [show r.binaryPath = s.binaryPath from congrArg Prod.fst he, hpath]
      exact List.mem_map_of_mem hb

end Store.Database

namespace Dataset

open Store

/-! ## Reading binaries -/

section Reading

variable {reader : SymbolSource} {S : Key → Prop} {h h' : Host}

/-- What reading each of the binaries does, labeling does. -/
theorem labelBinaries_relates {R : Host → Host → Prop} (hrefl : ∀ h, R h h)
    (htrans : ∀ {h h' h''}, R h h' → R h' h'' → R h h'') {l : Labeler} {bs : List Path}
    {labeled : List LabeledFunction}
    (hb : ∀ b ∈ bs, ∀ h fs h', Runs (recoverFunctions reader b) h fs h' → R h h')
    (hr : Runs (labelBinaries reader l bs) h labeled h') : R h h' := by
  obtain ⟨found, hrecover, -⟩ := runs_labelBinaries.mp hr
  clear hr
  induction bs generalizing h found with
  | nil =>
    obtain ⟨-, rfl⟩ := runs_pure.mp hrecover
    exact hrefl _
  | cons b rest ih =>
    obtain ⟨fs, h1, more, hf, hm, -⟩ := runs_recoverAll_cons.mp hrecover
    exact htrans (hb b List.mem_cons_self _ _ _ hf)
      (ih (fun b' hb' => hb b' (List.mem_cons_of_mem _ hb')) more hm)

/-- Recovering functions with a lister is one call of it, nothing else changes the host. -/
theorem exists_call_of_recover {t : ListingTool} {b : Path} {fs : List FoundFunction}
    (hr : Runs (recoverFunctions t.read b) h fs h') : ∃ a, Runs (t.runner (t.invocation b)) h a h' := by
  obtain ⟨symbols, h1, hs, hr⟩ := runs_bind.mp hr
  have hend : h' = h1 := by
    match symbols with
    | some (f :: more) => exact (runs_pure.mp hr).2
    | some [] => exact (Prologue.runs_read hr).1
    | none => exact (Prologue.runs_read hr).1
  obtain ⟨answer, h2, hcall, hs⟩ := runs_bind.mp hs
  have hsame : h1 = h2 := by
    cases answer with
    | error e => exact (runs_pure.mp hs).2
    | ok output =>
      dsimp only at hs
      split at hs
      · exact (runs_pure.mp hs).2
      · exact (runs_pure.mp hs).2
  rw [hend, hsame]
  exact ⟨answer, hcall⟩

/-- A lister that changes nothing when it is asked for no output recovers functions without a change. -/
theorem recover_changes {t : ListingTool} {b : Path} {fs : List FoundFunction}
    (ht : ∀ call h a h', "-o" ∉ call.arguments → Runs (t.runner call) h a h' → ChangesFiles S h h')
    (hb : b.text ≠ "-o") (hr : Runs (recoverFunctions t.read b) h fs h') : ChangesFiles S h h' := by
  obtain ⟨a, hcall⟩ := exists_call_of_recover hr
  refine ht _ _ _ _ ?_ hcall
  simpa [ListingTool.invocation] using Ne.symm hb

/-- Storing labels keeps one row each, and changes nothing but the file of the database. -/
theorem storeLabels_keeps {P : Path → Prop} {key : Key} {c : Connection} {m : Manifest}
    (hn : reader.NamesBinary)
    (hb : ∀ b ∈ m.binaries, ∀ h fs h', Runs (recoverFunctions reader b) h fs h' →
      ChangesFiles (fun _ => False) h h')
    (hm : ∀ b ∈ m.binaries, P b) (hk : c.key = some key) (hQ : FileHolds key (Database.OneEach P) h)
    (hc : c.image.OneEach P) {r : Except DatabaseError (Nat × Connection)}
    (hr : Runs (storeLabels reader m c).outcome h r h') :
    FileHolds key (Database.OneEach P) h' ∧ ChangesFiles (· = key) h h' := by
  obtain ⟨labeled, h1, hlabel, htransact⟩ := Attempt.runs_ofAction_bind.mp hr
  have hread : ChangesFiles (fun _ => False) h h1 := labelBinaries_relates (.refl _) .trans hb hlabel
  obtain ⟨hQ', hc'⟩ := Connection.transact_keeps hk (hQ.of_changes hread id) hc
    (fun db n db' hdb => hdb.replaceFunctions hm (binary_mem_of_labelBinaries hn hlabel)) htransact
  exact ⟨hQ', (hread.mono nofun).trans hc'⟩

end Reading

/-- Opening the database of a canonical root keeps what a fresh one has and a migration keeps, and
changes nothing but its file. -/
theorem openDatabase_keeps {home : Key} {h h' : Host} {Q : Database → Prop}
    (hnames : ∀ n ∈ home, IsEntryName n.toList) (hh : Home (pathOf home) home h) (hfresh : Q .fresh)
    (hmigrate : ∀ db db', Q db → db.migrate = .ok db' → Q db')
    (hQ : FileHolds (home ++ ["corpus.db"]) Q h) {r : Except Failure Connection}
    (hr : Runs (openDatabase (Layout.ofRoot (pathOf home))).outcome h r h') :
    FileHolds (home ++ ["corpus.db"]) Q h' ∧ ChangesFiles (· = home ++ ["corpus.db"]) h h' ∧
      ∀ c, r = .ok c → c.key = some (home ++ ["corpus.db"]) ∧ Q c.image := by
  rcases Attempt.runs_change_bind.mp hr with ⟨files, hmake, hr⟩ | ⟨e, -, rfl, rfl⟩
  · obtain ⟨y, hopen, rfl⟩ := Attempt.runs_inWords.mp hr
    have hc : ChangesFiles (fun _ => False) h { h with files := files } :=
      ⟨rfl, changesOnly_makeDirectories hmake⟩
    have hn : IsEntryName "corpus.db".toList := by decide
    have hentries : ∀ m ∈ home ++ ["corpus.db"], IsEntryName m.toList :=
      List.forall_mem_append.mpr ⟨hnames, List.forall_mem_singleton.mpr hn⟩
    have hplace : (pathOf home).child "corpus.db" = pathOf (home ++ ["corpus.db"]) :=
      child_pathOf (fun n hm => isStep_of_isEntryName (hnames n hm)) (isStep_of_isEntryName hn)
    have hat : Connection.At ((pathOf home).child "corpus.db") home "corpus.db"
        { h with files := files } := by
      rw [hplace]
      refine ⟨startOf_pathOf _ _, ?_, hentries, (hh.of_changes hc).clearTo_append _, Connection.isMemory_pathOf _⟩
      exact pathNames_pathOf fun n hm => isStep_of_isEntryName (hentries n hm)
    obtain ⟨hQ', hch, hserves⟩ := Connection.openAt_keeps hat hfresh hmigrate (hQ.of_changes hc id) hopen
    exact ⟨hQ', (hc.mono nofun).trans hch, fun c he => hserves c (Attempt.eq_ok_of_mapError he)⟩
  · exact ⟨hQ, .refl _ _, nofun⟩

/-! ## Steps of a command -/

/-- From `start` to `h` only what lies in `home` has changed, and the dataset there is in order. -/
structure InOrder (home : Key) (start h : Host) : Prop where
  changed : ChangesFiles (isBelow home · = true) start h
  database : FileHolds (home ++ ["corpus.db"]) (Database.OneEach (LiesUnder (pathOf home))) h
  manifest : Manifest.FileHolds home (fun m => ∀ b ∈ m.binaries, LiesUnder (pathOf home) b) h

/-- A connection to the database in `home`, which is in order. -/
structure Serves (home : Key) (c : Connection) : Prop where
  key : c.key = some (home ++ ["corpus.db"])
  image : c.image.OneEach (LiesUnder (pathOf home))

namespace InOrder

variable {home : Key} {start h h' : Host} {c : Connection}

/-- A new dataset is in order. -/
theorem of_new (hd : start.files.get? (home ++ ["corpus.db"]) = none)
    (hm : start.files.get? (home ++ [manifestFileName]) = none) : InOrder home start start := by
  refine ⟨.refl _ _, fun db x hg => ?_, fun body x m hg => ?_⟩
  · rw [hd] at hg
    cases hg
  · rw [hm] at hg
    cases hg

theorem leads (ho : InOrder home start h) (hc : start.ClearAt home) : Home (pathOf home) home h :=
  hc.home.of_changes ho.changed

theorem isBelow_child (home : Key) (n : String) : isBelow home (home ++ [n]) = true :=
  isBelow_of_prefix (List.prefix_refl _)

/-- A change of the database file that keeps it in order. -/
theorem of_database (ho : InOrder home start h)
    (hQ : FileHolds (home ++ ["corpus.db"]) (Database.OneEach (LiesUnder (pathOf home))) h')
    (hc : ChangesFiles (· = home ++ ["corpus.db"]) h h') : InOrder home start h' := by
  refine ⟨ho.changed.trans (hc.mono fun k hk => ?_), hQ, ho.manifest.of_changes hc fun he => ?_⟩
  · rw [hk]
    exact isBelow_child home _
  · exact absurd (List.append_cancel_left he) (by decide)

/-- A change elsewhere in the directory. -/
theorem of_changes {S : Key → Prop} (ho : InOrder home start h) (hc : ChangesFiles S h h')
    (hin : ∀ k, S k → isBelow home k = true) (hd : ¬ S (home ++ ["corpus.db"]))
    (hm : ¬ S (home ++ [manifestFileName])) : InOrder home start h' :=
  ⟨ho.changed.trans (hc.mono hin), ho.database.of_changes hc hd, ho.manifest.of_changes hc hm⟩

theorem openDatabase (ho : InOrder home start h) (hc : start.ClearAt home)
    {r : Except Failure Connection}
    (hr : Runs (openDatabase (Layout.ofRoot (pathOf home))).outcome h r h') :
    InOrder home start h' ∧ ∀ c, r = .ok c → Serves home c := by
  obtain ⟨hQ, hch, hserves⟩ := openDatabase_keeps hc.names (ho.leads hc) .fresh (fun _ _ => .migrate)
    ho.database hr
  exact ⟨ho.of_database hQ hch, fun c he => ⟨(hserves c he).1, (hserves c he).2⟩⟩

theorem insertRun (ho : InOrder home start h) (hs : Serves home c) {run : BuildRun}
    {r : Except DatabaseError (Int64 × Connection)}
    (hr : Runs (c.update (Database.insertRun run)).outcome h r h') :
    InOrder home start h' ∧ ChangesFiles (· = home ++ ["corpus.db"]) h h' ∧
      ∀ id c', r = .ok (id, c') → Serves home c' := by
  obtain ⟨hQ, hch, hserves⟩ := Connection.update_keeps hs.key ho.database hs.image
    (fun _ _ _ hdb he => hdb.insertRun he) hr
  exact ⟨ho.of_database hQ hch, hch, fun id c' he => ⟨(hserves id c' he).1, (hserves id c' he).2⟩⟩

theorem storeLabels (ho : InOrder home start h) (hs : Serves home c) {t : ListingTool}
    (ht : ∀ call h a h', "-o" ∉ call.arguments → Runs (t.runner call) h a h' →
      ChangesFiles (fun _ => False) h h')
    {m : Manifest} (hm : ∀ b ∈ m.binaries, LiesUnder (pathOf home) b)
    {r : Except DatabaseError (Nat × Connection)}
    (hr : Runs (storeLabels t.read m c).outcome h r h') :
    InOrder home start h' ∧ ChangesFiles (· = home ++ ["corpus.db"]) h h' := by
  obtain ⟨hQ, hch⟩ := storeLabels_keeps t.namesBinary
    (fun b hb _ _ _ => recover_changes ht (hm b hb).ne_option) hm hs.key ho.database hs.image hr
  exact ⟨ho.of_database hQ hch, hch⟩

theorem not_prefix_of_ne {a n : String} (hne : a ≠ n) : ¬ home ++ [a] <+: home ++ [n] := by
  rw [List.prefix_append_right_inj, List.cons_prefix_cons]
  exact fun hp => hne hp.1

theorem build (ho : InOrder home start h) (hc : start.ClearAt home) {b : DatasetBuilder}
    (hb : b.Confined (pathOf home)) (hl : ∀ l ∈ b.config.libraries, b.compiler.EntryNames l)
    {r : Except BuildError (Manifest × Summary)} (hr : Runs b.build.outcome h r h') :
    InOrder home start h' ∧ ∀ m s, r = .ok (m, s) → ∀ p ∈ m.binaries, LiesUnder (pathOf home) p := by
  rcases DatasetBuilder.runs_build.mp hr with
    ⟨e, -, rfl, rfl⟩ | ⟨files, ss, m, h1, hmake, hlibraries, hsave⟩
  · exact ⟨ho, nofun⟩
  · have ho1 : InOrder home start { h with files := files } :=
      ho.of_changes ⟨rfl, changesOnly_makeDirectories hmake⟩ nofun id id
    obtain ⟨hch, artifacts, hm, hplaced⟩ := DatasetBuilder.buildLibraries_changes hb _ hl
      (ho1.leads hc) .empty nofun hlibraries
    have ho2 : InOrder home start h1 := by
      refine ho1.of_changes hch (fun k hk => ?_) (fun hk => ?_) fun hk => ?_
      · exact hk.elim isBelow_of_prefix isBelow_of_prefix
      · exact hk.elim (not_prefix_of_ne (by decide)) (not_prefix_of_ne (by decide))
      · exact hk.elim (not_prefix_of_ne (by decide)) (not_prefix_of_ne (by decide))
    have hrecorded : ∀ p ∈ m.binaries, LiesUnder (pathOf home) p := by
      intro p hp
      obtain ⟨e, he, rfl⟩ := List.mem_map.mp hp
      obtain ⟨a, ha, hea⟩ := hm.artifact_of_mem he
      rw [hea]
      exact (hplaced a ha).liesUnder
    have hsaved : ∀ {x}, Runs (m.save b.layout.manifest).outcome h1 x h' → InOrder home start h' := by
      intro x hx
      rw [hb.layout] at hx
      obtain ⟨hQ, hch'⟩ := Manifest.save_keeps (ho2.leads hc) ho2.manifest hrecorded hx
      refine ⟨ho2.changed.trans (hch'.mono fun k hk => ?_), ho2.database.of_changes hch' fun he => ?_, hQ⟩
      · rw [hk]
        exact isBelow_child home _
      · exact absurd (List.append_cancel_left he) (by decide)
    rcases hsave with ⟨e, hx, rfl⟩ | ⟨hx, rfl⟩
    · exact ⟨hsaved hx, nofun⟩
    · refine ⟨hsaved hx, fun m' s he => ?_⟩
      split at he
      · cases he
      · cases he
        exact hrecorded

end InOrder

end Dataset

end CipherCorpus
