import CipherCorpus.Proofs.Store.Connection
import CipherCorpus.Proofs.Store.Corpus

/-!
# Histories of a database file

A history is any sequence of successful calls on one database file that is absent at first, through
any of the connections opened so far; between two calls the rest of the host may change.  At each of
its points the file holds the map and the runs that the events add up to (`History.stored`), hence

    list_all = the entries of corpusOf events,      list_runs = runsOf events

and a connection that is opened again finds the same database (`history_refines_map`).
-/

namespace CipherCorpus.Store

/-- A successful call on a database file. -/
inductive Event where
  | opened (p : Path)
  /-- A run was added and given an id. -/
  | runAdded (run : BuildRun) (id : Int64)
  | inserted (functions : List LabeledFunction)
  | replaced (binaries : List Path) (functions : List LabeledFunction)
  | dropped (binary : Path)

namespace Event

/-- What an event does to the map. -/
def apply (m : Corpus) : Event → Corpus
  | opened _ => m
  | runAdded _ _ => m
  | inserted functions => m.recordAll functions
  | replaced binaries functions => (m.dropAll binaries).recordAll functions
  | dropped binary => m.drop binary

def run? : Event → Option (BuildRun × Int64)
  | runAdded run id => some (run, id)
  | _ => none

end Event

/-- The map after some events. -/
def corpusOf (events : List Event) : Corpus := events.foldl Event.apply .empty

/-- The runs that were added, with their ids, oldest first. -/
def runsOf (events : List Event) : List (BuildRun × Int64) := events.filterMap Event.run?

theorem corpusOf_concat (events : List Event) (e : Event) :
    corpusOf (events ++ [e]) = e.apply (corpusOf events) := by
  unfold corpusOf
  rw [List.foldl_append]
  rfl

theorem runsOf_concat (events : List Event) (e : Event) :
    runsOf (events ++ [e]) = runsOf events ++ e.run?.toList := by
  unfold runsOf
  rw [List.filterMap_append]
  cases h : e.run? <;> simp [h]

/-- Successful calls on the file at a key, from a host to another, with the connections opened and
used so far. -/
inductive History (key : Key) (start : Host) : List Event → List Connection → Host → Prop
  | start : History key start [] [] start
  /-- Between the calls anything but the file may change. -/
  | elsewhere {events cs h h'} : History key start events cs h →
      h'.files.get? key = h.files.get? key → History key start events cs h'
  | opened {events cs h h' p c} : History key start events cs h →
      Runs (Connection.openAt p).outcome h (.ok c) h' → c.key = some key →
      History key start (events ++ [.opened p]) (c :: cs) h'
  | runAdded {events cs h h' c run id c'} : History key start events cs h → c ∈ cs →
      Runs (c.update (Database.insertRun run)).outcome h (.ok (id, c')) h' →
      History key start (events ++ [.runAdded run id]) (c' :: cs) h'
  | inserted {events cs h h' c functions n c'} : History key start events cs h → c ∈ cs →
      Runs (c.transact (Database.insertFunctions functions)).outcome h (.ok (n, c')) h' →
      History key start (events ++ [.inserted functions]) (c' :: cs) h'
  | replaced {events cs h h' c binaries functions n c'} : History key start events cs h → c ∈ cs →
      Runs (c.transact (Database.replaceFunctions binaries functions)).outcome h (.ok (n, c')) h' →
      History key start (events ++ [.replaced binaries functions]) (c' :: cs) h'
  | dropped {events cs h h' c binary n c'} : History key start events cs h → c ∈ cs →
      Runs (c.update (Database.dropBinary binary)).outcome h (.ok (n, c')) h' →
      History key start (events ++ [.dropped binary]) (c' :: cs) h'

/-! ## The database after some events -/

/-- What the database holds after some events. -/
structure Stored (events : List Event) (db : Database) : Prop where
  version : db.version = currentVersion
  runs : db.runs = some ((runsOf events).map fun r => RunRow.ofRun r.2 r.1)
  ids : ((runsOf events).map Prod.snd).Pairwise (· < ·)
  functions : db.Holds (corpusOf events)

namespace Stored

variable {events : List Event} {db db' : Database}

/-- The database of a new file. -/
theorem migrated : ∃ db, Database.fresh.migrate = .ok db ∧ db ≠ .fresh ∧ Stored [] db :=
  ⟨⟨2, some [], some []⟩, by decide, by decide, rfl, rfl, List.Pairwise.nil, [], rfl, Shows.empty⟩

/-- An up-to-date database is left as it is. -/
theorem migrate_eq (hs : Stored events db) : db.migrate = .ok db := by
  obtain ⟨version, runs, functions⟩ := db
  obtain rfl : version = currentVersion := hs.version
  rfl

/-- An event that is no run and leaves the runs of the database. -/
theorem of_functions (hs : Stored events db) {e : Event} (he : e.run? = none)
    (hv : db'.version = db.version) (hr : db'.runs = db.runs)
    (hf : db'.Holds (e.apply (corpusOf events))) : Stored (events ++ [e]) db' := by
  have hruns : runsOf (events ++ [e]) = runsOf events := by
    rw [runsOf_concat, he]
    exact List.append_nil _
  refine ⟨hv.trans hs.version, ?_, ?_, ?_⟩
  · rw [hr, hs.runs, hruns]
  · rw [hruns]
    exact hs.ids
  · rw [corpusOf_concat]
    exact hf

theorem opened (hs : Stored events db) (p : Path) : Stored (events ++ [.opened p]) db :=
  hs.of_functions rfl rfl rfl hs.functions

/-- The id of a new run is above all others. -/
theorem runAdded (hs : Stored events db) {run : BuildRun} {id : Int64}
    (h : db.insertRun run = .ok (id, db')) : Stored (events ++ [.runAdded run id]) db' := by
  have hruns : runsOf (events ++ [.runAdded run id]) = runsOf events ++ [(run, id)] :=
    runsOf_concat _ _
  unfold Database.insertRun Database.insertRunRow Database.runRows at h
  rw [hs.runs] at h
  simp only [bind, Except.bind] at h
  split at h
  · next next hnext =>
    cases h
    refine ⟨hs.version, ?_, ?_, ?_⟩
    · rw [hruns, List.map_append]
      rfl
    · rw [hruns, List.map_append, List.pairwise_append]
      refine ⟨hs.ids, List.pairwise_singleton _ _, fun i hi j hj => ?_⟩
      rw [List.map_singleton, List.mem_singleton] at hj
      subst hj
      have hids : ((runsOf events).map fun r => RunRow.ofRun r.2 r.1).map RunRow.id =
          (runsOf events).map Prod.snd := by
        rw [List.map_map]
        rfl
      have hlt := Database.lt_of_nextRunId? hnext
      rw [hids] at hlt
      exact hlt hs.ids i hi
    · rw [corpusOf_concat]
      exact hs.functions
  · cases h

theorem inserted (hs : Stored events db) {functions : List LabeledFunction} {n : Nat}
    (h : db.insertFunctions functions = (.ok n, db')) :
    Stored (events ++ [.inserted functions]) db' := by
  obtain ⟨db1, h1, hf, hv, hr⟩ := hs.functions.insertFunctions functions
  cases h1.symm.trans h
  exact hs.of_functions rfl hv hr hf

theorem replaced (hs : Stored events db) {binaries : List Path} {functions : List LabeledFunction}
    {n : Nat} (h : db.replaceFunctions binaries functions = (.ok n, db')) :
    Stored (events ++ [.replaced binaries functions]) db' := by
  obtain ⟨db1, h1, hf, hv, hr⟩ := hs.functions.replaceFunctions binaries functions
  cases h1.symm.trans h
  exact hs.of_functions rfl hv hr hf

theorem dropped (hs : Stored events db) {binary : Path} {n : Nat}
    (h : db.dropBinary binary = .ok (n, db')) : Stored (events ++ [.dropped binary]) db' := by
  obtain ⟨db1, h1, hf, hv, hr⟩ := hs.functions.dropBinary binary
  cases h1.symm.trans h
  exact hs.of_functions rfl hv hr hf

theorem listRuns (hs : Stored events db) :
    db.listRuns = .ok ((runsOf events).map Prod.fst) := by
  unfold Database.listRuns Database.runRows
  rw [hs.runs]
  exact mapM_map_ok (fun r => by rw [RunRow.toRun?_ofRun]) _

end Stored

/-! ## The file after some events -/

/-- The file is absent as long as nothing was called, and then holds what the events add up to. -/
structure OnFile (key : Key) (events : List Event) (cs : List Connection) (h : Host) : Prop where
  keys : ∀ c ∈ cs, c.key = some key
  file : (events = [] ∧ cs = [] ∧ h.files.get? key = none) ∨
    ∃ db x, h.files.get? key = some (.file (.database db) x) ∧ Stored events db

namespace OnFile

variable {key : Key} {h h' : Host} {events : List Event} {cs : List Connection}
  {c c' : Connection} {p : Path} {e : Event}

/-- The database behind any of the connections. -/
theorem load (ho : OnFile key events cs h) (hc : c ∈ cs) : Stored events (c.load h) ∧
    ∃ x, h.files.get? key = some (.file (.database (c.load h)) x) := by
  rcases ho.file with ⟨-, rfl, -⟩ | ⟨db, x, hg, hs⟩
  · cases hc
  · rw [Connection.load_eq (ho.keys c hc) hg]
    exact ⟨hs, x, hg⟩

/-- A call that stores what its event adds. -/
theorem written (ho : OnFile key events cs h) (hc : c ∈ cs) {db : Database}
    (hs : Stored (events ++ [e]) db) :
    OnFile key (events ++ [e]) ({ c with image := db } :: cs) (c.written db h) := by
  have hkey := ho.keys c hc
  refine ⟨List.forall_mem_cons.mpr ⟨hkey, ho.keys⟩, Or.inr ⟨db, ?_⟩⟩
  obtain ⟨-, x, hg⟩ := ho.load hc
  unfold Connection.written
  rw [hkey]
  exact ⟨x, Connection.get?_writeImage hg, hs⟩

/-- Opening a file that is there changes nothing. -/
theorem reopened {db : Database} {x : Bool} (hg : h.files.get? key = some (.file (.database db) x))
    (hs : Stored events db) (hr : Runs (Connection.openAt p).outcome h (.ok c) h')
    (hc : c.key = some key) : h' = h ∧ c.image = db := by
  obtain ⟨raw, h1, hraw, hmig, hkey, rfl⟩ := Connection.runs_openAt_ok.mp hr
  rw [hc] at hkey
  rcases Connection.runs_openRaw_ok.mp hraw with ⟨-, rfl, -⟩ |
    ⟨key', body, image, -, hfind, himage, rfl, rfl⟩
  · cases hkey
  · cases hkey
    rcases Connection.get?_of_find? hfind with ⟨b, y, rfl, hg'⟩ | ⟨-, hg'⟩
    · cases hg.symm.trans hg'
      cases himage
      have hsame : c.image = db := Except.ok.inj (hmig.symm.trans hs.migrate_eq)
      refine ⟨?_, hsame⟩
      dsimp only
      rw [if_pos hsame, Connection.createFile_of_some hg]
    · rw [hg] at hg'
      cases hg'

/-- Opening where nothing is leaves the database of a new file. -/
theorem created (hg : h.files.get? key = none)
    (hr : Runs (Connection.openAt p).outcome h (.ok c) h') (hc : c.key = some key) :
    ∃ db x, h'.files.get? key = some (.file (.database db) x) ∧ Stored [] db := by
  obtain ⟨raw, h1, hraw, hmig, hkey, rfl⟩ := Connection.runs_openAt_ok.mp hr
  rw [hc] at hkey
  rcases Connection.runs_openRaw_ok.mp hraw with ⟨-, rfl, -⟩ |
    ⟨key', body, image, -, hfind, himage, rfl, rfl⟩
  · cases hkey
  · cases hkey
    rcases Connection.get?_of_find? hfind with ⟨b, y, -, hg'⟩ | ⟨rfl, -⟩
    · rw [hg] at hg'
      cases hg'
    · cases himage
      obtain ⟨db, hdb, hne, hs⟩ := Stored.migrated
      obtain rfl : db = c.image := Except.ok.inj (hdb.symm.trans hmig)
      refine ⟨_, false, ?_, hs⟩
      rw [if_neg hne]
      exact Connection.get?_writeImage (Connection.get?_createFile hg)

theorem opened (ho : OnFile key events cs h)
    (hr : Runs (Connection.openAt p).outcome h (.ok c) h') (hc : c.key = some key) :
    OnFile key (events ++ [.opened p]) (c :: cs) h' := by
  refine ⟨List.forall_mem_cons.mpr ⟨hc, ho.keys⟩, Or.inr ?_⟩
  rcases ho.file with ⟨rfl, -, hg⟩ | ⟨db, x, hg, hs⟩
  · obtain ⟨db, x, hg, hs⟩ := created hg hr hc
    exact ⟨db, x, hg, hs.opened p⟩
  · obtain ⟨rfl, -⟩ := reopened hg hs hr hc
    exact ⟨db, x, hg, hs.opened p⟩

end OnFile

/-! ## Whole histories -/

section Histories

variable {key : Key} {start h : Host} {events : List Event} {cs : List Connection}
  {c : Connection}

/-- Along a history the file holds what the events add up to. -/
theorem History.onFile (absent : start.files.get? key = none)
    (hist : History key start events cs h) : OnFile key events cs h := by
  induction hist with
  | start => exact ⟨nofun, Or.inl ⟨rfl, rfl, absent⟩⟩
  | elsewhere _ hsame ih => exact ⟨ih.keys, by rw [hsame]; exact ih.file⟩
  | opened _ hr hc ih => exact ih.opened hr hc
  | runAdded _ hc hr ih =>
    rcases Connection.runs_update.mp hr with ⟨id, db, hins, he, rfl⟩ | ⟨fault, -, he, -⟩
    · cases he
      exact ih.written hc ((ih.load hc).1.runAdded hins)
    · cases he
  | inserted _ hc hr ih =>
    obtain ⟨db, hins, rfl, rfl⟩ := Connection.runs_transact_ok.mp hr
    exact ih.written hc ((ih.load hc).1.inserted hins)
  | replaced _ hc hr ih =>
    obtain ⟨db, hrep, rfl, rfl⟩ := Connection.runs_transact_ok.mp hr
    exact ih.written hc ((ih.load hc).1.replaced hrep)
  | dropped _ hc hr ih =>
    rcases Connection.runs_update.mp hr with ⟨n, db, hdrop, he, rfl⟩ | ⟨fault, -, he, -⟩
    · cases he
      exact ih.written hc ((ih.load hc).1.dropped hdrop)
    · cases he

/-- At no point are functions refused. -/
theorem History.exists_inserted (absent : start.files.get? key = none)
    (hist : History key start events cs h) (hc : c ∈ cs) (functions : List LabeledFunction) :
    ∃ c' h', Runs (c.transact (Database.insertFunctions functions)).outcome h
      (.ok (functions.length, c')) h' := by
  obtain ⟨db, hins, -⟩ := ((hist.onFile absent).load hc).1.functions.insertFunctions functions
  exact ⟨_, _, Connection.runs_transact_ok.mpr ⟨db, hins, rfl, rfl⟩⟩

theorem History.exists_replaced (absent : start.files.get? key = none)
    (hist : History key start events cs h) (hc : c ∈ cs) (binaries : List Path)
    (functions : List LabeledFunction) :
    ∃ c' h', Runs (c.transact (Database.replaceFunctions binaries functions)).outcome h
      (.ok (functions.length, c')) h' := by
  obtain ⟨db, hrep, -⟩ :=
    ((hist.onFile absent).load hc).1.functions.replaceFunctions binaries functions
  exact ⟨_, _, Connection.runs_transact_ok.mpr ⟨db, hrep, rfl, rfl⟩⟩

/-- Every history refines the map in which the last write wins: the listing is the map, the listing of
one binary is its part, dropping a binary counts its keys, the runs are those that were added in
order, with ascending ids, and opening the file again changes none of this. -/
theorem history_refines_map (absent : start.files.get? key = none)
    (hist : History key start events cs h) (hc : c ∈ cs) :
    (∃ fs, Runs (c.query (Database.listFunctions none)).outcome h (.ok fs) h ∧
      (fs.map keyOf).Nodup ∧ (∀ f, f ∈ fs ↔ corpusOf events (keyOf f) = some (factsOf f)) ∧
      ∀ b : Path, Runs (c.query (Database.listFunctions (some b))).outcome h
        (.ok (fs.filter (·.function.binaryPath.text == b.text))) h) ∧
    (∀ b : Path, ∃ c' h', Runs (c.update (Database.dropBinary b)).outcome h
      (.ok (((corpusOf events).keysOf b).ncard, c')) h') ∧
    Runs (c.query Database.listRuns).outcome h (.ok ((runsOf events).map Prod.fst)) h ∧
    ((runsOf events).map Prod.snd).Pairwise (· < ·) ∧
    ∀ p c' h', Runs (Connection.openAt p).outcome h (.ok c') h' → c'.key = some key →
      h' = h ∧ c'.load h' = c.load h := by
  have ho := hist.onFile absent
  obtain ⟨hs, x, hg⟩ := ho.load hc
  refine ⟨?_, fun b => ?_, ?_, hs.ids, fun p c' h' hr hk => ?_⟩
  · obtain ⟨fs, hall, hshows, hone⟩ := hs.functions.listFunctions
    refine ⟨fs, ?_, hshows.nodup, hshows.mem_iff, fun b => ?_⟩
    · exact Connection.runs_query.mpr ⟨by rw [hall]; rfl, rfl⟩
    · exact Connection.runs_query.mpr ⟨by rw [hone b]; rfl, rfl⟩
  · obtain ⟨db, hdrop, -⟩ := hs.functions.dropBinary b
    exact ⟨_, _, Connection.runs_update.mpr (Or.inl ⟨_, db, hdrop, rfl, rfl⟩)⟩
  · exact Connection.runs_query.mpr ⟨by rw [hs.listRuns]; rfl, rfl⟩
  · obtain ⟨rfl, himage⟩ := OnFile.reopened hg hs hr hk
    exact ⟨rfl, Connection.load_eq hk hg⟩

end Histories

/-! ## A short history -/

/-- A database at the top of the tree is found when nothing or a file is there. -/
theorem find?_top {h : Host} (body : Option Body) {x : Bool}
    (hg : h.files.get? ["corpus.db"] = body.map (.file · x)) :
    Connection.find? h.files h.cwd ⟨"/corpus.db"⟩ = some (["corpus.db"], body) := by
  have hkey : ∀ j, j <+: ["corpus.db"] → j = [] ∨ j = ["corpus.db"] := by
    intro j hj
    rcases List.prefix_concat_iff.mp (show j <+: [] ++ ["corpus.db"] from hj) with rfl | hj
    · exact Or.inr rfl
    · exact Or.inl (List.prefix_nil.mp hj)
  rw [Connection.find?_of_names ["corpus.db"] (by decide +kernel) rfl (by decide +kernel)]
  · rw [hg]
    cases body <;> rfl
  · exact List.forall_mem_singleton.mpr ⟨by decide, by decide, by decide⟩
  · intro j target hj hl
    rcases hkey j hj with rfl | rfl
    · cases hl
    · rw [hg] at hl
      cases body <;> cases hl
  · intro j b x hj hne hf
    rcases hkey j hj with rfl | rfl
    · cases hf
    · exact hne rfl

/-- A function at the far end of the address space. -/
def farFunction (binary : String) (size : Option UInt64) : LabeledFunction :=
  ⟨⟨⟨binary⟩, 0xffffffffffffffff, size, "f", .symbol⟩, .unknown⟩

/-- A function is overwritten, one without a size stays, a replaced binary is gone. -/
theorem far_functions_are_overwritten :
    let run : BuildRun := ⟨none, .partly, 3, 2, 1, 1, "t0", "t1"⟩
    let events := [.opened ⟨"/corpus.db"⟩, .runAdded run 1,
      .inserted [farFunction "/a" (some 1), farFunction "/b" none, farFunction "/a" none],
      .replaced [⟨"/b"⟩] [farFunction "/c" (some 0xffffffffffffffff)], .opened ⟨"/corpus.db"⟩]
    ∃ start cs h c, start.files.get? ["corpus.db"] = none ∧
      History ["corpus.db"] start events cs h ∧ c ∈ cs ∧
      Runs (c.query Database.listRuns).outcome h (.ok [run]) h ∧
      ∃ fs, Runs (c.query (Database.listFunctions none)).outcome h (.ok fs) h ∧
        farFunction "/a" none ∈ fs ∧ farFunction "/a" (some 1) ∉ fs ∧
        farFunction "/b" none ∉ fs ∧ farFunction "/c" (some 0xffffffffffffffff) ∈ fs := by
  intro run events
  let start : Host := ⟨.empty, [], [], ⟨0, 0⟩, "", 1, .empty⟩
  have absent : start.files.get? ["corpus.db"] = none := by decide
  have hopen : ∀ {h : Host} {body : Option Body} {image : Database} (db : Database),
      Connection.find? h.files h.cwd ⟨"/corpus.db"⟩ = some (["corpus.db"], body) →
      Connection.imageOf body = .ok image → image.migrate = .ok db →
      ∃ h', Runs (Connection.openAt ⟨"/corpus.db"⟩).outcome h
        (.ok ⟨some ["corpus.db"], db⟩) h' := by
    intro h body image db hf hi hm
    exact ⟨_, Connection.runs_openAt_ok.mpr ⟨⟨some ["corpus.db"], image⟩, _,
      Connection.runs_openRaw_ok.mpr (Or.inr ⟨_, body, image, by decide, hf, hi, rfl, rfl⟩), hm, rfl,
      rfl⟩⟩
  obtain ⟨h1, hr1⟩ := hopen ⟨2, some [], some []⟩
    (find?_top (h := start) none (x := false) absent) rfl rfl
  have hist1 := History.start.opened hr1 rfl
  have hs1 := ((hist1.onFile absent).load (List.mem_cons_self ..)).1
  have hrun : ∃ db, Database.insertRun run
      ((⟨some ["corpus.db"], ⟨2, some [], some []⟩⟩ : Connection).load h1) = .ok (1, db) := by
    unfold Database.insertRun Database.insertRunRow Database.runRows
    rw [hs1.runs]
    exact ⟨_, rfl⟩
  obtain ⟨db2, hrun⟩ := hrun
  have hist2 := hist1.runAdded (List.mem_cons_self ..)
    (Connection.runs_update.mpr (Or.inl ⟨1, db2, hrun, rfl, rfl⟩))
  obtain ⟨c3, h3, hr3⟩ := hist2.exists_inserted absent (List.mem_cons_self ..)
    [farFunction "/a" (some 1), farFunction "/b" none, farFunction "/a" none]
  have hist3 := hist2.inserted (List.mem_cons_self ..) hr3
  obtain ⟨c4, h4, hr4⟩ := hist3.exists_replaced absent (List.mem_cons_self ..) [⟨"/b"⟩]
    [farFunction "/c" (some 0xffffffffffffffff)]
  have hist4 := hist3.replaced (List.mem_cons_self ..) hr4
  obtain ⟨hs4, x, hg4⟩ := (hist4.onFile absent).load (List.mem_cons_self ..)
  obtain ⟨h5, hr5⟩ := hopen _ (find?_top (some (.database (c4.load h4))) hg4) rfl hs4.migrate_eq
  have hist5 := hist4.opened hr5 rfl
  obtain ⟨⟨fs, hlist, -, hmem, -⟩, -, hruns, -⟩ :=
    history_refines_map absent hist5 (List.mem_cons_self ..)
  have hevents : ∀ f, f ∈ fs ↔ corpusOf events (keyOf f) = some (factsOf f) := hmem
  refine ⟨start, _, h5, _, absent, hist5, List.mem_cons_self .., hruns, fs, hlist, ?_⟩
  rw [hevents, hevents, hevents, hevents]
  decide +kernel

end CipherCorpus.Store
