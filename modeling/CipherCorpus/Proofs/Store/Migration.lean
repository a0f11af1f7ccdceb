import CipherCorpus.Proofs.Store.File
import CipherCorpus.Proofs.Store.History

/-!
# Databases of every schema version

Opening a database brings it up to the current version (`Database.migrate`).  A version that is not negative
is handled as its number says: one from the future is refused and the file stays as it is, any other is opened
with both tables and all rows, and opened again it stays as it is (`opening_is_safe`).

A negative version is taken for a version with runs, although it is below the oldest one that is supported
(`migrate_of_negative`): the database is opened and called current without a table of runs
(`negative_version_lacks_runs`).
-/

namespace CipherCorpus.Store

variable {h : Host} {p : Path} {key : Key} {db db' : Database} {body : Body}

namespace Database

/-- The version is one that this library knows. -/
def IsSupported (db : Database) : Prop := oldestVersion ≤ db.version ∧ db.version ≤ currentVersion

instance (db : Database) : Decidable db.IsSupported := inferInstanceAs (Decidable (_ ∧ _))

/-- A database at a known version has the tables of this version. -/
structure LaidOut (db : Database) : Prop where
  empty : db.version = 0 → db = .fresh
  withRuns : db.version = 1 → ∃ runs, db = ⟨1, some runs, none⟩
  withBoth : db.version = 2 → ∃ runs functions, db = ⟨2, some runs, some functions⟩

/-- Nothing is asked of the tables at any other version. -/
theorem laidOut_of_not_isSupported (hs : ¬ db.IsSupported) : db.LaidOut where
  empty := fun hv => absurd (by rw [IsSupported, hv]; decide) hs
  withRuns := fun hv => absurd (by rw [IsSupported, hv]; decide) hs
  withBoth := fun hv => absurd (by rw [IsSupported, hv]; decide) hs

/-- A database with both tables and the given rows. -/
def current (runs : List RunRow) (functions : List FunctionRow) : Database :=
  ⟨currentVersion, some runs, some functions⟩

/-- What a database is brought to: both tables with the rows there were. -/
def upToDate (db : Database) : Database := current (db.runs.getD []) (db.functions.getD [])

/-! ## Bringing a database up to date -/

theorem version_of_isSupported (hs : db.IsSupported) : db.version = 0 ∨ db.version = 1 ∨ db.version = 2 := by
  obtain ⟨hlow, hhigh⟩ := hs
  have hlow' : (0 : Int) ≤ db.version.toInt := Int32.le_iff_toInt_le.mp hlow
  have hhigh' : db.version.toInt ≤ (2 : Int) := Int32.le_iff_toInt_le.mp hhigh
  have hcases : db.version.toInt = (0 : Int32).toInt ∨ db.version.toInt = (1 : Int32).toInt ∨
      db.version.toInt = (2 : Int32).toInt := by
    change db.version.toInt = 0 ∨ db.version.toInt = 1 ∨ db.version.toInt = 2
    omega
  exact hcases.imp Int32.toInt_inj.mp (Or.imp Int32.toInt_inj.mp Int32.toInt_inj.mp)

/-- A version from the future is refused. -/
theorem migrate_of_newer (hv : currentVersion < db.version) :
    db.migrate = .error (.unsupportedVersion db.version) := if_pos hv

/-- A database at a known version gets the tables that it lacks. -/
theorem migrate_of_isSupported (hl : db.LaidOut) (hs : db.IsSupported) : db.migrate = .ok db.upToDate := by
  rcases version_of_isSupported hs with hv | hv | hv
  · rw [hl.empty hv]
    rfl
  · obtain ⟨runs, rfl⟩ := hl.withRuns hv
    rfl
  · obtain ⟨runs, functions, rfl⟩ := hl.withBoth hv
    rfl

/-- Once it is up to date, a database stays as it is. -/
theorem migrate_upToDate (db : Database) : db.upToDate.migrate = .ok db.upToDate := rfl

/-- A negative version counts as one with runs, whatever tables there are. -/
theorem migrate_of_negative (hv : db.version < oldestVersion) :
    db.migrate = .ok ⟨currentVersion, db.runs, some (db.functions.getD [])⟩ := by
  have hneg : db.version.toInt < 0 := Int32.lt_iff_toInt_lt.mp hv
  have hnewer : ¬ currentVersion < db.version := fun h => by
    have : (2 : Int) < db.version.toInt := Int32.lt_iff_toInt_lt.mp h
    omega
  have hzero : db.version ≠ 0 := fun h => by
    rw [h] at hneg
    exact absurd hneg (by decide)
  have hold : db.version < 2 := Int32.lt_iff_toInt_lt.mpr (by
    show db.version.toInt < 2
    omega)
  unfold migrate
  rw [if_neg hnewer, if_neg hzero]
  exact if_pos hold

/-! ## What is listed -/

/-- What a query of the runs gives, it gives of the database brought up to date. -/
theorem listRuns_upToDate {runs : List BuildRun} (hr : db.listRuns = .ok runs) :
    db.upToDate.listRuns = .ok runs := by
  cases hd : db.runs with
  | none =>
    unfold listRuns runRows at hr
    rw [hd] at hr
    cases hr
  | some rows =>
    rw [← hr]
    unfold listRuns runRows upToDate current
    rw [hd]
    rfl

theorem listFunctions_upToDate {binary : Option Path} {fs : List LabeledFunction}
    (hf : db.listFunctions binary = .ok fs) : db.upToDate.listFunctions binary = .ok fs := by
  cases hd : db.functions with
  | none =>
    unfold listFunctions functionRows at hf
    rw [hd] at hf
    cases hf
  | some rows =>
    rw [← hf]
    unfold listFunctions functionRows upToDate current
    rw [hd]
    rfl

/-- With a table of runs a run is inserted as long as there is an id for it. -/
theorem exists_insertRun {rows : List RunRow} {id : Int64} (hr : db.runs = some rows)
    (hid : nextRunId? rows = some id) (run : BuildRun) : ∃ db', db.insertRun run = .ok (id, db') := by
  unfold insertRun insertRunRow runRows
  rw [hr]
  simp only [bind, Except.bind, hid]
  exact ⟨_, rfl⟩

/-- Without a table of runs none is inserted. -/
theorem insertRun_of_none (hr : db.runs = none) (run : BuildRun) :
    db.insertRun run = .error (.noTable "build_runs") := by
  unfold insertRun insertRunRow runRows
  rw [hr]
  rfl

end Database

/-! ## Opening a file -/

namespace Connection

/-- The entries of one tree are those of another, or a file stands where a file stands. -/
def SameKinds (t t' : FileTree) : Prop :=
  ∀ k, t'.get? k = t.get? k ∨ ∃ body x body' x', t.get? k = some (.file body x) ∧ t'.get? k = some (.file body' x')

theorem sameKinds_put {t : FileTree} {x x' : Bool} {body' : Body} (hg : t.get? key = some (.file body x)) :
    SameKinds t (t.put key (.file body' x')) := by
  intro k
  by_cases hk : k = key
  · subst hk
    exact Or.inr ⟨body, x, body', x', hg, FileTree.get?_put_self _ _ (FileTree.ne_nil_of_get? hg nofun)⟩
  · exact Or.inl (FileTree.get?_put_ne _ _ hk)

variable {t t' : FileTree} {cwd : Key}

/-- What is in the files makes no difference to where a database path leads. -/
theorem SameKinds.scan_eq (hs : SameKinds t t') (names : List String) :
    ∀ place, scan t' place names = scan t place names := by
  induction names with
  | nil => exact fun _ => rfl
  | cons name rest ih =>
    intro place
    unfold scan
    dsimp only
    rcases hs (place ++ [name]) with he | ⟨body, x, body', x', he, he'⟩
    · rw [he]
      simp only [ih]
    · rw [he, he']
      simp only [ih]

theorem SameKinds.walk_eq (hs : SameKinds t t') (links : Nat) :
    ∀ place names, walk t' links place names = walk t links place names := by
  induction links with
  | zero =>
    intro place names
    unfold walk
    rw [hs.scan_eq]
  | succ links ih =>
    intro place names
    unfold walk
    rw [hs.scan_eq]
    simp only [ih]

/-- A database file is found again when its content is another one. -/
theorem find?_put {x x' : Bool} {body' : Body} (hg : t.get? key = some (.file body x))
    (hf : find? t cwd p = some (key, some body)) :
    find? (t.put key (.file body' x')) cwd p = some (key, some body') := by
  have hself : (t.put key (.file body' x')).get? key = some (.file body' x') :=
    FileTree.get?_put_self _ _ (FileTree.ne_nil_of_get? hg nofun)
  unfold find? at hf ⊢
  dsimp only at hf ⊢
  split at hf
  · cases hf
  · next hz =>
    rw [if_neg hz, (sameKinds_put hg).walk_eq]
    obtain ⟨k, hk, hf⟩ := Option.bind_eq_some_iff.mp hf
    have hkey : k = key := by
      split at hf <;> cases hf
      rfl
    subst hkey
    rw [hk, Option.bind_eq_bind, Option.bind_some, hself]
    rfl

/-- A database file is opened as it is. -/
theorem runs_openRaw_file (hm : isMemory p = false) (hf : find? h.files h.cwd p = some (key, some body))
    (hi : imageOf (some body) = .ok db) : Runs (openRaw p).outcome h (.ok ⟨some key, db⟩) h := by
  refine runs_openRaw_ok.mpr (Or.inr ⟨key, some body, db, hm, hf, hi, rfl, ?_⟩)
  rcases get?_of_find? hf with ⟨b, x, -, hg⟩ | ⟨he, -⟩
  · rw [createFile_of_some hg]
  · cases he

/-- A database whose version is refused is not opened, and the host is as before. -/
theorem runs_openAt_refused {e : DatabaseError} (hm : isMemory p = false)
    (hf : find? h.files h.cwd p = some (key, some body)) (hi : imageOf (some body) = .ok db)
    (he : db.migrate = .error e) : Runs (openAt p).outcome h (.error e) h := by
  unfold openAt
  refine Attempt.runs_inWords_bind.mpr (Or.inl ⟨_, h, runs_openRaw_file hm hf hi, ?_⟩)
  refine Attempt.runs_bind.mpr (Or.inr ⟨e, ?_, rfl⟩)
  rw [Attempt.outcome_ofOutcome, runs_pure]
  exact ⟨he.symm, rfl⟩

/-- A database that can be brought up to date is opened; its file holds the new image, and opened again it
stays as it is. -/
theorem exists_openAt (hm : isMemory p = false) (hf : find? h.files h.cwd p = some (key, some body))
    (hi : imageOf (some body) = .ok db) (hmig : db.migrate = .ok db') (hagain : db'.migrate = .ok db') :
    ∃ c h', Runs (openAt p).outcome h (.ok c) h' ∧ c.key = some key ∧ c.load h' = db' ∧
      (∀ k, k ≠ key → h'.files.get? k = h.files.get? k) ∧ Runs (openAt p).outcome h' (.ok c) h' := by
  obtain ⟨x, hg⟩ : ∃ x, h.files.get? key = some (.file body x) := by
    rcases get?_of_find? hf with ⟨b, x, he, hg⟩ | ⟨he, -⟩
    · cases he
      exact ⟨x, hg⟩
    · cases he
  have hraw := runs_openRaw_file hm hf hi
  by_cases hsame : db' = db
  · -- the file has been up to date before
    subst hsame
    have hopen : Runs (openAt p).outcome h (.ok ⟨some key, db'⟩) h :=
      runs_openAt_ok.mpr ⟨_, h, hraw, hmig, rfl, (if_pos rfl).symm⟩
    refine ⟨_, h, hopen, rfl, ?_, fun _ _ => rfl, hopen⟩
    unfold load
    rw [Option.bind_some, hg]
    cases body with
    | bytes data => rfl
    | database image =>
      cases hi
      rfl
  · have hopen : Runs (openAt p).outcome h (.ok ⟨some key, db'⟩)
        { h with files := h.files.put key (.file (.database db') x) } := by
      refine runs_openAt_ok.mpr ⟨_, h, hraw, hmig, rfl, ?_⟩
      rw [if_neg hsame]
      unfold written writeImage
      dsimp only
      rw [hg]
    have hself := FileTree.get?_put_self h.files (.file (.database db') x) (FileTree.ne_nil_of_get? hg nofun)
    refine ⟨_, _, hopen, rfl, load_eq rfl hself, fun k hk => FileTree.get?_put_ne _ _ hk, ?_⟩
    exact runs_openAt_ok.mpr ⟨_, _, runs_openRaw_file hm (find?_put hg hf) rfl, hagain, rfl, (if_pos rfl).symm⟩

end Connection

/-! ## Main result -/

/-- **Opening a database is safe** for every version that is not negative.  A version that is not supported is
refused and the host stays as it is.  A supported one is opened: its version is the current one, both tables are
there with the rows there were, so runs and functions can be stored, what was listed before is listed, nothing
but the file changes, and opening it again changes nothing. -/
theorem opening_is_safe (hm : Connection.isMemory p = false)
    (hf : Connection.find? h.files h.cwd p = some (key, some body))
    (hi : Connection.imageOf (some body) = .ok db) (hl : db.LaidOut) (hv : oldestVersion ≤ db.version) :
    (¬ db.IsSupported ∧ Runs (Connection.openAt p).outcome h (.error (.unsupportedVersion db.version)) h) ∨
    (db.IsSupported ∧ ∃ c h', Runs (Connection.openAt p).outcome h (.ok c) h' ∧
      (c.load h').version = currentVersion ∧
      (c.load h').runRows = .ok (db.runs.getD []) ∧ (c.load h').functionRows = .ok (db.functions.getD []) ∧
      (∀ run, Database.nextRunId? (db.runs.getD []) ≠ none →
        ∃ id c' h'', Runs (c.update (Database.insertRun run)).outcome h' (.ok (id, c')) h'') ∧
      (∀ functions, ∃ c' h'',
        Runs (c.transact (Database.insertFunctions functions)).outcome h' (.ok (functions.length, c')) h'') ∧
      (∀ runs, db.listRuns = .ok runs → (c.load h').listRuns = .ok runs) ∧
      (∀ binary fs, db.listFunctions binary = .ok fs → (c.load h').listFunctions binary = .ok fs) ∧
      (∀ k, k ≠ key → h'.files.get? k = h.files.get? k) ∧ Runs (Connection.openAt p).outcome h' (.ok c) h') := by
  by_cases hs : db.IsSupported
  · obtain ⟨c, h', hopen, -, hload, hframe, hagain⟩ := Connection.exists_openAt hm hf hi
      (Database.migrate_of_isSupported hl hs) db.migrate_upToDate
    refine Or.inr ⟨hs, c, h', hopen, ?_⟩
    rw [hload]
    refine ⟨rfl, rfl, rfl, fun run hid => ?_, fun functions => ?_, fun _ => Database.listRuns_upToDate,
      fun _ _ => Database.listFunctions_upToDate, hframe, hagain⟩
    · obtain ⟨id, hid⟩ := Option.ne_none_iff_exists'.mp hid
      have hruns : db.upToDate.runs = some _ := rfl
      obtain ⟨db', hins⟩ := Database.exists_insertRun hruns hid run
      exact ⟨id, _, _, Connection.runs_update.mpr (Or.inl ⟨id, db', hload ▸ hins, rfl, rfl⟩)⟩
    · have hrows : db.upToDate.functions = some _ := rfl
      have hins := Database.insertFunctions_eq functions hrows
      exact ⟨_, _, Connection.runs_transact_ok.mpr ⟨_, hload ▸ hins, rfl, rfl⟩⟩
  · refine Or.inl ⟨hs, Connection.runs_openAt_refused hm hf hi (Database.migrate_of_newer ?_)⟩
    exact Int32.not_le.mp fun h2 => hs ⟨hv, h2⟩

/-- A host with a database at the top of its tree. -/
def hostWithDatabase (db : Database) : Host :=
  ⟨⟨[(["corpus.db"], .file (.database db) false)]⟩, [], [], ⟨0, 0⟩, "", 1, .empty⟩

/-- A database of version 1 is opened with the run in it; one of version 3 is refused. -/
theorem earlier_run_is_kept_and_later_version_refused :
    let run : BuildRun := ⟨none, .partly, 3, 2, 1, 1, "t0", "t1"⟩
    let old : Database := ⟨1, some [.ofRun 7 run], none⟩
    let new : Database := ⟨3, some [], none⟩
    let p : Path := ⟨"/corpus.db"⟩
    old.LaidOut ∧ old.IsSupported ∧ new.LaidOut ∧ ¬ new.IsSupported ∧
      (∃ c h', Runs (Connection.openAt p).outcome (hostWithDatabase old) (.ok c) h' ∧
        (c.load h').listRuns = .ok [run] ∧ Runs (Connection.openAt p).outcome h' (.ok c) h') ∧
      Runs (Connection.openAt p).outcome (hostWithDatabase new) (.error (.unsupportedVersion 3))
        (hostWithDatabase new) := by
  intro run old new p
  have hold : old.LaidOut := ⟨fun hv => absurd hv (by decide), fun _ => ⟨_, rfl⟩, fun hv => absurd hv (by decide)⟩
  have hnew : new.LaidOut := Database.laidOut_of_not_isSupported (by decide)
  have hsupported : old.IsSupported := by decide
  have hnot : ¬ new.IsSupported := by decide
  have hfind : ∀ db : Database, Connection.find? (hostWithDatabase db).files (hostWithDatabase db).cwd p =
      some (["corpus.db"], some (.database db)) := fun db => find?_top (some (.database db)) rfl
  refine ⟨hold, hsupported, hnew, hnot, ?_, ?_⟩
  · obtain ⟨-, c, h', hopen, -, -, -, -, -, hruns, -, -, hagain⟩ :=
      (opening_is_safe (by decide) (hfind old) rfl hold (by decide)).resolve_left fun h => h.1 hsupported
    exact ⟨c, h', hopen, hruns _ (by decide +kernel), hagain⟩
  · exact ((opening_is_safe (by decide) (hfind new) rfl hnew (by decide)).resolve_right fun h => hnot h.1).2

/-- A negative version is not supported, but the database is opened and called current, and it has no table
of runs. -/
theorem negative_version_lacks_runs :
    let db : Database := ⟨-1, none, none⟩
    db.LaidOut ∧ ¬ db.IsSupported ∧
      ∃ c h', Runs (Connection.openAt ⟨"/corpus.db"⟩).outcome (hostWithDatabase db) (.ok c) h' ∧
        (c.load h').version = currentVersion ∧
        ∀ run, Runs (c.update (Database.insertRun run)).outcome h' (.error (.engine (.noTable "build_runs"))) h' := by
  intro db
  have hmig : db.migrate = .ok ⟨2, none, some []⟩ := Database.migrate_of_negative (by decide)
  obtain ⟨c, h', hopen, -, hload, -⟩ := Connection.exists_openAt (h := hostWithDatabase db) (by decide)
    (find?_top (some (.database db)) rfl) rfl hmig rfl
  refine ⟨Database.laidOut_of_not_isSupported (by decide), by decide, c, h', hopen, by rw [hload]; rfl, fun run => ?_⟩
  refine Connection.runs_update.mpr (Or.inr ⟨_, ?_, rfl, rfl⟩)
  rw [hload]
  exact Database.insertRun_of_none rfl run

end CipherCorpus.Store
