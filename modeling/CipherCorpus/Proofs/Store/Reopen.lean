import CipherCorpus.Proofs.FileTree.Reached
import CipherCorpus.Proofs.Store.Migration

/-!
# A database that is opened again

The file of a database that is found below a path that leads to a directory is found below the path of the
key of this directory, too (`find?_pathOf`).  A database that is up to date stays as it is when it is opened
again (`runs_openAt_again`), and inserting runs keeps it so (`version_insertRun`).

A migration that changes anything changes the version, so opening may compare the versions alone
(`openAt_eq_openByVersion`).
-/

namespace CipherCorpus.Store

open FileTree CipherCorpus.Path

variable {α : Type} {db db' : Database} {h : Host}

/-! ## Databases that are up to date -/

namespace Database

theorem version_of_migrate (h : db.migrate = .ok db') : db'.version = currentVersion := by
  unfold migrate at h
  split at h
  · cases h
  · next hnewer =>
    dsimp only at h
    by_cases hzero : db.version = 0
    · rw [if_pos hzero, if_pos (show (1 : Int32) < 2 by decide)] at h
      cases h
      rfl
    · rw [if_neg hzero] at h
      split at h
      · cases h
        rfl
      · next hold =>
        cases h
        exact Int32.le_antisymm (Int32.not_lt.mp hnewer) (Int32.not_lt.mp hold)

theorem migrate_of_current (hv : db.version = currentVersion) : db.migrate = .ok db := by
  obtain ⟨version, runs, functions⟩ := db
  obtain rfl : version = currentVersion := hv
  rfl

theorem eq_iff_of_migrate (h : db.migrate = .ok db') : db' = db ↔ db'.version = db.version := by
  refine ⟨congrArg Database.version, fun hv => ?_⟩
  have hkept := migrate_of_current (hv.symm.trans (version_of_migrate h))
  exact Except.ok.inj (h.symm.trans hkept)

theorem version_insertRun {run : BuildRun} {id : Int64} (h : db.insertRun run = .ok (id, db')) :
    db'.version = db.version := by
  unfold insertRun insertRunRow at h
  cases hr : db.runRows with
  | error fault =>
    rw [hr] at h
    cases h
  | ok rows =>
    rw [hr] at h
    simp only [bind, Except.bind] at h
    split at h
    · cases h
      rfl
    · cases h

end Database

/-! ## Where the file is found -/

namespace Connection

variable {t : FileTree} {cwd place k home key : Key} {xs ys : List String} {n : String} {root p : Path}

/-- Names of directories are walked in the same way as by any other path. -/
theorem scan_of_scans (hs : Scans t true place xs (.place (.present k .directory))) :
    scan t place (xs ++ ys) = scan t k ys := by
  generalize he : FileTree.Stop.place (.present k .directory) = s at hs
  induction hs with
  | done =>
    cases he
    rfl
  | here _ ih => exact ih he
  | up _ ih =>
    rw [List.cons_append, scan, if_neg (by decide), if_pos rfl]
    exact ih he
  | directory hx hg _ ih =>
    rw [List.cons_append, scan, if_neg hx.notHere, if_neg hx.notUp, if_neg (Nat.not_lt.mpr hx.size)]
    dsimp only
    rw [hg]
    exact ih he
  | free => cases he
  | file => cases he
  | lastLink => cases he
  | link => cases he

theorem scan_of_scans_link {base : Key} {target : String} {rest : List String}
    (hs : Scans t true place xs (.link base target rest)) :
    scan t place (xs ++ ys) = some (.link base target (rest ++ ys)) := by
  generalize he : FileTree.Stop.link base target rest = s at hs
  induction hs with
  | here _ ih => exact ih he
  | up _ ih =>
    rw [List.cons_append, scan, if_neg (by decide), if_pos rfl]
    exact ih he
  | directory hx hg _ ih =>
    rw [List.cons_append, scan, if_neg hx.notHere, if_neg hx.notUp, if_neg (Nat.not_lt.mpr hx.size)]
    dsimp only
    rw [hg]
    exact ih he
  | link hx hg _ =>
    cases he
    rw [List.cons_append, scan, if_neg hx.notHere, if_neg hx.notUp, if_neg (Nat.not_lt.mpr hx.size)]
    dsimp only
    rw [hg]
  | done => cases he
  | free => cases he
  | file => cases he
  | lastLink => cases he

theorem walk_congr {place' : Key} {names names' : List String} (hs : scan t place names = scan t place' names')
    (links : Nat) : walk t links place names = walk t links place' names' := by
  cases links with
  | zero => rw [walk, walk, hs]
  | succ links => rw [walk, walk, hs]

/-- A walk goes on behind a directory, with the links that are left. -/
theorem walk_of_walks {m : Nat} : ∀ {place xs links}, Walks t true m place xs (.present k .directory) →
    m ≤ links → walk t links place (xs ++ ys) = walk t (links - m) k ys := by
  induction m with
  | zero =>
    intro place xs links hw _
    cases hw with
    | place hs => exact walk_congr (scan_of_scans hs) links
  | succ m ih =>
    intro place xs links hw hlinks
    obtain ⟨links, rfl⟩ : ∃ l, links = l + 1 := ⟨links - 1, by omega⟩
    cases hw with
    | link hs hw =>
      rename_i base target rest
      -- a separator at the end of a target is a dot more, which counts for nothing
      have hsame : stepsOf (walkNames target.toList ++ rest) = stepsOf (walk.namesOf target.toList ++ rest) := by
        rw [stepsOf_append, stepsOf_append, stepsOf_walkNames]
        rfl
      rw [walk, scan_of_scans_link hs]
      dsimp only
      rw [← List.append_assoc, ih (hw.of_steps hsame) (by omega), Nat.add_sub_add_right]

theorem walk_of_scan {names : List String} (hs : scan t place names = some (.place key)) (links : Nat) :
    walk t links place names = some key := by
  cases links with
  | zero => rw [walk, hs]
  | succ links => rw [walk, hs]

theorem walk_mono {links : Nat} : ∀ {place names links'},
    walk t links place names = some key → links ≤ links' → walk t links' place names = some key := by
  induction links with
  | zero =>
    intro place names links' h _
    rw [walk] at h
    cases hs : scan t place names with
    | none =>
      rw [hs] at h
      cases h
    | some s =>
      rw [hs] at h
      cases s with
      | place k => exact (walk_of_scan hs links').trans h
      | link base target rest => cases h
  | succ links ih =>
    intro place names links' h hle
    obtain ⟨links', rfl⟩ : ∃ l, links' = l + 1 := ⟨links' - 1, by omega⟩
    rw [walk] at h ⊢
    cases hs : scan t place names with
    | none =>
      rw [hs] at h
      cases h
    | some s =>
      rw [hs] at h
      cases s with
      | place k => exact h
      | link base target rest => exact ih h (by omega)

/-- A database that is found below a path that leads to a directory is found below the path of its key. -/
theorem find?_pathOf {r : Key × Option Body} (hl : Leads t cwd root home) (hk : t.Reached home) (hn : IsFileName n)
    (h : find? t cwd (root.child n) = some r) (cwd' : Key) : find? t cwd' (pathOf (home ++ [n])) = some r := by
  have hstep := isStep_of_isEntryName hn.entry
  have hsteps : ∀ m ∈ home ++ [n], IsStep m :=
    List.forall_mem_append.mpr ⟨hk.isStep, List.forall_mem_singleton.mpr hstep⟩
  have hfree : ZeroFree (pathOf (home ++ [n])).text := zeroFree_pathOf.mpr (List.forall_mem_append.mpr
    ⟨fun x hx => (hk.names x hx).zeroFree, List.forall_mem_singleton.mpr hn.zeroFree⟩)
  obtain ⟨m, hm, hw⟩ := hl
  have hlimit : m ≤ linkLimit := Nat.le_trans hm (by decide)
  unfold find? at h ⊢
  dsimp only at h ⊢
  split at h
  · cases h
  · rw [hfree]
    obtain ⟨key, hkey, h⟩ := Option.bind_eq_some_iff.mp h
    have hnames : walk.namesOf (root.child n).text.toList = pathNames root.text.toList ++ [n] :=
      pathNames_child root hstep
    rw [startOf_child _ _ hstep, hnames, walk_of_walks hw hlimit] at hkey
    have hnames' : walk.namesOf (pathOf (home ++ [n])).text.toList = home ++ [n] := pathNames_pathOf hsteps
    have hpath : walk t linkLimit (startOf cwd' (pathOf (home ++ [n])).text.toList)
        (walk.namesOf (pathOf (home ++ [n])).text.toList) = some key := by
      rw [startOf_pathOf, hnames', walk_congr (scan_of_scans (Reached.scans (k := []) hk)) linkLimit]
      exact walk_mono hkey (Nat.sub_le ..)
    rw [hpath]
    exact h

/-- A file in a directory that a path leads to is found by its name. -/
theorem find?_child {body : Body} {x : Bool} (hl : Leads t cwd root home) (hz : ZeroFree root.text) (hn : IsFileName n)
    (hg : t.get? (home ++ [n]) = some (.file body x)) : find? t cwd (root.child n) = some (home ++ [n], some body) := by
  have hstep := isStep_of_isEntryName hn.entry
  have hfree : ZeroFree (root.child n).text := (zeroFree_child hn.entry).mpr ⟨hz, hn.zeroFree⟩
  obtain ⟨m, hm, hw⟩ := hl
  have hscan : scan t home [n] = some (.place (home ++ [n])) := by
    rw [scan, if_neg hn.looksUp.notHere, if_neg hn.looksUp.notUp, if_neg (Nat.not_lt.mpr hn.size)]
    dsimp only
    rw [hg]
    rfl
  have hwalk : walk t linkLimit (startOf cwd (root.child n).text.toList)
      (walk.namesOf (root.child n).text.toList) = some (home ++ [n]) := by
    have hnames : walk.namesOf (root.child n).text.toList = pathNames root.text.toList ++ [n] :=
      pathNames_child root hstep
    rw [startOf_child _ _ hstep, hnames, walk_of_walks hw (Nat.le_trans hm (by decide))]
    exact walk_of_scan hscan _
  unfold find?
  dsimp only
  rw [hfree, hwalk]
  simp [hg]

/-! ## Opening again -/

theorem zeroFree_of_find? {r : Key × Option Body} (h : find? t cwd p = some r) : ZeroFree p.text := by
  unfold find? at h
  dsimp only at h
  split at h
  · cases h
  · next hz => simpa [ZeroFree] using hz

/-- A database that was opened is the one in its file. -/
theorem file_of_openAt {c : Connection} {h' : Host} (hm : isMemory p = false)
    (hr : Runs (openAt p).outcome h (.ok c) h') :
    ∃ key x, c.key = some key ∧ h'.files.get? key = some (.file (.database c.image) x) := by
  obtain ⟨raw, h1, hraw, hmigrate, hkey, rfl⟩ := runs_openAt_ok.mp hr
  rcases runs_openRaw_ok.mp hraw with ⟨he, -⟩ | ⟨key, body, db, -, hf, hi, rfl, rfl⟩
  · rw [hm] at he
    cases he
  obtain ⟨b, x, hg, hb⟩ : ∃ b x, (createFile key h.files).get? key = some (.file b x) ∧
      (b = .database db ∨ db = .fresh) := by
    rcases get?_of_find? hf with ⟨b, x, rfl, hg⟩ | ⟨rfl, hg⟩
    · refine ⟨b, x, by rw [createFile_of_some hg, hg], ?_⟩
      cases b with
      | database db' =>
        cases hi
        exact Or.inl rfl
      | bytes data =>
        cases data with
        | nil =>
          cases hi
          exact Or.inr rfl
        | cons byte rest => cases hi
    · cases hi
      exact ⟨_, _, get?_createFile hg, Or.inr rfl⟩
  by_cases hsame : c.image = db
  · refine ⟨key, x, hkey, ?_⟩
    rw [if_pos hsame]
    rcases hb with rfl | rfl
    · rw [hsame]
      exact hg
    · -- a fresh database is not up to date
      have hversion := Database.version_of_migrate hmigrate
      rw [hsame] at hversion
      exact absurd hversion (by decide)
  · refine ⟨key, x, hkey, ?_⟩
    rw [if_neg hsame]
    exact get?_writeImage hg

/-- Opening that compares versions where `openAt` compares databases, so that a run on a known host need not
compute what the rows hold. -/
def openByVersion (p : Path) : Attempt DatabaseError Connection := do
  let c ← (openRaw p).inWords .engine
  let db ← Attempt.ofOutcome (c.image.migrate)
  if db.version = c.image.version then return c else .ofAction (c.save db)

theorem openAt_eq_openByVersion : openAt = openByVersion := by
  funext p
  unfold openAt openByVersion
  congr 1
  funext c
  cases hm : c.image.migrate with
  | error e => rfl
  | ok db =>
    show (if db = c.image then _ else _) = (if db.version = c.image.version then _ else _)
    rw [if_congr (Database.eq_iff_of_migrate hm) rfl rfl]

/-- A database that is up to date is opened as it is. -/
theorem runs_openAt_again (hm : isMemory p = false) (hf : find? h.files h.cwd p = some (key, some (.database db)))
    (hd : db.migrate = .ok db) : Runs (openAt p).outcome h (.ok ⟨some key, db⟩) h :=
  runs_openAt_ok.mpr ⟨_, h, runs_openRaw_file hm hf rfl, hd, rfl, (if_pos rfl).symm⟩

end Connection

end CipherCorpus.Store
