import CipherCorpus.Proofs.FileTree.Canonical
import CipherCorpus.Proofs.Store.Connection

/-!
# The file of a database

`FileHolds key Q h` says that a database in the file at `key` satisfies `Q`.  Opening the file and changing
the database behind a connection keep such a property of databases, whatever comes of it, and change
nothing but the file (`openAt_keeps`, `update_keeps`, `transact_keeps`).
-/

namespace CipherCorpus.Store

open FileTree CipherCorpus.Path

variable {α : Type} {Q : Database → Prop} {key : Key} {h h' : Host} {p : Path} {c : Connection}
  {db : Database}

/-- A database in the file at `key` satisfies `Q`. -/
def FileHolds (key : Key) (Q : Database → Prop) (h : Host) : Prop :=
  ∀ db x, h.files.get? key = some (.file (.database db) x) → Q db

theorem FileHolds.of_changes {S : Key → Prop} (hQ : FileHolds key Q h) (hc : ChangesFiles S h h')
    (hk : ¬ S key) : FileHolds key Q h' := by
  intro db x hg
  rcases hc.files.frame key hk with e | ⟨-, e⟩
  · exact hQ db x (e ▸ hg)
  · rw [e] at hg
    cases hg

namespace Connection

/-! ## The key of a database path -/

theorem isMemory_pathOf (k : Key) : isMemory (pathOf k) = false := by
  unfold isMemory
  rw [Bool.or_eq_false_iff, beq_eq_false_iff_ne, beq_eq_false_iff_ne]
  exact ⟨text_ne_of_startOf (startOf_pathOf · k) rfl, text_ne_of_startOf (startOf_pathOf · k) rfl⟩

/-- On a way without links a scan stops at its names. -/
theorem scan_of_clear {t : FileTree} {place names : List String} {s : Stop}
    (hn : ∀ n ∈ names, IsEntryName n.toList)
    (hc : ∀ j target, j <+: place ++ names → t.get? j ≠ some (.link target))
    (h : scan t place names = some s) : s = .place (place ++ names) := by
  induction names generalizing place with
  | nil =>
    cases h
    rw [List.append_nil]
  | cons name rest ih =>
    obtain ⟨-, -, h1, h2⟩ := hn name List.mem_cons_self
    have hkey : place ++ name :: rest = place ++ [name] ++ rest := by simp
    rw [scan, if_neg fun e => h1 (by rw [e]; rfl), if_neg fun e => h2 (by rw [e]; rfl)] at h
    split at h
    · cases h
    · dsimp only at h
      rw [hkey] at hc ⊢
      split at h
      · next target hg => exact absurd hg (hc _ target (List.prefix_append _ _))
      · split at h
        · next hr =>
          cases h
          rw [hr, List.append_nil]
        · cases h
      · exact ih (fun n hm => hn n (List.mem_cons_of_mem _ hm)) hc h

/-- On a way without links a database is found at the names of its path. -/
theorem key_of_find? {t : FileTree} {cwd k : Key} {body : Option Body}
    (hstart : startOf cwd p.text.toList = []) (hnames : pathNames p.text.toList = key)
    (hn : ∀ n ∈ key, IsEntryName n.toList) (hc : t.ClearTo key)
    (h : find? t cwd p = some (k, body)) : k = key := by
  unfold find? at h
  dsimp only at h
  split at h
  · cases h
  · obtain ⟨k', hk, h⟩ := Option.bind_eq_some_iff.mp h
    have hstop : ∀ {s : Stop}, scan t [] key = some s → s = .place key := scan_of_clear hn hc
    have hwalk : k' = key := by
      rw [hstart, show walk.namesOf p.text.toList = key from hnames] at hk
      unfold linkLimit walk at hk
      split at hk
      · cases hk
      · next hs =>
        cases hk
        cases hstop hs
        rfl
      · next hs => cases hstop hs
    split at h <;> cases h <;> exact hwalk

/-! ## Changes behind a connection -/

theorem load_of_fileHolds (hk : c.key = some key) (hQ : FileHolds key Q h) (hc : Q c.image) :
    Q (c.load h) := by
  unfold load
  rw [hk, Option.bind_some]
  split
  · next hg => exact hQ _ _ hg
  · exact hc

theorem changes_written (hk : c.key = some key) : ChangesFiles (· = key) h (c.written db h) := by
  unfold written
  rw [hk]
  refine ⟨rfl, ?_⟩
  dsimp only
  unfold writeImage
  split
  · next hg =>
    refine changesOnly_put (fun e => ?_) nofun (fun target hl => ?_) fun hn => ?_
    · rw [e] at hg
      cases hg
    · rw [hg] at hl
      cases hl
    · rw [hg] at hn
      cases hn
  · exact .refl _ _

theorem fileHolds_written (hk : c.key = some key) (hdb : Q db) : FileHolds key Q (c.written db h) := by
  unfold written
  rw [hk]
  intro db' x hg
  dsimp only at hg
  unfold writeImage at hg
  split at hg
  · next hf =>
    rw [get?_put_self _ _ (ne_nil_of_get? hf (by simp))] at hg
    cases hg
    exact hdb
  · next hf => exact absurd hg (hf _ x)

/-- A change of the database keeps what every step of it keeps. -/
theorem update_keeps {f : Database → Except Fault (α × Database)} (hk : c.key = some key)
    (hQ : FileHolds key Q h) (hc : Q c.image)
    (hf : ∀ db x db', Q db → f db = .ok (x, db') → Q db') {r : Except DatabaseError (α × Connection)}
    (hr : Runs (c.update f).outcome h r h') : FileHolds key Q h' ∧ ChangesFiles (· = key) h h' ∧
      ∀ x c', r = .ok (x, c') → c'.key = some key ∧ Q c'.image := by
  rcases runs_update.mp hr with ⟨x, db, he, rfl, rfl⟩ | ⟨fault, -, rfl, rfl⟩
  · have hdb := hf _ _ _ (load_of_fileHolds hk hQ hc) he
    refine ⟨fileHolds_written hk hdb, changes_written hk, fun x c' he => ?_⟩
    cases he
    exact ⟨hk, hdb⟩
  · exact ⟨hQ, .refl _ _, nofun⟩

/-- A transaction keeps what it keeps when it goes through. -/
theorem transact_keeps {f : Database → Except Fault Nat × Database} (hk : c.key = some key)
    (hQ : FileHolds key Q h) (hc : Q c.image) (hf : ∀ db n db', Q db → f db = (.ok n, db') → Q db')
    {r : Except DatabaseError (Nat × Connection)} (hr : Runs (c.transact f).outcome h r h') :
    FileHolds key Q h' ∧ ChangesFiles (· = key) h h' := by
  unfold transact at hr
  obtain ⟨hQ', hchange, -⟩ := update_keeps hk hQ hc (fun db n db' hdb he => by
    split at he
    · next hok =>
      cases he
      exact hf db n _ hdb hok
    · cases he) hr
  exact ⟨hQ', hchange⟩

/-! ## Opening the file -/

theorem openRaw_cases {r : Except Fault Connection} (hm : isMemory p = false)
    (hr : Runs (openRaw p).outcome h r h') : h' = h ∨
      ∃ k body, find? h.files h.cwd p = some (k, body) ∧
        h' = { h with files := createFile k h.files } := by
  unfold openRaw at hr
  rw [if_neg (by rw [hm]; decide), Attempt.runs_get_bind] at hr
  cases hf : find? h.files h.cwd p with
  | none =>
    rw [hf] at hr
    exact Or.inl (runs_pure.mp hr).2
  | some found =>
    obtain ⟨k, body⟩ := found
    rw [hf] at hr
    refine Or.inr ⟨k, body, rfl, ?_⟩
    rcases Attempt.runs_bind.mp hr with ⟨u, h1, hset, hrest⟩ | ⟨e, hset, -⟩
    · obtain ⟨-, rfl⟩ := Attempt.runs_set.mp hset
      split at hrest
      · exact (runs_pure.mp hrest).2
      · exact (runs_pure.mp hrest).2
    · cases (Attempt.runs_set.mp hset).1

theorem changes_createFile {d : Key} {n : String} (hn : IsEntryName n.toList) :
    ChangesFiles (· = d ++ [n]) h { h with files := createFile (d ++ [n]) h.files } := by
  refine ⟨rfl, ?_⟩
  dsimp only
  unfold createFile
  split
  · next hg =>
    refine changesOnly_put (by simp) nofun (fun target hl => ?_) fun _ => ⟨d, n, rfl, hn⟩
    rw [hg] at hl
    cases hl
  · exact .refl _ _

theorem fileHolds_createFile (hQ : FileHolds key Q h) :
    FileHolds key Q { h with files := createFile key h.files } := by
  intro db x hg
  cases he : h.files.get? key with
  | none =>
    rw [get?_createFile he] at hg
    cases hg
  | some e =>
    rw [createFile_of_some he] at hg
    exact hQ db x hg

/-- The place of a database, on a way without links. -/
structure At (p : Path) (d : Key) (n : String) (h : Host) : Prop where
  start : startOf h.cwd p.text.toList = []
  names : pathNames p.text.toList = d ++ [n]
  entries : ∀ m ∈ d ++ [n], IsEntryName m.toList
  clear : h.files.ClearTo (d ++ [n])
  named : isMemory p = false

theorem openRaw_keeps {d : Key} {n : String} (hp : At p d n h) (hQ : FileHolds (d ++ [n]) Q h)
    {r : Except Fault Connection} (hr : Runs (openRaw p).outcome h r h') :
    FileHolds (d ++ [n]) Q h' ∧ ChangesFiles (· = d ++ [n]) h h' := by
  rcases openRaw_cases hp.named hr with rfl | ⟨k, body, hf, rfl⟩
  · exact ⟨hQ, .refl _ _⟩
  · obtain rfl := key_of_find? hp.start hp.names hp.entries hp.clear hf
    exact ⟨fileHolds_createFile hQ, changes_createFile (hp.entries n (by simp))⟩

/-- A database that is opened is the one of its file, or a fresh one. -/
theorem holds_of_openRaw {d : Key} {n : String} (hp : At p d n h) (hfresh : Q .fresh)
    (hQ : FileHolds (d ++ [n]) Q h) (hr : Runs (openRaw p).outcome h (.ok c) h') :
    c.key = some (d ++ [n]) ∧ Q c.image := by
  rcases runs_openRaw_ok.mp hr with ⟨hm, -⟩ | ⟨k, body, db, -, hf, hi, rfl, -⟩
  · rw [hp.named] at hm
    cases hm
  · obtain rfl := key_of_find? hp.start hp.names hp.entries hp.clear hf
    refine ⟨rfl, ?_⟩
    rcases get?_of_find? hf with ⟨b, x, rfl, hg⟩ | ⟨rfl, -⟩
    · cases b with
      | database db' =>
        cases hi
        exact hQ _ _ hg
      | bytes data =>
        cases data with
        | nil =>
          cases hi
          exact hfresh
        | cons byte rest => cases hi
    · cases hi
      exact hfresh

/-- **Opening a database keeps what a fresh one has and a migration keeps.** -/
theorem openAt_keeps {d : Key} {n : String} (hp : At p d n h) (hfresh : Q .fresh)
    (hmigrate : ∀ db db', Q db → db.migrate = .ok db' → Q db') (hQ : FileHolds (d ++ [n]) Q h)
    {r : Except DatabaseError Connection} (hr : Runs (openAt p).outcome h r h') :
    FileHolds (d ++ [n]) Q h' ∧ ChangesFiles (· = d ++ [n]) h h' ∧
      ∀ c, r = .ok c → c.key = some (d ++ [n]) ∧ Q c.image := by
  unfold openAt at hr
  rcases Attempt.runs_inWords_bind.mp hr with ⟨raw, h1, hraw, hrest⟩ | ⟨e, hraw, rfl⟩
  · obtain ⟨hQ1, hc1⟩ := openRaw_keeps hp hQ hraw
    obtain ⟨hk, hi⟩ := holds_of_openRaw hp hfresh hQ hraw
    rcases Attempt.runs_bind.mp hrest with ⟨db, h2, hm, hsave⟩ | ⟨e, hm, rfl⟩
    · rw [Attempt.outcome_ofOutcome, runs_pure] at hm
      obtain ⟨hm, rfl⟩ := hm
      have hdb := hmigrate _ _ hi hm.symm
      split at hsave
      · obtain ⟨rfl, rfl⟩ := runs_pure.mp hsave
        exact ⟨hQ1, hc1, fun c he => by cases he; exact ⟨hk, hi⟩⟩
      · obtain ⟨c1, hs, rfl⟩ := Attempt.runs_ofAction.mp hsave
        obtain ⟨rfl, rfl⟩ := runs_save.mp hs
        exact ⟨fileHolds_written hk hdb, hc1.trans (changes_written hk),
          fun c he => by cases he; exact ⟨hk, hdb⟩⟩
    · rw [Attempt.outcome_ofOutcome, runs_pure] at hm
      obtain ⟨-, rfl⟩ := hm
      exact ⟨hQ1, hc1, nofun⟩
  · obtain ⟨hQ1, hc1⟩ := openRaw_keeps hp hQ hraw
    exact ⟨hQ1, hc1, nofun⟩

end Connection

end CipherCorpus.Store
