import CipherCorpus.Proofs.FileTree.Walk
import CipherCorpus.Proofs.Host
import CipherCorpus.Store.Connection

/-!
# Runs on an open database

A query leaves the host as it is.  A change writes the new image behind the connection, where it is
found again (`load_written`), and a change that fails leaves the host as it is (`runs_update`).
-/

namespace CipherCorpus.Store.Connection

open FileTree (LooksUp pathNames startOf)

variable {α : Type} {c c' : Connection} {db : Database} {h h' h'' : Host} {key : Key} {p : Path}

/-! ## Images behind a connection -/

/-- The host with an image written behind the connection. -/
def written (c : Connection) (db : Database) (h : Host) : Host :=
  match c.key with
  | some key => { h with files := writeImage key db h.files }
  | none => h

theorem runs_save {r : Connection} :
    Runs (c.save db) h r h' ↔ r = { c with image := db } ∧ h' = c.written db h := by
  unfold save written
  cases c.key with
  | some key =>
    dsimp only
    rw [runs_bind]
    simp only [runs_modify, runs_pure]
    constructor
    · rintro ⟨u, h1, rfl, rfl, rfl⟩
      exact ⟨rfl, rfl⟩
    · rintro ⟨rfl, rfl⟩
      exact ⟨(), _, rfl, rfl, rfl⟩
  | none =>
    exact runs_pure

theorem get?_writeImage {t : FileTree} {body : Body} {executable : Bool}
    (h : t.get? key = some (.file body executable)) :
    (writeImage key db t).get? key = some (.file (.database db) executable) := by
  unfold writeImage
  rw [h]
  refine FileTree.get?_put_self _ _ fun hk => ?_
  rw [hk] at h
  cases h

theorem load_eq {executable : Bool} (hc : c.key = some key)
    (h : h'.files.get? key = some (.file (.database db) executable)) : c.load h' = db := by
  unfold load
  rw [hc, Option.bind_some, h]

/-- What is written behind a connection is found there. -/
theorem load_written : ({ c with image := db } : Connection).load (c.written db h) = db := by
  unfold load written
  cases hc : c.key with
  | none => rfl
  | some key =>
    dsimp only
    rw [Option.bind_some]
    cases hg : h.files.get? key with
    | none =>
      unfold writeImage
      rw [hg]
      dsimp only
      rw [hg]
    | some e =>
      cases e with
      | file body executable => rw [get?_writeImage hg]
      | directory =>
        unfold writeImage
        rw [hg]
        dsimp only
        rw [hg]
      | link target =>
        unfold writeImage
        rw [hg]
        dsimp only
        rw [hg]

/-! ## Queries and changes -/

theorem runs_query {f : Database → Except Fault α} {r : Except DatabaseError α} :
    Runs (c.query f).outcome h r h' ↔ r = (f (c.load h)).mapError .engine ∧ h' = h := by
  unfold query
  rw [Attempt.runs_get_bind, Attempt.runs_inWords, Attempt.outcome_ofOutcome]
  simp only [runs_pure]
  constructor
  · rintro ⟨y, ⟨rfl, rfl⟩, rfl⟩
    exact ⟨rfl, rfl⟩
  · rintro ⟨rfl, rfl⟩
    exact ⟨_, ⟨rfl, rfl⟩, rfl⟩

theorem runs_update {f : Database → Except Fault (α × Database)}
    {r : Except DatabaseError (α × Connection)} : Runs (c.update f).outcome h r h' ↔
      (∃ x db, f (c.load h) = .ok (x, db) ∧ r = .ok (x, { c with image := db }) ∧
        h' = c.written db h) ∨
      ∃ fault, f (c.load h) = .error fault ∧ r = .error (.engine fault) ∧ h' = h := by
  unfold update
  rw [Attempt.runs_get_bind]
  cases hf : f (c.load h) with
  | error fault =>
    dsimp only
    rw [Attempt.outcome_throw, runs_pure]
    constructor
    · rintro ⟨rfl, rfl⟩
      exact Or.inr ⟨fault, rfl, rfl, rfl⟩
    · rintro (⟨x, db, he, -⟩ | ⟨fault', he, rfl, rfl⟩)
      · cases he
      · cases he
        exact ⟨rfl, rfl⟩
  | ok y =>
    obtain ⟨x, db⟩ := y
    dsimp only
    rw [Attempt.runs_ofAction_bind]
    simp only [runs_save, Attempt.outcome_pure, runs_pure]
    constructor
    · rintro ⟨c1, h1, ⟨rfl, rfl⟩, rfl, rfl⟩
      exact Or.inl ⟨x, db, rfl, rfl, rfl⟩
    · rintro (⟨x', db', he, rfl, rfl⟩ | ⟨fault, he, -⟩)
      · cases he
        exact ⟨_, _, ⟨rfl, rfl⟩, rfl, rfl⟩
      · cases he

/-- A transaction that goes through stores its result. -/
theorem runs_transact_ok {f : Database → Except Fault Nat × Database} {n : Nat} :
    Runs (c.transact f).outcome h (.ok (n, c')) h' ↔
      ∃ db, f (c.load h) = (.ok n, db) ∧ c' = { c with image := db } ∧ h' = c.written db h := by
  unfold transact
  rw [runs_update]
  cases hf : f (c.load h) with
  | mk answer db =>
    cases answer with
    | error fault =>
      constructor
      · rintro (⟨x, db', he, -⟩ | ⟨fault', -, he, -⟩)
        · cases he
        · cases he
      · rintro ⟨db', he, -⟩
        cases he
    | ok m =>
      constructor
      · rintro (⟨x, db', he, hr, rfl⟩ | ⟨fault', -, he, -⟩)
        · cases he
          cases hr
          exact ⟨db, rfl, rfl, rfl⟩
        · cases he
      · rintro ⟨db', he, rfl, rfl⟩
        cases he
        exact Or.inl ⟨n, db, rfl, rfl, rfl⟩

/-! ## Opening a file -/

/-- A key is walked to by its names when no link and no file is in the way. -/
theorem scan_names {t : FileTree} {place names : List String} (hn : ∀ n ∈ names, LooksUp n)
    (hlink : ∀ j target, j <+: place ++ names → t.get? j ≠ some (.link target))
    (hfile : ∀ j body x, j <+: place ++ names → j ≠ place ++ names →
      t.get? j ≠ some (.file body x)) :
    scan t place names = some (.place (place ++ names)) := by
  induction names generalizing place with
  | nil => rw [List.append_nil]; rfl
  | cons name rest ih =>
    have hx := hn name List.mem_cons_self
    have hkey : place ++ name :: rest = place ++ [name] ++ rest := by simp
    have hprefix : place ++ [name] <+: place ++ name :: rest := hkey ▸ List.prefix_append _ _
    rw [scan, if_neg hx.notHere, if_neg hx.notUp, if_neg (Nat.not_lt.mpr hx.size)]
    dsimp only
    split
    · next target hg => exact absurd hg (hlink _ target hprefix)
    · next body x hg =>
      by_cases hr : rest = []
      · rw [if_pos hr, hr]
      · refine absurd hg (hfile _ body x hprefix fun he => hr ?_)
        rw [hkey] at he
        exact List.append_right_eq_self.mp he.symm
    · rw [hkey]
      rw [hkey] at hlink hfile
      exact ih (fun n hm => hn n (List.mem_cons_of_mem _ hm)) hlink hfile

/-- The place of a database whose path holds the names of a key and nothing else. -/
theorem find?_of_names (key : Key) {t : FileTree} {cwd : Key} (hz : p.text.toList.any (·.toNat == 0) = false)
    (hstart : startOf cwd p.text.toList = []) (hnames : pathNames p.text.toList = key)
    (hn : ∀ n ∈ key, LooksUp n) (hlink : t.ClearTo key)
    (hfile : ∀ j body x, j <+: key → j ≠ key → t.get? j ≠ some (.file body x)) :
    find? t cwd p = match t.get? key, t.get? key.dropLast with
      | some (.file body _), _ => some (key, some body)
      | none, some .directory => some (key, none)
      | _, _ => none := by
  have hwalk : walk t linkLimit (startOf cwd p.text.toList) (walk.namesOf p.text.toList) =
      some key := by
    have hscan : scan t [] key = some (.place key) := scan_names hn hlink hfile
    rw [hstart, show walk.namesOf p.text.toList = key from hnames]
    unfold linkLimit walk
    rw [hscan]
  unfold find?
  simp only [hz, hwalk]
  rfl

/-- A database is found as a file, or where nothing is. -/
theorem get?_of_find? {t : FileTree} {cwd : Key} {body : Option Body}
    (h : find? t cwd p = some (key, body)) :
    (∃ b x, body = some b ∧ t.get? key = some (.file b x)) ∨ (body = none ∧ t.get? key = none) := by
  unfold find? at h
  dsimp only at h
  split at h
  · cases h
  · obtain ⟨k, hk, h⟩ := Option.bind_eq_some_iff.mp h
    split at h
    · next b x hg =>
      cases h
      exact Or.inl ⟨b, x, rfl, hg⟩
    · next hg hd =>
      cases h
      exact Or.inr ⟨rfl, hg⟩
    · cases h

theorem get?_createFile {t : FileTree} (h : t.get? key = none) :
    (createFile key t).get? key = some (.file (.bytes []) false) := by
  unfold createFile
  rw [h]
  refine FileTree.get?_put_self _ _ fun hk => ?_
  rw [hk] at h
  cases h

theorem createFile_of_some {t : FileTree} {e : Entry} (h : t.get? key = some e) :
    createFile key t = t := by
  unfold createFile
  rw [h]

/-- A new database, or the one in a file, which is created when nothing is there. -/
theorem runs_openRaw_ok : Runs (openRaw p).outcome h (.ok c) h' ↔
    (isMemory p = true ∧ c = ⟨none, .fresh⟩ ∧ h' = h) ∨
    ∃ key body db, isMemory p = false ∧ find? h.files h.cwd p = some (key, body) ∧
      imageOf body = .ok db ∧ c = ⟨some key, db⟩ ∧
      h' = { h with files := createFile key h.files } := by
  unfold openRaw
  cases hm : isMemory p with
  | true =>
    rw [if_pos rfl, Attempt.outcome_pure, runs_pure]
    constructor
    · rintro ⟨he, rfl⟩
      cases he
      exact Or.inl ⟨rfl, rfl, rfl⟩
    · rintro (⟨-, rfl, rfl⟩ | ⟨key, body, db, he, -⟩)
      · exact ⟨rfl, rfl⟩
      · cases he
  | false =>
    rw [if_neg (by decide), Attempt.runs_get_bind]
    cases hf : find? h.files h.cwd p with
    | none =>
      dsimp only
      rw [Attempt.outcome_throw, runs_pure]
      constructor
      · rintro ⟨he, -⟩
        cases he
      · rintro (⟨he, -⟩ | ⟨key, body, db, -, he, -⟩)
        · cases he
        · cases he
    | some found =>
      obtain ⟨key, body⟩ := found
      dsimp only
      rw [Attempt.runs_bind]
      simp only [Attempt.runs_set]
      cases hi : imageOf body with
      | error fault =>
        dsimp only
        rw [Attempt.outcome_throw]
        simp only [runs_pure]
        constructor
        · rintro (⟨a, h1, -, he, -⟩ | ⟨e, ⟨he, -⟩, -⟩)
          · cases he
          · cases he
        · rintro (⟨he, -⟩ | ⟨key', body', db, -, he, hi', -⟩)
          · cases he
          · cases he
            rw [hi] at hi'
            cases hi'
      | ok db =>
        dsimp only
        rw [Attempt.outcome_pure]
        simp only [runs_pure]
        constructor
        · rintro (⟨a, h1, ⟨-, rfl⟩, he, rfl⟩ | ⟨e, ⟨he, -⟩, -⟩)
          · cases he
            exact Or.inr ⟨key, body, db, trivial, rfl, hi, rfl, rfl⟩
          · cases he
        · rintro (⟨he, -⟩ | ⟨key', body', db', -, he, hi', rfl, rfl⟩)
          · cases he
          · cases he
            rw [hi] at hi'
            cases hi'
            exact Or.inl ⟨⟨⟩, _, ⟨trivial, rfl⟩, rfl, rfl⟩

/-- What was opened is brought up to date; the new image is stored when it differs. -/
theorem runs_openAt_ok : Runs (openAt p).outcome h (.ok c) h' ↔
    ∃ raw h1, Runs (openRaw p).outcome h (.ok raw) h1 ∧ raw.image.migrate = .ok c.image ∧
      c.key = raw.key ∧ h' = if c.image = raw.image then h1 else raw.written c.image h1 := by
  unfold openAt
  rw [Attempt.runs_inWords_bind]
  constructor
  · rintro (⟨raw, h1, hraw, hrest⟩ | ⟨e, -, he⟩)
    · refine ⟨raw, h1, hraw, ?_⟩
      rcases Attempt.runs_bind.mp hrest with ⟨db, h2, hm, hr⟩ | ⟨e, -, he⟩
      · rw [Attempt.outcome_ofOutcome, runs_pure] at hm
        obtain ⟨hm, rfl⟩ := hm
        by_cases hd : db = raw.image
        · rw [if_pos hd, Attempt.outcome_pure, runs_pure] at hr
          obtain ⟨he, rfl⟩ := hr
          cases he
          exact ⟨hd ▸ hm.symm, rfl, (if_pos rfl).symm⟩
        · rw [if_neg hd, Attempt.runs_ofAction] at hr
          obtain ⟨c1, hs, he⟩ := hr
          cases he
          obtain ⟨rfl, rfl⟩ := runs_save.mp hs
          exact ⟨hm.symm, rfl, (if_neg hd).symm⟩
      · cases he
    · cases he
  · rintro ⟨raw, h1, hraw, hm, hk, rfl⟩
    refine Or.inl ⟨raw, h1, hraw, Attempt.runs_bind.mpr (Or.inl ⟨c.image, h1, ?_, ?_⟩)⟩
    · rw [Attempt.outcome_ofOutcome, runs_pure]
      exact ⟨hm.symm, rfl⟩
    · have hc : c = { raw with image := c.image } := by
        rw [← hk]
      by_cases hd : c.image = raw.image
      · rw [if_pos hd, if_pos hd, Attempt.outcome_pure, runs_pure]
        refine ⟨congrArg Except.ok ?_, rfl⟩
        rw [hc, hd]
      · rw [if_neg hd, if_neg hd, Attempt.runs_ofAction]
        exact ⟨c, runs_save.mpr ⟨hc, rfl⟩, rfl⟩

end CipherCorpus.Store.Connection
