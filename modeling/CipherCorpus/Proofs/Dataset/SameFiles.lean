import CipherCorpus.Dataset.Open
import CipherCorpus.Proofs.Dataset.Labeling

/-!
# Hosts with the same files

Between two commands time passes, and what is on the host apart from its files changes.  Opening a dataset
does not notice (`seesFiles_openDatabase`), and neither does storing labels, also when they are read by
another reader that gives the same answers (`SymbolSource.Agrees.storeLabels`).
-/

namespace CipherCorpus

variable {ε ε' α β : Type} {h g h' g' : Host}

/-- Two hosts have the same files, working directory and environment. -/
structure Host.SameFiles (h g : Host) : Prop where
  files : g.files = h.files
  cwd : g.cwd = h.cwd
  environment : g.environment = h.environment

theorem Host.SameFiles.refl (h : Host) : h.SameFiles h := ⟨rfl, rfl, rfl⟩

theorem Host.SameFiles.symm (hs : h.SameFiles g) : g.SameFiles h :=
  ⟨hs.files.symm, hs.cwd.symm, hs.environment.symm⟩

theorem Host.SameFiles.with (hs : h.SameFiles g) (files : FileTree) :
    Host.SameFiles { h with files := files } { g with files := files } := ⟨rfl, hs.cwd, hs.environment⟩

theorem Host.SameFiles.read (hs : h.SameFiles g) (p : Path) : g.read p = h.read p := by
  unfold Host.read
  rw [hs.files, hs.cwd]

/-! ## Attempts that see the files alone -/

/-- On hosts with the same files the attempt ends in the same way and leaves the same files. -/
def Attempt.SeesFiles (x : Attempt ε α) : Prop := ∀ ⦃h g r h'⦄, h.SameFiles g → Runs x.outcome h r h' →
  ∃ g', Runs x.outcome g r g' ∧ h'.SameFiles g'

namespace Attempt.SeesFiles

theorem ofOutcome (x : Except ε α) : (ofOutcome x).SeesFiles := by
  intro h g r h' hs hr
  obtain ⟨rfl, rfl⟩ := runs_pure.mp hr
  exact ⟨g, runs_pure.mpr ⟨rfl, rfl⟩, hs⟩

theorem pure (a : α) : (pure a : Attempt ε α).SeesFiles := ofOutcome (.ok a)

theorem throw (e : ε) : (throw e : Attempt ε α).SeesFiles := ofOutcome (.error e)

theorem bind {x : Attempt ε α} {f : α → Attempt ε β} (hx : x.SeesFiles) (hf : ∀ a, (f a).SeesFiles) :
    (x >>= f).SeesFiles := by
  intro h g r h' hs hr
  rcases Attempt.runs_bind.mp hr with ⟨a, h1, ha, hr⟩ | ⟨e, he, rfl⟩
  · obtain ⟨g1, ha', hs1⟩ := hx hs ha
    obtain ⟨g', hr', hs'⟩ := hf a hs1 hr
    exact ⟨g', Attempt.runs_bind.mpr (Or.inl ⟨a, g1, ha', hr'⟩), hs'⟩
  · obtain ⟨g', he', hs'⟩ := hx hs he
    exact ⟨g', Attempt.runs_bind.mpr (Or.inr ⟨e, he', rfl⟩), hs'⟩

theorem inWords {x : Attempt ε α} (hx : x.SeesFiles) (w : ε → ε') : (x.inWords w).SeesFiles := by
  intro h g r h' hs hr
  obtain ⟨y, hy, rfl⟩ := Attempt.runs_inWords.mp hr
  obtain ⟨g', hy', hs'⟩ := hx hs hy
  exact ⟨g', Attempt.runs_inWords.mpr ⟨y, hy', rfl⟩, hs'⟩

theorem change (f : FileTree → Key → Except FileError FileTree) : (change f).SeesFiles := by
  intro h g r h' hs hr
  rcases Attempt.runs_change.mp hr with ⟨files, hf, rfl, rfl⟩ | ⟨e, hf, rfl, rfl⟩
  · exact ⟨_, Attempt.runs_change.mpr (Or.inl ⟨files, by rw [hs.files, hs.cwd, hf], rfl, rfl⟩), hs.with files⟩
  · exact ⟨g, Attempt.runs_change.mpr (Or.inr ⟨e, by rw [hs.files, hs.cwd, hf], rfl, rfl⟩), hs⟩

end Attempt.SeesFiles

open Attempt (SeesFiles)

namespace Store.Connection

theorem load_of_sameFiles (hs : h.SameFiles g) (c : Connection) : c.load g = c.load h := by
  unfold load
  rw [hs.files]

theorem sameFiles_written (hs : h.SameFiles g) (c : Connection) (db : Database) :
    (c.written db h).SameFiles (c.written db g) := by
  unfold written
  cases c.key with
  | some key =>
    dsimp only
    rw [hs.files]
    exact hs.with _
  | none => exact hs

theorem seesFiles_openRaw (p : Path) : (openRaw p).SeesFiles := by
  intro h g r h' hs hr
  unfold openRaw at hr ⊢
  by_cases hm : isMemory p = true
  · rw [if_pos hm] at hr ⊢
    exact SeesFiles.pure _ hs hr
  · rw [if_neg hm] at hr ⊢
    have hfind : find? g.files g.cwd p = find? h.files h.cwd p := by rw [hs.files, hs.cwd]
    simp only [Attempt.runs_get_bind] at hr ⊢
    rw [hfind, hs.files]
    cases hf : find? h.files h.cwd p with
    | none =>
      rw [hf] at hr
      exact SeesFiles.throw _ hs hr
    | some found =>
      obtain ⟨key, body⟩ := found
      rw [hf] at hr
      rcases Attempt.runs_bind.mp hr with ⟨u, h1, hset, hr⟩ | ⟨e, hset, -⟩
      · obtain ⟨-, rfl⟩ := Attempt.runs_set.mp hset
        cases hi : imageOf body with
        | ok db =>
          rw [hi] at hr
          obtain ⟨g', hr', hs'⟩ := SeesFiles.pure _ (hs.with _) hr
          exact ⟨g', Attempt.runs_bind.mpr (Or.inl ⟨u, _, Attempt.runs_set.mpr ⟨rfl, rfl⟩, by rwa [hi]⟩), hs'⟩
        | error fault =>
          rw [hi] at hr
          obtain ⟨g', hr', hs'⟩ := SeesFiles.throw _ (hs.with _) hr
          exact ⟨g', Attempt.runs_bind.mpr (Or.inl ⟨u, _, Attempt.runs_set.mpr ⟨rfl, rfl⟩, by rwa [hi]⟩), hs'⟩
      · cases (Attempt.runs_set.mp hset).1

theorem seesFiles_openAt (p : Path) : (openAt p).SeesFiles := by
  refine ((seesFiles_openRaw p).inWords _).bind fun c => (SeesFiles.ofOutcome _).bind fun db => ?_
  split
  · exact .pure _
  · intro h g r h' hs hr
    obtain ⟨c1, hsave, rfl⟩ := Attempt.runs_ofAction.mp hr
    obtain ⟨rfl, rfl⟩ := runs_save.mp hsave
    exact ⟨_, Attempt.runs_ofAction.mpr ⟨_, runs_save.mpr ⟨rfl, rfl⟩, rfl⟩, sameFiles_written hs c db⟩

theorem seesFiles_transact (c : Connection) (f : Database → Except Fault Nat × Database) :
    (c.transact f).SeesFiles := by
  intro h g r h' hs hr
  rcases runs_update.mp hr with ⟨n, db, hf, rfl, rfl⟩ | ⟨fault, hf, rfl, rfl⟩
  · exact ⟨_, runs_update.mpr (Or.inl ⟨n, db, by rw [load_of_sameFiles hs]; exact hf, rfl, rfl⟩),
      sameFiles_written hs c db⟩
  · exact ⟨g, runs_update.mpr (Or.inr ⟨fault, by rw [load_of_sameFiles hs]; exact hf, rfl, rfl⟩), hs⟩

end Store.Connection

theorem Dataset.seesFiles_openDatabase (l : Layout) : (openDatabase l).SeesFiles :=
  ((SeesFiles.change _).inWords _).bind fun _ => (Store.Connection.seesFiles_openAt _).inWords _

/-! ## Readers with the same answers -/

/-- On hosts with the same files the second reader gives the answers of the first one, and both leave the
same files. -/
def SymbolSource.Agrees (reader reader' : SymbolSource) : Prop := ∀ ⦃b h g answer h'⦄, h.SameFiles g →
  Runs (reader b) h answer h' → ∃ g', Runs (reader' b) g answer g' ∧ h'.SameFiles g'

namespace SymbolSource.Agrees

variable {reader reader' : SymbolSource}

theorem read_prologues (hs : h.SameFiles g) {b : Path} {fs : List FoundFunction}
    (hr : Runs (Prologue.read b) h fs h') : h' = h ∧ Runs (Prologue.read b) g fs g := by
  have hend := (Prologue.runs_read hr).1
  obtain ⟨data, h1, hi, hr⟩ := runs_bind.mp hr
  obtain ⟨rfl, rfl⟩ := runs_inspect.mp hi
  refine ⟨hend, runs_bind.mpr ⟨h1.read b, g, runs_inspect.mpr ⟨(hs.read b).symm, rfl⟩, ?_⟩⟩
  cases hd : h1.read b with
  | ok data =>
    rw [hd] at hr
    exact runs_pure.mpr ⟨(runs_pure.mp hr).1, rfl⟩
  | error e =>
    rw [hd] at hr
    exact runs_pure.mpr ⟨(runs_pure.mp hr).1, rfl⟩

theorem recoverFunctions (ha : reader.Agrees reader') (hs : h.SameFiles g) {b : Path} {fs : List FoundFunction}
    (hr : Runs (recoverFunctions reader b) h fs h') :
    ∃ g', Runs (CipherCorpus.recoverFunctions reader' b) g fs g' ∧ h'.SameFiles g' := by
  obtain ⟨symbols, h1, hread, hr⟩ := runs_bind.mp hr
  obtain ⟨g1, hread', hs1⟩ := ha hs hread
  match symbols with
  | some (f :: more) =>
    obtain ⟨rfl, rfl⟩ := runs_pure.mp hr
    exact ⟨g1, runs_bind.mpr ⟨_, g1, hread', runs_pure.mpr ⟨rfl, rfl⟩⟩, hs1⟩
  | some [] =>
    obtain ⟨rfl, hr'⟩ := read_prologues hs1 hr
    exact ⟨g1, runs_bind.mpr ⟨_, g1, hread', hr'⟩, hs1⟩
  | none =>
    obtain ⟨rfl, hr'⟩ := read_prologues hs1 hr
    exact ⟨g1, runs_bind.mpr ⟨_, g1, hread', hr'⟩, hs1⟩

theorem labelBinaries (ha : reader.Agrees reader') {l : Labeler} {bs : List Path} :
    ∀ {h g h' labeled}, h.SameFiles g → Runs (Dataset.labelBinaries reader l bs) h labeled h' →
      ∃ g', Runs (Dataset.labelBinaries reader' l bs) g labeled g' ∧ h'.SameFiles g' := by
  induction bs with
  | nil =>
    intro h g h' labeled hs hr
    obtain ⟨rfl, rfl⟩ := runs_pure.mp hr
    exact ⟨g, runs_pure.mpr ⟨rfl, rfl⟩, hs⟩
  | cons b rest ih =>
    intro h g h' labeled hs hr
    obtain ⟨fs, h1, hfirst, hr⟩ := runs_bind.mp hr
    obtain ⟨more, h2, hrest, hp⟩ := runs_bind.mp hr
    obtain ⟨rfl, rfl⟩ := runs_pure.mp hp
    obtain ⟨g1, hfirst', hs1⟩ := ha.recoverFunctions hs hfirst
    obtain ⟨g2, hrest', hs2⟩ := ih hs1 hrest
    exact ⟨g2, runs_bind.mpr ⟨fs, g1, hfirst', runs_bind.mpr ⟨more, g2, hrest', runs_pure.mpr ⟨rfl, rfl⟩⟩⟩, hs2⟩

/-- **Labels that are stored on one host are stored on another one with the same files.** -/
theorem storeLabels (ha : reader.Agrees reader') (hs : h.SameFiles g) {m : Manifest} {c : Store.Connection}
    {r : Except Store.DatabaseError (Nat × Store.Connection)}
    (hr : Runs (Dataset.storeLabels reader m c).outcome h r h') :
    ∃ g', Runs (Dataset.storeLabels reader' m c).outcome g r g' ∧ h'.SameFiles g' := by
  obtain ⟨labeled, h1, hlabels, hr⟩ := Attempt.runs_ofAction_bind.mp hr
  obtain ⟨g1, hlabels', hs1⟩ := ha.labelBinaries hs hlabels
  obtain ⟨g', hr', hs'⟩ := Store.Connection.seesFiles_transact c _ hs1 hr
  exact ⟨g', Attempt.runs_ofAction_bind.mpr ⟨labeled, g1, hlabels', hr'⟩, hs'⟩

end SymbolSource.Agrees

end CipherCorpus
