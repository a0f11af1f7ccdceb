import CipherCorpus.Proofs.Store.Connection
import CipherCorpus.Proofs.Store.Rows
import CipherCorpus.Store.Session

/-!
# Calls that fail in between

A call on a session changes the working database of its own transaction and nothing else, until it
commits.  `Performs` says so of a part of a call and is closed under sequencing; with it

    perform (replaceFunctions refused binaries functions) (idle db)

is `Database.transact` on the statements of the call (`replaceFunctions_eq`), and a call one statement of
which is refused fails and leaves what is stored (`refused_call_stores_nothing`).
-/

namespace CipherCorpus.Store.Session

open Database (Statement runStatements)

variable {α β : Type} {refused : Nat → Option Refusal} {s s' : Session} {db : Database}
  {rows : List FunctionRow}

/-! ## Steps of a call -/

theorem perform_bind_ok {part : Call α} {f : α → Call β} {x : α}
    (h : perform part s = (.ok x, s')) : perform (part >>= f) s = perform (f x) s' := by
  unfold perform at h ⊢
  simp only [ExceptT.run_bind, StateT.run_bind, h]
  rfl

theorem perform_bind_error {part : Call α} {f : α → Call β} {fault : Fault}
    (h : perform part s = (.error fault, s')) : perform (part >>= f) s = (.error fault, s') := by
  unfold perform at h ⊢
  simp only [ExceptT.run_bind, StateT.run_bind, h]
  rfl

theorem perform_step (effect : Session → Except Fault (α × Session)) :
    perform (step refused effect) s = ending s.counted (effect s.counted) (refused s.ran) := rfl

/-- The faults of the statements that are refused. -/
def faults (refused : Nat → Option Refusal) : Nat → Option Fault := fun i =>
  (refused i).map Refusal.fault

/-- What one statement does in a transaction: it has its effect on the working database, or it is
refused.  In both cases what is stored stays. -/
theorem execute_cases (refused : Nat → Option Refusal) (hw : s.working = some db)
    (hf : db.functions = some rows) (statement : Statement) :
    (refused s.ran = none ∧ perform (execute refused statement) s =
      (.ok (statement.apply rows).2, { s with
        working := some { db with functions := some (statement.apply rows).1 }
        ran := s.ran + 1 })) ∨
    ∃ r s', refused s.ran = some r ∧ perform (execute refused statement) s = (.error r.fault, s') ∧
      s'.stored = s.stored := by
  obtain ⟨stored, working, ran⟩ := s
  subst hw
  unfold execute
  rw [perform_step]
  unfold Database.functionRows
  dsimp only [counted, seen, Option.getD_some]
  rw [hf]
  cases hr : refused ran with
  | none => exact Or.inl ⟨rfl, rfl⟩
  | some r => exact Or.inr ⟨r, _, rfl, rfl, rfl⟩

/-- Without the table every statement fails. -/
theorem execute_without_table (hf : s.seen.functions = none) (statement : Statement) :
    perform (execute refused statement) s = (.error (.noTable "labeled_functions"), s.counted) := by
  unfold execute
  rw [perform_step]
  have hseen : s.counted.seen.functionRows = .error (.noTable "labeled_functions") := by
    unfold Database.functionRows
    rw [show s.counted.seen = s.seen from rfl, hf]
  rw [hseen]
  rfl

/-! ## Parts of a call -/

/-- In a transaction a part of a call runs these statements: the working rows and the count are theirs,
or the part fails with their fault.  In both cases what is stored stays.  `start` is the count before
the part, `count` that with its answer. -/
def Performs (refused : Nat → Option Refusal) (start : Nat) (part : Call α) (count : α → Nat)
    (statements : List Statement) : Prop :=
  ∀ s db rows, s.working = some db → db.functions = some rows →
    (∃ kept x, runStatements (faults refused) s.ran rows start statements = .ok (kept, count x) ∧
      perform part s = (.ok x, { s with
        working := some { db with functions := some kept }
        ran := s.ran + statements.length })) ∨
    ∃ fault s', runStatements (faults refused) s.ran rows start statements = .error fault ∧
      perform part s = (.error fault, s') ∧ s'.stored = s.stored

theorem performs_execute {start : Nat} {statement : Statement} (count : Nat → Nat)
    (hcount : ∀ rows, count (statement.apply rows).2 = start + (statement.apply rows).2) :
    Performs refused start (execute refused statement) count [statement] := by
  intro s db rows hw hf
  rcases execute_cases refused hw hf statement with ⟨hr, he⟩ | ⟨r, s', hr, he, hs⟩
  · have hfault : faults refused s.ran = none := congrArg (Option.map Refusal.fault) hr
    refine Or.inl ⟨_, _, (Database.runStatements_next hfault).trans ?_, he⟩
    rw [hcount]
    rfl
  · have hfault : faults refused s.ran = some r.fault := congrArg (Option.map Refusal.fault) hr
    exact Or.inr ⟨_, s', Database.runStatements_refused hfault, he, hs⟩

theorem performs_pure (x : α) (count : α → Nat) :
    Performs refused (count x) (pure x) count [] := fun s db rows hw hf =>
  Or.inl ⟨rows, x, rfl, by
    obtain ⟨stored, working, ran⟩ := s
    obtain ⟨version, runs, functions⟩ := db
    cases hw
    cases hf
    rfl⟩

/-- Parts run one after the other. -/
theorem Performs.bind {start : Nat} {part : Call α} {next : α → Call β} {count : α → Nat}
    {count' : β → Nat} {first second : List Statement}
    (hp : Performs refused start part count first)
    (hn : ∀ x, Performs refused (count x) (next x) count' second) :
    Performs refused start (part >>= next) count' (first ++ second) := by
  intro s db rows hw hf
  rcases hp s db rows hw hf with ⟨kept, x, hrun, he⟩ | ⟨fault, s', hrun, he, hs⟩
  · rw [Database.runStatements_append second hrun, perform_bind_ok he, List.length_append, ← Nat.add_assoc]
    exact hn x ⟨s.stored, some { db with functions := some kept }, s.ran + first.length⟩
      { db with functions := some kept } kept rfl rfl
  · exact Or.inr ⟨fault, s', Database.runStatements_append_error second hrun,
      perform_bind_error he, hs⟩

theorem performs_deleteRows (binaries : List Path) (start : Nat) :
    Performs refused start (deleteRows refused binaries) (fun _ => start)
      (binaries.map fun b => .delete b.text) := by
  induction binaries with
  | nil => exact performs_pure () fun _ => start
  | cons b rest ih =>
    have hone : Performs refused start (do let _ ← execute refused (.delete b.text))
        (fun _ => start) ([.delete b.text] ++ []) :=
      (performs_execute (fun _ => start) fun _ => rfl).bind fun _ =>
        performs_pure () fun _ => start
    exact hone.bind fun _ => ih

theorem performs_insertRows (functions : List LabeledFunction) :
    Performs refused 0 (insertRows refused functions) id
      (.prepare :: functions.map fun f => .insert (.ofLabeled f)) := by
  have hinserts : ∀ written, Performs refused written
      (functions.foldlM (fun written f =>
        return written + (← execute refused (.insert (.ofLabeled f)))) written) id
      (functions.map fun f => .insert (.ofLabeled f)) := by
    induction functions with
    | nil => exact fun written => performs_pure written id
    | cons f rest ih =>
      intro written
      have hone : Performs refused written
          (do return written + (← execute refused (.insert (.ofLabeled f)))) id
          ([.insert (.ofLabeled f)] ++ []) :=
        (performs_execute (written + ·) fun _ => rfl).bind fun x =>
          performs_pure (written + x) id
      rw [List.foldlM_cons]
      exact hone.bind ih
  exact (performs_execute (fun _ => 0) fun _ => rfl).bind fun _ => hinserts 0

/-- Parts that come to nothing without the table. -/
def NeedsTable (part : Call α) : Prop := ∀ s : Session, s.seen.functions = none →
  ∃ s', perform part s = (.error (.noTable "labeled_functions"), s') ∧ s'.stored = s.stored

theorem needsTable_insertRows (functions : List LabeledFunction) :
    NeedsTable (insertRows refused functions) := fun s hf =>
  ⟨s.counted, perform_bind_error (execute_without_table hf .prepare), rfl⟩

theorem needsTable_replace (binaries : List Path) (functions : List LabeledFunction) :
    NeedsTable (do deleteRows refused binaries; insertRows refused functions) := by
  intro s hf
  cases binaries with
  | nil => exact needsTable_insertRows functions s hf
  | cons b rest =>
    exact ⟨s.counted, perform_bind_error (perform_bind_error (perform_bind_error
      (execute_without_table hf (.delete b.text)))), rfl⟩

/-! ## Whole calls -/

theorem commit_cases (refused : Nat → Option Refusal) (hw : s.working = some db) :
    (refused s.ran = none ∧ perform (commit refused) s = (.ok (), ⟨db, none, s.ran + 1⟩)) ∨
    ∃ r s', refused s.ran = some r ∧ perform (commit refused) s = (.error r.fault, s') ∧
      s'.stored = s.stored := by
  obtain ⟨stored, working, ran⟩ := s
  subst hw
  unfold commit
  rw [perform_step]
  dsimp only [counted]
  cases hr : refused ran with
  | none => exact Or.inl ⟨rfl, rfl⟩
  | some r => exact Or.inr ⟨r, _, rfl, rfl, rfl⟩

/-- A call whose transaction does not open. -/
theorem inTransaction_refused {part : Call α} {r : Refusal} (h : refused 0 = some r) :
    perform (inTransaction refused part) (idle db) = (.error r.fault, ⟨db, none, 1⟩) := by
  refine perform_bind_error ?_
  unfold begin
  rw [perform_step, show refused (idle db).ran = some r from h]
  rfl

theorem perform_dropping (call : Call α) : perform (dropping call) s =
    ((perform call s).1, { (perform call s).2 with working := none }) := rfl

/-- A call in a transaction is the transaction of its statements: both have the same answer and leave
the same database, and after the call no transaction is open. -/
theorem inTransaction_eq {part : Call Nat} {statements : List Statement}
    (hp : Performs refused 0 part id statements) (ht : NeedsTable part) (h : refused 0 = none) :
    ∃ ran, perform (inTransaction refused part) (idle db) =
      ((db.transact (fun i => faults refused (i + 1)) (statements ++ [.commit])).1,
        ⟨(db.transact (fun i => faults refused (i + 1)) (statements ++ [.commit])).2, none, ran⟩) := by
  have hbegin : perform (begin refused) (idle db) = (.ok (), ⟨db, some db, 1⟩) := by
    unfold begin
    rw [perform_step, show refused (idle db).ran = none from h]
    rfl
  -- what the transaction comes to when the body of the call ends so
  have hends : ∀ {answer : Except Fault Nat} {s' : Session},
      perform (do let x ← part; commit refused; return x) ⟨db, some db, 1⟩ = (answer, s') →
      db.transact (fun i => faults refused (i + 1)) (statements ++ [.commit]) =
        (answer, s'.stored) →
      ∃ ran, perform (inTransaction refused part) (idle db) =
        ((db.transact (fun i => faults refused (i + 1)) (statements ++ [.commit])).1,
          ⟨(db.transact (fun i => faults refused (i + 1)) (statements ++ [.commit])).2, none,
            ran⟩) := by
    intro answer s' hbody htransact
    refine ⟨s'.ran, ?_⟩
    unfold inTransaction
    rw [perform_bind_ok hbegin, perform_dropping, hbody, htransact]
  cases hf : db.functions with
  | none =>
    obtain ⟨s', he, hs⟩ := ht ⟨db, some db, 1⟩ hf
    exact hends (perform_bind_error he) (by rw [Database.transact_without_table hf, hs])
  | some rows =>
    rcases hp ⟨db, some db, 1⟩ db rows rfl hf with ⟨kept, n, hrun, he⟩ | ⟨fault, s', hrun, he, hs⟩
    · have hrun' := (Database.runStatements_shift statements 1).symm.trans hrun
      have happend := Database.runStatements_append [.commit] hrun'
      rw [Nat.zero_add] at happend
      rcases commit_cases refused (s := ⟨db, some { db with functions := some kept },
        1 + statements.length⟩) rfl with ⟨hr, hc⟩ | ⟨r, s', hr, hc, hs⟩
      · rw [Nat.add_comm] at hr
        have hfault : faults refused (statements.length + 1) = none :=
          congrArg (Option.map Refusal.fault) hr
        refine hends ((perform_bind_ok he).trans (perform_bind_ok hc)) ?_
        exact Database.transact_of_ok hf (happend.trans (Database.runStatements_next hfault))
      · rw [Nat.add_comm] at hr
        have hfault : faults refused (statements.length + 1) = some r.fault :=
          congrArg (Option.map Refusal.fault) hr
        refine hends ((perform_bind_ok he).trans (perform_bind_error hc)) ?_
        rw [hs]
        exact Database.transact_of_error hf (happend.trans (Database.runStatements_refused hfault))
    · have hrun' := (Database.runStatements_shift statements 1).symm.trans hrun
      refine hends (perform_bind_error he) ?_
      rw [Database.transact_of_error hf (Database.runStatements_append_error _ hrun'), hs]

theorem insertFunctions_eq (functions : List LabeledFunction) (h : refused 0 = none) :
    ∃ ran, perform (insertFunctions refused functions) (idle db) =
      ((db.transact (fun i => faults refused (i + 1)) (Database.insertStatements functions)).1,
        ⟨(db.transact (fun i => faults refused (i + 1)) (Database.insertStatements functions)).2,
          none, ran⟩) :=
  inTransaction_eq (performs_insertRows functions) (needsTable_insertRows functions) h

theorem replaceFunctions_eq (binaries : List Path) (functions : List LabeledFunction)
    (h : refused 0 = none) :
    ∃ ran, perform (replaceFunctions refused binaries functions) (idle db) =
      ((db.transact (fun i => faults refused (i + 1))
        (Database.replaceStatements binaries functions)).1,
        ⟨(db.transact (fun i => faults refused (i + 1))
          (Database.replaceStatements binaries functions)).2, none, ran⟩) := by
  unfold Database.replaceStatements Database.insertStatements
  rw [← List.append_assoc]
  exact inTransaction_eq ((performs_deleteRows binaries 0).bind fun _ =>
    performs_insertRows functions) (needsTable_replace binaries functions) h

theorem exists_error {call : Call Nat} {statements : List Statement}
    (hopen : ∀ r, refused 0 = some r → perform call (idle db) = (.error r.fault, ⟨db, none, 1⟩))
    (heq : refused 0 = none → ∃ ran, perform call (idle db) =
      ((db.transact (fun i => faults refused (i + 1)) statements).1,
        ⟨(db.transact (fun i => faults refused (i + 1)) statements).2, none, ran⟩))
    {i : Nat} (hi : i ≤ statements.length) (hr : refused i ≠ none) :
    ∃ fault ran, perform call (idle db) = (.error fault, ⟨db, none, ran⟩) := by
  cases h0 : refused 0 with
  | some r => exact ⟨r.fault, 1, hopen r h0⟩
  | none =>
    cases i with
    | zero => exact absurd h0 hr
    | succ i =>
      have hfault : faults refused (i + 1) ≠ none := fun he => hr (Option.map_eq_none_iff.mp he)
      obtain ⟨fault, htransact⟩ := Database.exists_transact_error db
        (fun i => faults refused (i + 1)) hi hfault
      obtain ⟨ran, he⟩ := heq h0
      rw [htransact] at he
      exact ⟨fault, ran, he⟩

/-- Whichever statement of a call is refused, the opening of its transaction, a deletion, the
preparation, an insertion or the commit, and whatever the engine leaves in the transaction then: the call
fails, what is stored is what was stored before, and no transaction is open. -/
theorem refused_call_stores_nothing (refused : Nat → Option Refusal) (db : Database)
    (binaries : List Path) (functions : List LabeledFunction) :
    (∀ i ≤ (Database.replaceStatements binaries functions).length, refused i ≠ none →
      ∃ fault ran, perform (replaceFunctions refused binaries functions) (idle db) =
        (.error fault, ⟨db, none, ran⟩)) ∧
    ∀ i ≤ (Database.insertStatements functions).length, refused i ≠ none →
      ∃ fault ran, perform (insertFunctions refused functions) (idle db) =
        (.error fault, ⟨db, none, ran⟩) := by
  constructor
  · intro i hi hr
    exact exists_error (fun r => inTransaction_refused) (replaceFunctions_eq binaries functions) hi hr
  · intro i hi hr
    exact exists_error (fun r => inTransaction_refused) (insertFunctions_eq functions) hi hr

/-- The disk is full at the insertion that follows a deletion, and the engine leaves the transaction
without tables: the deleted function is still stored. -/
theorem full_disk_keeps_deleted_rows :
    let stored : LabeledFunction := ⟨⟨⟨"/a"⟩, 0, none, "f", .symbol⟩, .unknown⟩
    let db : Database := ⟨2, some [], some [.ofLabeled stored]⟩
    let refused : Nat → Option Refusal := fun i => if i = 3 then some ⟨.full, some .fresh⟩ else none
    ∃ fault ran, perform (replaceFunctions refused [⟨"/a"⟩] [stored, stored]) (idle db) =
      (.error fault, ⟨db, none, ran⟩) := by
  intro stored db refused
  exact (refused_call_stores_nothing refused db [⟨"/a"⟩] [stored, stored]).1 3 (by decide) (by decide)

end CipherCorpus.Store.Session
