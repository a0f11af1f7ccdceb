import CipherCorpus.Store.Database
import Mathlib.Data.List.Pairwise

/-!
# Rows of the functions table

Inserting a list of functions leaves one row for every identity, the last one:

    insertFunctions new ⟨v, runs, some rows⟩ =
      (.ok new.length, ⟨v, runs, some (rows without the identities of new ++ latest rows of new)⟩)

(`insertFunctions_eq`), and replacing binaries first drops the rows of these binaries
(`replaceFunctions_eq`).  `latest key l` keeps the last element under each key.
-/

namespace CipherCorpus.Store

section Latest

variable {α β κ : Type} [DecidableEq κ] {key : α → κ}

/-- The last element under each key, in the order of the list. -/
def latest (key : α → κ) (l : List α) : List α := l.pwFilter fun a b => key a ≠ key b

@[simp] theorem latest_nil : latest key [] = [] := rfl

theorem mem_keys_latest {k : κ} {l : List α} : k ∈ (latest key l).map key ↔ k ∈ l.map key := by
  induction l with
  | nil => exact Iff.rfl
  | cons x rest ih =>
    unfold latest
    by_cases h : ∀ y ∈ rest.pwFilter fun a b => key a ≠ key b, key x ≠ key y
    · rw [List.pwFilter_cons_of_pos h]
      simp only [List.map_cons, List.mem_cons]
      exact or_congr Iff.rfl ih
    · rw [List.pwFilter_cons_of_neg h]
      refine ih.trans (Iff.symm ⟨fun hk => ?_, List.mem_cons_of_mem _⟩)
      rcases List.mem_cons.mp hk with rfl | hk
      · by_contra hn
        exact h fun y hy he => hn (ih.mp (he ▸ List.mem_map_of_mem hy))
      · exact hk

theorem latest_cons (x : α) (rest : List α) : latest key (x :: rest) =
    if key x ∈ rest.map key then latest key rest else x :: latest key rest := by
  have hmem : (∀ y ∈ latest key rest, key x ≠ key y) ↔ key x ∉ rest.map key := by
    rw [← mem_keys_latest, List.mem_map]
    exact ⟨fun h ⟨y, hy, he⟩ => h y hy he.symm, fun h y hy he => h ⟨y, hy, he.symm⟩⟩
  unfold latest at hmem ⊢
  split
  · next h => exact List.pwFilter_cons_of_neg fun hn => hmem.mp hn h
  · next h => exact List.pwFilter_cons_of_pos (hmem.mpr h)

theorem latest_sublist (l : List α) : (latest key l).Sublist l := List.pwFilter_sublist l

/-- No key is left twice. -/
theorem nodup_keys_latest (l : List α) : ((latest key l).map key).Nodup :=
  List.pairwise_map.mpr (List.pairwise_pwFilter l)

theorem latest_map (f : β → α) (l : List β) :
    latest key (l.map f) = (latest (key ∘ f) l).map f := List.pwFilter_map f l

theorem latest_congr {κ' : Type} [DecidableEq κ'] {key' : α → κ'} {l : List α}
    (h : ∀ a ∈ l, ∀ b ∈ l, key a = key b ↔ key' a = key' b) : latest key l = latest key' l := by
  induction l with
  | nil => rfl
  | cons x rest ih =>
    have hx : key x ∈ rest.map key ↔ key' x ∈ rest.map key' := by
      simp only [List.mem_map]
      exact exists_congr fun y => and_congr_right fun hy =>
        h y (List.mem_cons_of_mem _ hy) x List.mem_cons_self
    rw [latest_cons, latest_cons, ih fun a ha b hb =>
      h a (List.mem_cons_of_mem _ ha) b (List.mem_cons_of_mem _ hb)]
    simp only [hx]

/-- Whole keys are filtered before or after. -/
theorem filter_latest {p : α → Bool} (hp : ∀ a b, key a = key b → p a = p b) (l : List α) :
    (latest key l).filter p = latest key (l.filter p) := by
  induction l with
  | nil => rfl
  | cons x rest ih =>
    by_cases hx : p x = true
    · have hmem : key x ∈ (rest.filter p).map key ↔ key x ∈ rest.map key := by
        simp only [List.mem_map, List.mem_filter]
        refine ⟨fun ⟨y, hy, he⟩ => ⟨y, hy.1, he⟩, fun ⟨y, hy, he⟩ => ⟨y, ⟨hy, ?_⟩, he⟩⟩
        rw [hp y x he, hx]
      rw [List.filter_cons_of_pos hx, latest_cons, latest_cons]
      simp only [hmem]
      split
      · exact ih
      · rw [List.filter_cons_of_pos hx, ih]
    · rw [List.filter_cons_of_neg hx, latest_cons]
      split
      · exact ih
      · rw [List.filter_cons_of_neg hx, ih]

end Latest

section Keys

variable {α κ : Type} [BEq κ] [LawfulBEq κ]

theorem filter_notMem_nil (f : α → κ) (l : List α) : l.filter (f · ∉ ([] : List κ)) = l :=
  List.filter_eq_self.mpr fun _ _ => decide_eq_true List.not_mem_nil

theorem filter_notMem_cons (f : α → κ) (k : κ) (ks : List κ) (l : List α) :
    (l.filter (f · != k)).filter (f · ∉ ks) = l.filter (f · ∉ k :: ks) := by
  rw [List.filter_filter]
  refine List.filter_congr fun x _ => ?_
  rw [Bool.eq_iff_iff, Bool.and_eq_true, decide_eq_true_eq, decide_eq_true_eq, bne_iff_ne,
    List.mem_cons, not_or, and_comm]

end Keys

namespace Database

/-! ## Ids of runs -/

/-- A new id is above all ids before it. -/
theorem lt_of_nextRunId? {rows : List RunRow} {next : Int64} (h : nextRunId? rows = some next)
    (hs : (rows.map RunRow.id).Pairwise (· < ·)) : ∀ i ∈ rows.map RunRow.id, i < next := by
  unfold nextRunId? at h
  rcases List.eq_nil_or_concat rows with rfl | ⟨init, last, rfl⟩
  · nofun
  · rw [List.concat_eq_append, List.getLast?_concat] at h
    dsimp only at h
    split at h
    · next hlt =>
      cases h
      have hlast : last.id < last.id + 1 := by
        rw [Int64.lt_iff_toInt_lt] at hlt ⊢
        have hmax : Int64.maxValue.toInt = 2 ^ 63 - 1 := by decide
        have hmin := Int64.le_toInt last.id
        rw [Int64.toInt_add, Int.bmod_eq_of_le] <;> simp only [Int64.toInt_one] <;> omega
      intro i hi
      rw [List.concat_eq_append, List.map_append, List.pairwise_append] at hs
      rw [List.concat_eq_append, List.map_append, List.mem_append] at hi
      rcases hi with hi | hi
      · exact Int64.lt_trans (hs.2.2 i hi _ (List.mem_singleton_self _)) hlast
      · rw [List.mem_singleton.mp hi]
        exact hlast
    · cases h

/-! ## Insertion row by row -/

variable {rows : List FunctionRow} {db : Database}

/-- Rows put in one after the other: each new identity keeps its last row. -/
theorem foldl_replaceRow (rows new : List FunctionRow) : new.foldl replaceRow rows =
    rows.filter (·.identity ∉ new.map FunctionRow.identity) ++
      latest FunctionRow.identity new := by
  induction new generalizing rows with
  | nil =>
    rw [List.map_nil, filter_notMem_nil, latest_nil, List.append_nil]
    rfl
  | cons row rest ih =>
    have hkept : (replaceRow rows row).filter (·.identity ∉ rest.map FunctionRow.identity) =
        rows.filter (·.identity ∉ (row :: rest).map FunctionRow.identity) ++
          [row].filter (·.identity ∉ rest.map FunctionRow.identity) := by
      unfold replaceRow
      rw [List.filter_append, filter_notMem_cons, List.map_cons]
    rw [List.foldl_cons, ih, hkept, latest_cons, List.append_assoc]
    split
    · next h => rw [List.filter_cons_of_neg (by simpa using h), List.filter_nil, List.nil_append]
    · next h => rw [List.filter_cons_of_pos (by simpa using h)]; rfl

/-! ## Runs of statements -/

section Statements

variable {refused : Nat → Option Fault} {s : Statement} {first rest : List Statement} {i count : Nat}

theorem runStatements_refused {fault : Fault} (h : refused i = some fault) :
    runStatements refused i rows count (s :: rest) = .error fault := by
  simp only [runStatements, h]

theorem runStatements_next (h : refused i = none) :
    runStatements refused i rows count (s :: rest) =
      runStatements refused (i + 1) (s.apply rows).1 (count + (s.apply rows).2) rest := by
  simp only [runStatements, h]

theorem runStatements_append (second : List Statement) {n : Nat} {kept : List FunctionRow}
    (h : runStatements refused i rows count first = .ok (kept, n)) :
    runStatements refused i rows count (first ++ second) =
      runStatements refused (i + first.length) kept n second := by
  induction first generalizing i rows count with
  | nil =>
    cases h
    rfl
  | cons s rest ih =>
    cases hr : refused i with
    | some fault =>
      rw [runStatements_refused hr] at h
      cases h
    | none =>
      rw [runStatements_next hr] at h
      rw [List.cons_append, runStatements_next hr, ih h, List.length_cons, Nat.add_assoc,
        Nat.add_comm 1]

theorem runStatements_append_error {fault : Fault} (second : List Statement)
    (h : runStatements refused i rows count first = .error fault) :
    runStatements refused i rows count (first ++ second) = .error fault := by
  induction first generalizing i rows count with
  | nil => cases h
  | cons s rest ih =>
    rw [List.cons_append]
    cases hr : refused i with
    | some fault' =>
      rw [runStatements_refused hr] at h ⊢
      exact h
    | none =>
      rw [runStatements_next hr] at h ⊢
      exact ih h

/-- Statements may be counted from any number on. -/
theorem runStatements_shift (rest : List Statement) (k : Nat) :
    runStatements refused (i + k) rows count rest =
      runStatements (fun j => refused (j + k)) i rows count rest := by
  induction rest generalizing i rows count with
  | nil => rfl
  | cons s rest ih =>
    cases hr : refused (i + k) with
    | some fault => rw [runStatements_refused hr, runStatements_refused (by exact hr)]
    | none =>
      rw [runStatements_next hr, runStatements_next (by exact hr), ← ih, Nat.add_right_comm]

/-- One refused statement fails the run. -/
theorem exists_runStatements_error {j : Nat} (hj : j < rest.length) (hr : refused (i + j) ≠ none) :
    ∃ fault, runStatements refused i rows count rest = .error fault := by
  induction rest generalizing i rows count j with
  | nil => cases hj
  | cons s rest ih =>
    cases hi : refused i with
    | some fault => exact ⟨fault, runStatements_refused hi⟩
    | none =>
      rw [runStatements_next hi]
      cases j with
      | zero => exact absurd hi hr
      | succ j =>
        rw [Nat.add_comm j, ← Nat.add_assoc] at hr
        exact ih (Nat.lt_of_succ_lt_succ hj) hr

end Statements

/-! ## Statements that are not refused -/

theorem runStatements_deletes (paths : List Path) (i count : Nat) :
    runStatements noRefusal i rows count (paths.map fun b => .delete b.text) =
      .ok (rows.filter (·.binaryPath ∉ paths.map Path.text), count) := by
  induction paths generalizing i rows with
  | nil =>
    rw [List.map_nil, List.map_nil, filter_notMem_nil]
    rfl
  | cons b rest ih =>
    rw [List.map_cons, List.map_cons, ← filter_notMem_cons]
    exact ih _

theorem runStatements_inserts (new : List FunctionRow) (i count : Nat) :
    runStatements noRefusal i rows count (new.map .insert) =
      .ok (new.foldl replaceRow rows, count + new.length) := by
  induction new generalizing i rows count with
  | nil => rfl
  | cons row rest ih =>
    rw [List.length_cons, Nat.add_comm rest.length 1, ← Nat.add_assoc]
    exact ih _ _

theorem runStatements_insertStatements (rows : List FunctionRow) (functions : List LabeledFunction)
    (i count : Nat) :
    runStatements noRefusal i rows count (insertStatements functions) =
      .ok ((functions.map FunctionRow.ofLabeled).foldl replaceRow rows,
        count + functions.length) := by
  have hmap : functions.map (fun f => Statement.insert (.ofLabeled f)) =
      (functions.map FunctionRow.ofLabeled).map .insert := by
    rw [List.map_map]
    rfl
  unfold insertStatements
  rw [hmap]
  refine (runStatements_append _ (runStatements_inserts _ (i + 1) count)).trans ?_
  simp only [runStatements, noRefusal, Statement.apply, Nat.add_zero, List.length_map]

/-! ## Transactions -/

theorem transact_of_ok {refused : Nat → Option Fault} {statements : List Statement} {n : Nat}
    {kept : List FunctionRow} (h : db.functions = some rows)
    (hrun : runStatements refused 0 rows 0 statements = .ok (kept, n)) :
    db.transact refused statements = (.ok n, { db with functions := some kept }) := by
  unfold transact functionRows
  rw [h]
  dsimp only
  rw [hrun]

theorem transact_of_error {refused : Nat → Option Fault} {statements : List Statement}
    {fault : Fault} (h : db.functions = some rows)
    (hrun : runStatements refused 0 rows 0 statements = .error fault) :
    db.transact refused statements = (.error fault, db) := by
  unfold transact functionRows
  rw [h]
  dsimp only
  rw [hrun]

theorem transact_without_table {refused : Nat → Option Fault} (h : db.functions = none)
    (statements : List Statement) :
    db.transact refused statements = (.error (.noTable "labeled_functions"), db) := by
  unfold transact functionRows
  rw [h]

/-- A transaction one statement of which is refused leaves the database. -/
theorem exists_transact_error (db : Database) (refused : Nat → Option Fault)
    {statements : List Statement} {i : Nat}
    (hi : i < statements.length) (hr : refused i ≠ none) :
    ∃ fault, db.transact refused statements = (.error fault, db) := by
  cases hf : db.functions with
  | none => exact ⟨_, transact_without_table hf statements⟩
  | some rows =>
    rw [← Nat.zero_add i] at hr
    obtain ⟨fault, hrun⟩ : ∃ fault, runStatements refused 0 rows 0 statements = .error fault :=
      exists_runStatements_error hi hr
    exact ⟨fault, transact_of_error hf hrun⟩

/-- Functions are inserted one after the other. -/
theorem insertFunctions_eq (functions : List LabeledFunction) (h : db.functions = some rows) :
    db.insertFunctions functions = (.ok functions.length,
      { db with functions := some ((functions.map FunctionRow.ofLabeled).foldl replaceRow rows) }) := by
  have hrun := runStatements_insertStatements rows functions 0 0
  rw [Nat.zero_add] at hrun
  exact transact_of_ok h hrun

/-- The rows of the binaries go before functions are inserted one after the other. -/
theorem replaceFunctions_eq (binaries : List Path) (functions : List LabeledFunction)
    (h : db.functions = some rows) :
    let kept := rows.filter (·.binaryPath ∉ binaries.map Path.text)
    db.replaceFunctions binaries functions = (.ok functions.length,
      { db with functions := some ((functions.map FunctionRow.ofLabeled).foldl replaceRow kept) }) := by
  intro kept
  refine transact_of_ok h ((runStatements_append _ (runStatements_deletes binaries 0 0)).trans ?_)
  rw [runStatements_insertStatements, Nat.zero_add]

theorem dropBinary_eq (binary : Path) (h : db.functions = some rows) :
    db.dropBinary binary = .ok (rows.countP (·.binaryPath == binary.text),
      { db with functions := some (rows.filter (·.binaryPath != binary.text)) }) := by
  have hcount : rows.length - (rows.filter (·.binaryPath != binary.text)).length =
      rows.countP (·.binaryPath == binary.text) := by
    have hsplit := List.length_eq_countP_add_countP (·.binaryPath == binary.text) (l := rows)
    have hkept : (rows.filter (·.binaryPath != binary.text)).length =
        rows.countP fun r => ¬(r.binaryPath == binary.text) = true := by
      rw [← List.countP_eq_length_filter]
      exact List.countP_congr fun r _ => by simp
    omega
  unfold dropBinary functionRows
  rw [h, ← hcount]
  rfl

/-- A transaction needs the table of functions. -/
theorem functions_of_transact {refused : Nat → Option Fault} {statements : List Statement} {n : Nat}
    {db' : Database} (h : db.transact refused statements = (.ok n, db')) :
    ∃ rows, db.functions = some rows := by
  cases hf : db.functions with
  | some rows => exact ⟨rows, rfl⟩
  | none =>
    rw [transact_without_table hf] at h
    cases h

end Database

end CipherCorpus.Store
