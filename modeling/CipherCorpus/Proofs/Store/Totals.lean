import CipherCorpus.Proofs.Store.History
import Mathlib.Data.List.Destutter
import Mathlib.Algebra.BigOperators.Group.Finset.Basic

/-!
# Totals and the listing

The totals are computed by queries of their own, a sum, two counts and a grouping, and still describe
the list of functions that the listing shows (`Totals`): for every database that insertions,
replacements and deletions lead to, whichever of their statements fail on the way
(`stats_describe_listing`).
-/

namespace CipherCorpus.Store

/-! ## Distinct texts in order -/

section Distinct

variable {α : Type} [LinearOrder α] {a x : α} {l : List α}

/-- Repetitions are erased as in `List.destutter`. -/
theorem loop_eq_destutter (a : α) (l acc : List α) :
    List.eraseRepsBy.loop (· == ·) a l acc = acc.reverse ++ l.destutter' (· ≠ ·) a := by
  induction l generalizing a acc with
  | nil =>
    rw [List.eraseRepsBy.loop, List.destutter'_nil, List.reverse_cons]
  | cons b rest ih =>
    rw [List.eraseRepsBy.loop, List.destutter'_cons]
    by_cases h : a = b
    · subst h
      simp only [beq_self_eq_true, ne_eq, not_true_eq_false, if_false]
      exact ih a acc
    · simp only [beq_false_of_ne h, ne_eq, h, not_false_eq_true, if_true]
      rw [ih, List.reverse_cons, List.append_assoc]
      rfl

/-- An ascending list without its repetitions. -/
theorem destutter_of_pairwise (h : (a :: l).Pairwise (· ≤ ·)) :
    (l.destutter' (· ≠ ·) a).Pairwise (· < ·) ∧
      ∀ x, x ∈ l.destutter' (· ≠ ·) a ↔ x ∈ a :: l := by
  induction l generalizing a with
  | nil => simp
  | cons b rest ih =>
    obtain ⟨hall, hrest⟩ := List.pairwise_cons.mp h
    rw [List.destutter'_cons]
    by_cases hab : a = b
    · subst hab
      rw [if_neg (not_not_intro rfl)]
      obtain ⟨hs, hmem⟩ := ih hrest
      refine ⟨hs, fun x => (hmem x).trans ?_⟩
      simp only [List.mem_cons, or_self_left]
    · rw [if_pos hab]
      obtain ⟨hs, hmem⟩ := ih hrest
      constructor
      · refine List.pairwise_cons.mpr ⟨fun x hx => ?_, hs⟩
        have hlt : a < b := lt_of_le_of_ne (hall b List.mem_cons_self) hab
        rcases List.mem_cons.mp ((hmem x).mp hx) with rfl | hx
        · exact hlt
        · exact hlt.trans_le ((List.pairwise_cons.mp hrest).1 x hx)
      · intro x
        rw [List.mem_cons, hmem, List.mem_cons (a := x) (b := a)]

end Distinct

namespace Database

/-- Each text once, in strictly ascending order. -/
theorem distinctSorted_spec (texts : List String) : (distinctSorted texts).Pairwise (· < ·) ∧
    ∀ t, t ∈ distinctSorted texts ↔ t ∈ texts := by
  have hperm := List.mergeSort_perm texts fun a b => decide (a ≤ b)
  have hsorted : (texts.mergeSort fun a b => decide (a ≤ b)).Pairwise (· ≤ ·) := by
    have h := List.pairwise_mergeSort
      (fun a b c (hab : decide (a ≤ b) = true) (hbc : decide (b ≤ c) = true) =>
        decide_eq_true ((of_decide_eq_true hab).trans (of_decide_eq_true hbc)))
      (fun a b => by simpa using le_total a b) texts
    exact h.imp of_decide_eq_true
  have hmem : ∀ t, t ∈ texts.mergeSort (fun a b => decide (a ≤ b)) ↔ t ∈ texts :=
    fun t => hperm.mem_iff
  unfold distinctSorted List.eraseReps
  cases h : texts.mergeSort fun a b => decide (a ≤ b) with
  | nil =>
    rw [h] at hmem
    exact ⟨List.Pairwise.nil, hmem⟩
  | cons a rest =>
    rw [h] at hmem hsorted
    rw [List.eraseRepsBy, loop_eq_destutter, List.reverse_nil, List.nil_append]
    obtain ⟨hs, hd⟩ := destutter_of_pairwise hsorted
    exact ⟨hs, fun t => (hd t).trans (hmem t)⟩

theorem distinctSorted_perm_dedup (texts : List String) :
    (distinctSorted texts).Perm texts.dedup := by
  obtain ⟨hs, hmem⟩ := distinctSorted_spec texts
  refine (List.perm_ext_iff_of_nodup (hs.imp fun h => h.ne) (List.nodup_dedup texts)).mpr
    fun t => ?_
  rw [hmem, List.mem_dedup]

/-! ## Sums of a column -/

/-- One step of a sum. -/
def addFitting (sum v : Int64) : Except Fault Int64 :=
  if sum.toInt + v.toInt < Int64.minValue.toInt ∨ Int64.maxValue.toInt < sum.toInt + v.toInt then
    .error .sumTooLarge
  else .ok (sum + v)

theorem sumColumn_eq (values : List Int64) : sumColumn values = values.foldlM addFitting 0 := rfl

/-- How a flag is stored. -/
def bitOf (flag : Bool) : Int64 := if flag then 1 else 0

theorem toInt_bitOf (flag : Bool) : (bitOf flag).toInt = flag.toNat := by
  cases flag <;> rfl

theorem addFitting_eq (sum v : Int64) (hl : -2 ^ 63 ≤ sum.toInt + v.toInt)
    (hu : sum.toInt + v.toInt < 2 ^ 63) :
    addFitting sum v = .ok (sum + v) ∧ (sum + v).toInt = sum.toInt + v.toInt := by
  have hmin : Int64.minValue.toInt = -2 ^ 63 := by decide
  have hmax : Int64.maxValue.toInt = 2 ^ 63 - 1 := by decide
  constructor
  · unfold addFitting
    rw [if_neg (by omega)]
  · rw [Int64.toInt_add, Int.bmod_eq_of_le] <;> omega

/-- Flags sum up to the number of those that are set. -/
theorem foldlM_bitOf (flags : List Bool) (start : Int64) (h0 : 0 ≤ start.toInt)
    (hfit : start.toInt + flags.length < 2 ^ 63) :
    ∃ total : Int64, (flags.map bitOf).foldlM addFitting start = .ok total ∧
      total.toInt = start.toInt + flags.count true := by
  induction flags generalizing start with
  | nil => exact ⟨start, rfl, by simp⟩
  | cons flag rest ih =>
    have hbit : (flag.toNat : ℤ) ≤ 1 := by cases flag <;> decide
    have hcount : ((flag :: rest).count true : ℤ) = flag.toNat + rest.count true := by
      cases flag <;> simp [Int.add_comm]
    rw [List.length_cons, Nat.cast_succ] at hfit
    obtain ⟨hok, hsum⟩ := addFitting_eq start (bitOf flag)
      (by rw [toInt_bitOf]; omega) (by rw [toInt_bitOf]; omega)
    rw [toInt_bitOf] at hsum
    obtain ⟨total, hrest, htotal⟩ := ih (start + bitOf flag) (by omega) (by omega)
    refine ⟨total, ?_, by omega⟩
    rw [List.map_cons, List.foldlM_cons, hok]
    exact hrest

end Database

/-! ## Totals of a list of functions -/

/-- Totals that describe a list of functions. -/
structure Totals (fs : List LabeledFunction) (counts : CorpusCounts) : Prop where
  functions : counts.functions.toNat = fs.length
  cryptoFunctions : counts.cryptoFunctions.toNat = fs.countP (·.label.isCrypto)
  binaries : counts.binaries.toNat = (fs.map (·.function.binaryPath.text)).toFinset.card
  /-- Each algorithm is counted once, by name. -/
  ascending : (counts.byAlgorithm.map Prod.fst).Pairwise (· < ·)
  mem_byAlgorithm : ∀ a n, (a, n) ∈ counts.byAlgorithm ↔
    0 < n.toNat ∧ n.toNat = fs.countP (·.label.algorithm == a)
  sum : (counts.byAlgorithm.map (·.2.toNat)).sum = counts.functions.toNat

variable {fs gs : List LabeledFunction} {counts : CorpusCounts}

/-- The order of the list does not matter. -/
theorem Totals.perm (h : Totals fs counts) (hp : fs.Perm gs) : Totals gs counts where
  functions := h.functions.trans hp.length_eq
  cryptoFunctions := h.cryptoFunctions.trans (hp.countP_eq _)
  binaries := by
    rw [h.binaries, List.toFinset_eq_of_perm _ _ (hp.map _)]
  ascending := h.ascending
  mem_byAlgorithm a n := by rw [h.mem_byAlgorithm, hp.countP_eq]
  sum := h.sum

namespace Database

variable {db : Database}

theorem toNat_toUInt64 {n : ℕ} (h : n < 2 ^ 64) : n.toUInt64.toNat = n := Nat.mod_eq_of_lt h

/-- The entry of each text that occurs, with its count. -/
theorem mem_counted {texts : List String} (hlen : texts.length < 2 ^ 64) (a : String) (n : UInt64) :
    (a, n) ∈ (distinctSorted texts).map (fun t => (t, (texts.count t).toUInt64)) ↔
      0 < n.toNat ∧ n.toNat = texts.count a := by
  have hcount : (texts.count a).toUInt64.toNat = texts.count a :=
    toNat_toUInt64 (List.count_le_length.trans_lt hlen)
  rw [List.mem_map]
  constructor
  · rintro ⟨t, ht, he⟩
    cases he
    rw [hcount]
    exact ⟨List.count_pos_iff.mpr (((distinctSorted_spec texts).2 a).mp ht), rfl⟩
  · rintro ⟨hpos, hn⟩
    refine ⟨a, ((distinctSorted_spec texts).2 a).mpr (List.count_pos_iff.mp (hn ▸ hpos)), ?_⟩
    rw [Prod.mk.injEq]
    exact ⟨rfl, UInt64.toNat_inj.mp (hcount.trans hn.symm)⟩

theorem sum_counted {texts : List String} (hlen : texts.length < 2 ^ 64) :
    (((distinctSorted texts).map fun t => (t, (texts.count t).toUInt64)).map (·.2.toNat)).sum =
      texts.length := by
  rw [List.map_map, ← List.sum_map_count_dedup_eq_length texts]
  refine Eq.trans (congrArg List.sum (List.map_congr_left fun t _ => ?_))
    ((distinctSorted_perm_dedup texts).map fun t => texts.count t).sum_eq
  exact toNat_toUInt64 (List.count_le_length.trans_lt hlen)

/-- The totals of stored functions describe these functions. -/
theorem stats_eq (h : db.functions = some (fs.map FunctionRow.ofLabeled))
    (hlen : fs.length < 2 ^ 63) : ∃ counts, db.stats = .ok counts ∧ Totals fs counts := by
  obtain ⟨crypto, hsum, hcrypto⟩ := foldlM_bitOf (fs.map (·.label.isCrypto)) 0 (by decide)
    (by rw [List.length_map]; simp only [Int64.toInt_zero]; omega)
  rw [Int64.toInt_zero, Int.zero_add] at hcrypto
  have hcolumn : sumColumn ((fs.map FunctionRow.ofLabeled).map (·.isCrypto)) = .ok crypto := by
    rw [sumColumn_eq, ← hsum, List.map_map, List.map_map]
    rfl
  have hones : (fs.map (·.label.isCrypto)).count true = fs.countP (·.label.isCrypto) := by
    rw [List.count, List.countP_map]
    exact List.countP_congr fun f _ => by simp
  have hpaths : (fs.map FunctionRow.ofLabeled).map (·.binaryPath) =
      fs.map (·.function.binaryPath.text) := List.map_map
  have halgorithms : (fs.map FunctionRow.ofLabeled).map (·.algorithm) =
      fs.map (·.label.algorithm) := List.map_map
  have hfits : (fs.map (·.label.algorithm)).length < 2 ^ 64 := by
    rw [List.length_map]
    omega
  have hstats : db.stats = .ok
      { functions := (fs.map FunctionRow.ofLabeled).length.toUInt64
        cryptoFunctions := crypto.toUInt64
        binaries := (distinctSorted (fs.map (·.function.binaryPath.text))).length.toUInt64
        byAlgorithm := (distinctSorted (fs.map (·.label.algorithm))).map
          fun a => (a, ((fs.map (·.label.algorithm)).count a).toUInt64) } := by
    unfold stats functionRows
    rw [h]
    simp only [bind, Except.bind, hcolumn, hpaths, halgorithms]
    rfl
  have hfunctions : (fs.map FunctionRow.ofLabeled).length.toUInt64.toNat = fs.length := by
    rw [List.length_map]
    exact toNat_toUInt64 (by omega)
  refine ⟨_, hstats, hfunctions, ?_, ?_, ?_, fun a n => ?_, ?_⟩
  · have hpos : 0 ≤ crypto := by
      rw [Int64.le_iff_toInt_le, hcrypto]
      exact Int.natCast_nonneg _
    rw [Int64.toNat_toUInt64_of_le hpos, ← hones]
    unfold Int64.toNatClampNeg
    rw [hcrypto]
    exact Int.toNat_natCast _
  · have hle : (fs.map (·.function.binaryPath.text)).dedup.length ≤ fs.length := by
      simpa using (List.dedup_sublist (fs.map (·.function.binaryPath.text))).length_le
    dsimp only
    rw [(distinctSorted_perm_dedup _).length_eq, List.card_toFinset]
    exact toNat_toUInt64 (by omega)
  · dsimp only
    rw [List.map_map]
    exact (List.map_id _).symm ▸ (distinctSorted_spec _).1
  · dsimp only
    rw [mem_counted hfits, List.count, List.countP_map]
    rfl
  · dsimp only
    rw [sum_counted hfits, hfunctions, List.length_map]

end Database

/-! ## Databases that changes lead to -/

/-- Databases that insertions, replacements and deletions lead to from one without functions.  Any
statement of a transaction may be refused; runs may be added as well. -/
inductive Reachable : Database → Prop
  | start {db : Database} : db.functions = some [] → Reachable db
  | inserted {db : Database} (refused : Nat → Option Fault) (functions : List LabeledFunction) :
      Reachable db → Reachable (db.transact refused (Database.insertStatements functions)).2
  | replaced {db : Database} (refused : Nat → Option Fault) (binaries : List Path)
      (functions : List LabeledFunction) : Reachable db →
      Reachable (db.transact refused (Database.replaceStatements binaries functions)).2
  | dropped {db db' : Database} {binary : Path} {n : Nat} :
      Reachable db → db.dropBinary binary = .ok (n, db') → Reachable db'
  | runAdded {db db' : Database} {run : BuildRun} {id : Int64} :
      Reachable db → db.insertRun run = .ok (id, db') → Reachable db'

namespace Database

variable {db db' : Database} {refused : Nat → Option Fault} {statements : List Statement}

/-- Statements that are not refused run as if none could be. -/
theorem runStatements_ok {i count : Nat} {rows : List FunctionRow} {r : List FunctionRow × Nat}
    (h : runStatements refused i rows count statements = .ok r) :
    runStatements noRefusal i rows count statements = .ok r := by
  induction statements generalizing i rows count with
  | nil => exact h
  | cons s rest ih =>
    cases hr : refused i with
    | some fault =>
      rw [runStatements_refused hr] at h
      cases h
    | none =>
      rw [runStatements_next hr] at h
      rw [runStatements_next rfl]
      exact ih h

/-- A transaction leaves what it leaves when nothing is refused, or the database as it was. -/
theorem transact_cases : (db.transact refused statements).2 = (db.transact noRefusal statements).2 ∨
    (db.transact refused statements).2 = db := by
  cases hf : db.functions with
  | none =>
    rw [transact_without_table hf]
    exact Or.inr rfl
  | some rows =>
    cases h : runStatements refused 0 rows 0 statements with
    | error fault =>
      rw [transact_of_error hf h]
      exact Or.inr rfl
    | ok r =>
      rw [transact_of_ok hf h, transact_of_ok hf (runStatements_ok h)]
      exact Or.inl rfl

/-- Adding a run leaves the functions. -/
theorem functions_insertRun {run : BuildRun} {id : Int64} (h : db.insertRun run = .ok (id, db')) :
    db'.functions = db.functions := by
  unfold insertRun insertRunRow at h
  cases hr : db.runRows with
  | error fault =>
    rw [hr] at h
    cases h
  | ok rows =>
    rw [hr] at h
    simp only [bind, Except.bind] at h
    cases hn : nextRunId? rows with
    | none =>
      rw [hn] at h
      cases h
    | some id =>
      rw [hn] at h
      cases h
      rfl

end Database

/-- Reachable databases hold a map. -/
theorem Reachable.holds {db : Database} (h : Reachable db) : ∃ m, db.Holds m := by
  induction h with
  | start h => exact ⟨.empty, [], h, Shows.empty⟩
  | @inserted db refused functions _ ih =>
    obtain ⟨m, hm⟩ := ih
    obtain ⟨db', hins, hm', -⟩ := hm.insertFunctions functions
    have hsnd : (db.transact Database.noRefusal (Database.insertStatements functions)).2 = db' :=
      congrArg Prod.snd hins
    rcases Database.transact_cases with he | he
    · rw [he, hsnd]
      exact ⟨_, hm'⟩
    · rw [he]
      exact ⟨m, hm⟩
  | @replaced db refused binaries functions _ ih =>
    obtain ⟨m, hm⟩ := ih
    obtain ⟨db', hrep, hm', -⟩ := hm.replaceFunctions binaries functions
    have hsnd : (db.transact Database.noRefusal
        (Database.replaceStatements binaries functions)).2 = db' := congrArg Prod.snd hrep
    rcases Database.transact_cases with he | he
    · rw [he, hsnd]
      exact ⟨_, hm'⟩
    · rw [he]
      exact ⟨m, hm⟩
  | dropped _ hdrop ih =>
    obtain ⟨m, hm⟩ := ih
    obtain ⟨db', hdrop', hm', -⟩ := hm.dropBinary _
    cases hdrop'.symm.trans hdrop
    exact ⟨_, hm'⟩
  | runAdded _ hrun ih =>
    obtain ⟨m, fs, hf, hs⟩ := ih
    exact ⟨m, fs, (Database.functions_insertRun hrun).trans hf, hs⟩

/-- A database that holds a map lists its functions, and its totals describe the listing as long as
the table is one that row ids can number. -/
theorem Database.Holds.stats {db : Database} {m : Corpus} (h : db.Holds m) :
    ∃ fs, db.listFunctions none = .ok fs ∧
      (fs.length < 2 ^ 63 → ∃ counts, db.stats = .ok counts ∧ Totals fs counts) := by
  obtain ⟨fs, hf, -⟩ := h
  have hperm := List.mergeSort_perm fs Database.listedUpTo
  refine ⟨_, Database.listFunctions_eq hf, fun hlen => ?_⟩
  rw [hperm.length_eq] at hlen
  obtain ⟨counts, hstats, htotals⟩ := Database.stats_eq hf hlen
  exact ⟨counts, hstats, htotals.perm hperm.symm⟩

/-- Whatever was inserted, replaced and deleted, the totals describe the listing: the number of its
functions, of those that are cryptography and of its binaries, and each algorithm that occurs in it
once, by name, with its positive number of functions, which add up to all of them.  (Row ids are
positive 64-bit numbers, so no table has `2 ^ 63` rows.) -/
theorem stats_describe_listing {db : Database} (h : Reachable db) :
    ∃ fs, db.listFunctions none = .ok fs ∧
      (fs.length < 2 ^ 63 → ∃ counts, db.stats = .ok counts ∧ Totals fs counts) := by
  obtain ⟨m, hm⟩ := h.holds
  exact hm.stats

/-- A function with an algorithm. -/
def labeledAs (binary name algorithm : String) : LabeledFunction :=
  ⟨⟨⟨binary⟩, 0x1000, none, name, .symbol⟩,
    { Label.unknown with algorithm := algorithm, isCrypto := algorithm != "Unknown" }⟩

/-- A key is stored again under another algorithm, a transaction fails and a binary is dropped: what is
left is counted. -/
theorem overwritten_and_dropped_are_not_counted :
    ∃ db fs counts, Reachable db ∧ db.listFunctions none = .ok fs ∧ fs.length < 2 ^ 63 ∧
      db.stats = .ok counts ∧ Totals fs counts ∧ counts.functions = 2 ∧
      counts.cryptoFunctions = 1 ∧ counts.binaries = 1 ∧ ("AES", 1) ∈ counts.byAlgorithm ∧
      ∀ n, ("MD5", n) ∉ counts.byAlgorithm := by
  let left := [labeledAs "/a" "g" "Unknown", labeledAs "/a" "f" "AES"]
  let db : Database := ⟨2, some [], some (left.map .ofLabeled)⟩
  let refused : Nat → Option Fault := fun i => if i = 2 then some .full else none
  have start : Reachable ⟨2, some [], some []⟩ := .start rfl
  have stored := (start.inserted Database.noRefusal [labeledAs "/a" "f" "MD5",
    labeledAs "/a" "g" "Unknown", labeledAs "/b" "f" "AES"]).replaced refused [⟨"/a"⟩] []
  have overwritten := stored.replaced Database.noRefusal [] [labeledAs "/a" "f" "AES"]
  have reached : Reachable db :=
    @Reachable.dropped _ db ⟨"/b"⟩ 1 overwritten (by decide +kernel)
  obtain ⟨fs, hlist, hstats⟩ := stats_describe_listing reached
  have hperm : fs.Perm left := by
    rw [Database.listFunctions_eq rfl] at hlist
    exact Except.ok.inj hlist ▸ List.mergeSort_perm left _
  have hlen : fs.length < 2 ^ 63 := by
    rw [hperm.length_eq]
    decide
  obtain ⟨counts, hcounts, htotals⟩ := hstats hlen
  have hleft := htotals.perm hperm
  refine ⟨db, fs, counts, reached, hlist, hlen, hcounts, htotals, ?_, ?_, ?_, ?_, fun n hn => ?_⟩
  · exact UInt64.toNat_inj.mp (hleft.functions.trans rfl)
  · exact UInt64.toNat_inj.mp (hleft.cryptoFunctions.trans (by decide +kernel))
  · exact UInt64.toNat_inj.mp (hleft.binaries.trans (by decide +kernel))
  · exact (hleft.mem_byAlgorithm _ _).mpr (by decide +kernel)
  · obtain ⟨hpos, hcount⟩ := (hleft.mem_byAlgorithm _ _).mp hn
    rw [hcount] at hpos
    revert hpos
    decide +kernel

end CipherCorpus.Store
