import CipherCorpus.Proofs.Store.Rows
import Mathlib.Data.List.Nodup
import Mathlib.Data.Prod.Lex
import Mathlib.Data.String.Basic

/-!
# The listing of stored functions

Rows with distinct identities stand in exactly one order, so the listing of one binary is what the
whole listing shows of it (`filter_mergeSort`).  A table of stored functions lists these functions,
with every field as it was (`listFunctions_eq`).
-/

namespace CipherCorpus.Store

/-! ## The order of the listing -/

namespace FunctionRow

variable {a b c : FunctionRow}

/-- What rows are ordered by. -/
def rank (r : FunctionRow) : String ×ₗ ℤ ×ₗ String :=
  toLex (r.binaryPath, toLex (r.address.toInt, r.name))

theorem upTo_iff : a.upTo b = true ↔ a.rank ≤ b.rank := by
  unfold upTo rank
  rw [Prod.Lex.toLex_le_toLex, Prod.Lex.toLex_le_toLex]
  simp [Int64.lt_iff_toInt_lt, ← Int64.toInt_inj]

theorem upTo_trans (hab : a.upTo b = true) (hbc : b.upTo c = true) : a.upTo c = true :=
  upTo_iff.mpr ((upTo_iff.mp hab).trans (upTo_iff.mp hbc))

theorem upTo_total (a b : FunctionRow) : (a.upTo b || b.upTo a) = true := by
  rw [Bool.or_eq_true, upTo_iff, upTo_iff]
  exact le_total _ _

/-- Rows that stand before each other have one identity. -/
theorem identity_eq_of_upTo (hab : a.upTo b = true) (hba : b.upTo a = true) :
    a.identity = b.identity := by
  have h := le_antisymm (upTo_iff.mp hab) (upTo_iff.mp hba)
  simp only [rank, EmbeddingLike.apply_eq_iff_eq, Prod.mk.injEq, Int64.toInt_inj] at h
  simp only [identity, Prod.mk.injEq]
  exact h

end FunctionRow

/-- Rows with distinct identities are listed in one order only. -/
theorem eq_of_perm_of_sorted {l l' : List FunctionRow} (hn : (l.map FunctionRow.identity).Nodup)
    (hp : l.Perm l') (hl : l.Pairwise (·.upTo ·)) (hl' : l'.Pairwise (·.upTo ·)) : l = l' := by
  refine hp.eq_of_pairwise (fun a b ha hb hab hba => ?_) hl hl'
  exact List.inj_on_of_nodup_map hn ha (hp.mem_iff.mpr hb) (FunctionRow.identity_eq_of_upTo hab hba)

theorem sorted_mergeSort :
    ∀ rows : List FunctionRow, (rows.mergeSort FunctionRow.upTo).Pairwise (·.upTo ·) :=
  List.pairwise_mergeSort (fun _ _ _ => FunctionRow.upTo_trans) FunctionRow.upTo_total

/-- Rows are dropped before or after they are put in order. -/
theorem filter_mergeSort {rows : List FunctionRow} (hn : (rows.map FunctionRow.identity).Nodup)
    (p : FunctionRow → Bool) :
    (rows.mergeSort FunctionRow.upTo).filter p = (rows.filter p).mergeSort FunctionRow.upTo := by
  have hperm : ((rows.mergeSort FunctionRow.upTo).filter p).Perm (rows.filter p) :=
    (List.mergeSort_perm rows _).filter p
  refine eq_of_perm_of_sorted ?_ (hperm.trans (List.mergeSort_perm _ _).symm)
    ((sorted_mergeSort rows).filter p) (sorted_mergeSort _)
  exact ((hperm.map _).nodup_iff).mpr (hn.sublist (List.filter_sublist.map _))

/-! ## Tables of stored functions -/

/-- Stored values are read back one by one. -/
theorem mapM_map_ok {α β γ ε : Type} {k : α → β} {f : β → Except ε γ} {v : α → γ}
    (h : ∀ a, f (k a) = .ok (v a)) (l : List α) : (l.map k).mapM f = .ok (l.map v) := by
  induction l with
  | nil => rfl
  | cons a rest ih =>
    rw [List.map_cons, List.mapM_cons, h, ih]
    rfl

namespace Database

variable {db : Database} {fs : List LabeledFunction}

theorem ofLabeled_injective : Function.Injective FunctionRow.ofLabeled := fun f g h => by
  have hback := congrArg FunctionRow.toLabeled? h
  rw [FunctionRow.toLabeled?_ofLabeled, FunctionRow.toLabeled?_ofLabeled] at hback
  exact Option.some.inj hback

/-- The order in which functions are listed. -/
def listedUpTo (f g : LabeledFunction) : Bool := (FunctionRow.ofLabeled f).upTo (.ofLabeled g)

theorem mergeSort_ofLabeled (fs : List LabeledFunction) :
    (fs.map FunctionRow.ofLabeled).mergeSort FunctionRow.upTo =
      (fs.mergeSort listedUpTo).map FunctionRow.ofLabeled :=
  (List.map_mergeSort (f := FunctionRow.ofLabeled) fun _ _ _ _ => rfl).symm

theorem filter_ofLabeled (b : Path) (fs : List LabeledFunction) :
    (fs.map FunctionRow.ofLabeled).filter (·.binaryPath == b.text) =
      (fs.filter (·.function.binaryPath.text == b.text)).map FunctionRow.ofLabeled := by
  rw [List.filter_map]
  rfl

/-- The rows of one binary are listed alone. -/
theorem listFunctions_some_eq {rows : List FunctionRow} (h : db.functions = some rows) (b : Path) :
    db.listFunctions (some b) =
      ({ db with functions := some (rows.filter (·.binaryPath == b.text)) } : Database).listFunctions
        none := by
  unfold listFunctions functionRows
  rw [h]
  rfl

/-- Stored functions are listed as they were. -/
theorem listFunctions_eq (h : db.functions = some (fs.map FunctionRow.ofLabeled)) :
    db.listFunctions none = .ok (fs.mergeSort listedUpTo) := by
  unfold listFunctions functionRows
  rw [h]
  show ((fs.map FunctionRow.ofLabeled).mergeSort FunctionRow.upTo).mapM _ = _
  rw [mergeSort_ofLabeled, mapM_map_ok (v := id) fun f => ?_, List.map_id]
  rw [FunctionRow.toLabeled?_ofLabeled]
  rfl

/-- The listing of one binary is the part of the whole listing that is about it. -/
theorem listFunctions_binary (h : db.functions = some (fs.map FunctionRow.ofLabeled))
    (hn : ((fs.map FunctionRow.ofLabeled).map FunctionRow.identity).Nodup) (b : Path) :
    db.listFunctions (some b) =
      .ok ((fs.mergeSort listedUpTo).filter (·.function.binaryPath.text == b.text)) := by
  have hrows : (fs.mergeSort listedUpTo).filter (·.function.binaryPath.text == b.text) =
      (fs.filter (·.function.binaryPath.text == b.text)).mergeSort listedUpTo := by
    refine List.map_injective_iff.mpr ofLabeled_injective ?_
    rw [← filter_ofLabeled, ← mergeSort_ofLabeled, ← mergeSort_ofLabeled, ← filter_ofLabeled]
    exact filter_mergeSort hn _
  rw [listFunctions_some_eq h, filter_ofLabeled, listFunctions_eq rfl, hrows]

end Database

end CipherCorpus.Store
