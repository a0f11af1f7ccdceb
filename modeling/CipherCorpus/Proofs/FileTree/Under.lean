import CipherCorpus.Archive.Unpack
import CipherCorpus.Proofs.FileTree.Walk
import Mathlib.Data.List.Basic

/-!
# Paths under a directory

The names of `under p ns` are those of `p` and then `ns` (`pathNames_under`), so such a path is resolved
through a directory that `p` leads to.  When `p` leads to one directory only and no link lies under it,
the rest is a scan of `ns`:

    t.resolve cwd f (under p ns) = .ok pl ↔
      (no zero byte in the path) ∧ Leads t cwd p home ∧ Scans t f home ns (.place pl)
                                                                          (resolve_under_iff)
-/

namespace CipherCorpus.FileTree

open Text CipherCorpus.Path
open Archive (under)

variable {t : FileTree} {f : Bool} {cwd home : Key} {ns : List String} {p : Path}

/-! ## Names of children -/

theorem pathNames_append_sep (l m : List Char) :
    pathNames (l ++ '/' :: m) = pathNames l ++ pathNames m := by
  unfold pathNames
  rw [splitOn_append_sep, List.filter_append, List.map_append]

theorem pathNames_of_isStep {n : String} (hn : IsStep n) : pathNames n.toList = [n] := by
  unfold pathNames
  rw [splitOn_of_notMem hn.1]
  simp [hn.2]

/-- The names of a relative path come after those of the path it is put below. -/
theorem pathNames_join (p : Path) {q : Path} (hq : q.isAbsolute = false) :
    pathNames (p.join q).text.toList = pathNames p.text.toList ++ pathNames q.text.toList := by
  rw [join, if_neg (by rw [hq]; decide)]
  split
  · next h =>
    rw [String.toList_append]
    rcases Bool.or_eq_true _ _ ▸ h with h | h
    · rw [String.isEmpty_iff.mp h]
      rfl
    · obtain ⟨l, hl⟩ := List.getLast?_eq_some_iff.mp (by simpa using h)
      rw [hl, List.append_assoc, List.singleton_append, pathNames_append_sep, pathNames_append_sep]
      exact congrArg (· ++ _) (List.append_nil _).symm
  · rw [String.toList_append, String.toList_append, List.append_assoc]
    exact pathNames_append_sep _ _

theorem pathNames_child (p : Path) {n : String} (hn : IsStep n) :
    pathNames (p.child n).text.toList = pathNames p.text.toList ++ [n] := by
  have hrel : (Path.mk n).isAbsolute = false := by
    unfold isAbsolute
    simpa using head?_ne_of_notMem hn.1
  rw [child, pathNames_join p hrel, pathNames_of_isStep hn]

theorem isAbsolute_child (p : Path) {n : String} (hn : IsStep n) :
    (p.child n).isAbsolute = p.isAbsolute := by
  have hh := head?_ne_of_notMem hn.1
  unfold isAbsolute
  rw [p.toList_child hh]
  unfold lead
  split
  · next h =>
    rcases Bool.or_eq_true _ _ ▸ h with h | h
    · rw [String.isEmpty_iff.mp h]
      simp [hh]
    · obtain ⟨l, hl⟩ := List.getLast?_eq_some_iff.mp (by simpa using h)
      rw [hl]
      cases l <;> rfl
  · next h =>
    cases hp : p.text.toList with
    | nil => simp [String.toList_eq_nil_iff.mp hp] at h
    | cons c rest => rfl

theorem startOf_eq_of_isAbsolute {q : Path} (h : p.isAbsolute = q.isAbsolute) (cwd : Key) :
    startOf cwd p.text.toList = startOf cwd q.text.toList := by
  unfold startOf
  unfold isAbsolute at h
  rw [h]

theorem startOf_child (cwd : Key) (p : Path) {n : String} (hn : IsStep n) :
    startOf cwd (p.child n).text.toList = startOf cwd p.text.toList :=
  startOf_eq_of_isAbsolute (isAbsolute_child p hn) cwd

theorem walkNames_child (p : Path) {n : String} (hn : IsStep n) :
    walkNames (p.child n).text.toList = pathNames (p.child n).text.toList := by
  have hlast : (p.child n).text.toList.getLast? ≠ some '/' := by
    rw [p.toList_child (head?_ne_of_notMem hn.1), List.getLast?_append, List.getLast?_eq_some_getLast hn.2]
    intro h
    exact hn.1 (Option.some.inj h ▸ List.getLast_mem hn.2)
  unfold walkNames pathNames
  simp [hlast]

/-! ## Names under a path -/

theorem pathNames_under (hn : ∀ n ∈ ns, IsStep n) (p : Path) :
    pathNames (under p ns).text.toList = pathNames p.text.toList ++ ns := by
  induction ns generalizing p with
  | nil => exact (List.append_nil _).symm
  | cons n rest ih =>
    show pathNames (under (p.child n) rest).text.toList = _
    rw [ih (fun m hm => hn m (List.mem_cons_of_mem _ hm)), pathNames_child p (hn n List.mem_cons_self),
      List.append_assoc]
    rfl

theorem startOf_under (hn : ∀ n ∈ ns, IsStep n) (cwd : Key) (p : Path) :
    startOf cwd (under p ns).text.toList = startOf cwd p.text.toList := by
  induction ns generalizing p with
  | nil => rfl
  | cons n rest ih =>
    show startOf cwd (under (p.child n) rest).text.toList = _
    rw [ih (fun m hm => hn m (List.mem_cons_of_mem _ hm)), startOf_child cwd p (hn n List.mem_cons_self)]

@[simp] theorem under_nil (p : Path) : under p [] = p := rfl

@[simp] theorem under_cons (p : Path) (n : String) (ns : List String) :
    under p (n :: ns) = under (p.child n) ns := rfl

theorem under_concat (p : Path) (ns : List String) (n : String) :
    under p (ns ++ [n]) = (under p ns).child n := List.foldl_append ..

theorem walkNames_under (hn : ∀ n ∈ ns, IsStep n) (hne : ns ≠ []) (p : Path) :
    walkNames (under p ns).text.toList = pathNames p.text.toList ++ ns := by
  obtain ⟨rest, n, rfl⟩ := (List.eq_nil_or_concat' ns).resolve_left hne
  rw [under_concat, walkNames_child _ (hn n (by simp)), ← under_concat, pathNames_under hn]

theorem isStep_of_isEntryName {n : String} (h : IsEntryName n.toList) : IsStep n := ⟨h.1, h.2.1⟩

theorem endsWithSeparator_under (hn : ∀ n ∈ ns, IsEntryName n.toList) (hne : ns ≠ []) (p : Path) :
    endsWithSeparator (under p ns) = false := by
  obtain ⟨rest, n, rfl⟩ := (List.eq_nil_or_concat' ns).resolve_left hne
  obtain ⟨hsep, hnil, -⟩ := hn n (by simp)
  unfold endsWithSeparator
  rw [under_concat, toList_child _ (head?_ne_of_notMem hsep), List.getLast?_append,
    List.getLast?_eq_some_getLast hnil]
  simpa using fun he : n.toList.getLast hnil = '/' => hsep (he ▸ List.getLast_mem hnil)

theorem toList_under_ne_nil (hn : ∀ n ∈ ns, IsEntryName n.toList) (hne : ns ≠ []) (p : Path) :
    (under p ns).text.toList ≠ [] := by
  obtain ⟨rest, n, rfl⟩ := (List.eq_nil_or_concat' ns).resolve_left hne
  obtain ⟨hsep, hnil, -⟩ := hn n (by simp)
  rw [under_concat, toList_child _ (head?_ne_of_notMem hsep)]
  simp [hnil]

/-! ## Resolving a path under another one -/

/-- A path under another one is resolved through a directory. -/
theorem leads_of_resolve {pl : Place} (hn : ∀ n ∈ ns, IsEntryName n.toList) (hne : ns ≠ [])
    (h : t.resolve cwd f (under p ns) = .ok pl) : ∃ k more, Leads t cwd p k ∧ Walks t f more k ns pl := by
  have hs : ∀ n ∈ ns, IsStep n := fun n hm => isStep_of_isEntryName (hn n hm)
  obtain ⟨-, n, hlim, h⟩ := resolve_iff.mp h
  rw [startOf_under hs, walkNames_under hs hne] at h
  obtain ⟨k, m, more, hm, hk, hys⟩ := h.split hne
  exact ⟨k, more, ⟨m, by omega, hk⟩, hys⟩

/-- Under a directory without links a path is resolved by looking its names up. -/
theorem resolve_under_iff {pl : Place} (hhome : ∀ k, Leads t cwd p k → k = home)
    (hc : ClearUnder t home) (hn : ∀ n ∈ ns, IsEntryName n.toList) (hne : ns ≠ []) :
    t.resolve cwd f (under p ns) = .ok pl ↔
      (under p ns).text.toList.any (·.toNat == 0) = false ∧ Leads t cwd p home ∧
        Scans t f home ns (.place pl) := by
  have hs : ∀ n ∈ ns, IsStep n := fun n hm => isStep_of_isEntryName (hn n hm)
  constructor
  · intro h
    refine ⟨(resolve_iff.mp h).1.1, ?_⟩
    obtain ⟨k, more, hk, hw⟩ := leads_of_resolve hn hne h
    obtain rfl := hhome k hk
    refine ⟨hk, ?_⟩
    cases hw with
    | place hw => exact hw
    | link hw =>
      obtain ⟨pl, he, -⟩ := hw.key_eq hc hn
      cases he
  · rintro ⟨htext, ⟨n, hlim, hk⟩, hw⟩
    refine resolve_iff.mpr ⟨⟨htext, toList_under_ne_nil hn hne p⟩, n, hlim, ?_⟩
    rw [startOf_under hs, walkNames_under hs hne]
    exact hk.append hne hw

end CipherCorpus.FileTree
