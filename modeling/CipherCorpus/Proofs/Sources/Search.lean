import CipherCorpus.Proofs.Path
import CipherCorpus.Sources.Search

/-!
# Where the source of a function lies

What `Sources.find?` answers is one of the regular files (`mem_of_find?`), and the path of such a file
goes on from that of the directory: a directory with a separator in its path gives only such files
(`sep_mem_find?`).
-/

namespace CipherCorpus

open CipherCorpus.Path

namespace Path

theorem sep_mem_child {p : Path} (h : '/' ∈ p.text.toList) (n : String) :
    '/' ∈ (p.child n).text.toList := by
  unfold child join
  split
  · next ha => exact List.mem_of_mem_head? (by simpa [isAbsolute] using ha)
  · split
    · simp [String.toList_append, h]
    · simp [String.toList_append, h]

theorem sep_mem_foldl_child (ns : List String) : ∀ {p : Path}, '/' ∈ p.text.toList →
    '/' ∈ (ns.foldl Path.child p).text.toList := by
  induction ns with
  | nil => exact id
  | cons n rest ih => exact fun h => ih (sep_mem_child h n)

/-- A path two names below another one holds a separator. -/
theorem sep_mem_child_child (p : Path) {m n : String} (hm : IsEntryName m.toList)
    (hn : IsEntryName n.toList) : '/' ∈ ((p.child m).child n).text.toList := by
  rw [toList_child _ (head?_ne_of_notMem hn.1)]
  refine List.mem_append_left _ ?_
  have hlast : (p.child m).text.toList.getLast? ≠ some '/' := by
    rw [toList_child _ (head?_ne_of_notMem hm.1), List.getLast?_append,
      List.getLast?_eq_some_getLast hm.2.1]
    exact fun h => hm.1 (Option.some.inj h ▸ List.getLast_mem hm.2.1)
  have hne : (p.child m).text.isEmpty = false := by
    rw [← Bool.not_eq_true, String.isEmpty_iff]
    intro he
    have := congrArg String.toList he
    rw [toList_child _ (head?_ne_of_notMem hm.1)] at this
    simp [hm.2.1] at this
  unfold lead
  simp [hne, hlast]

end Path

namespace Sources

theorem least_mem {ps : List Path} {p : Path} (h : least ps = some p) : p ∈ ps := by
  have hfold : ∀ (rest : List Path) (best : Path),
      rest.foldl (fun best q => if q.before best then q else best) best ∈ best :: rest := by
    intro rest
    induction rest with
    | nil => exact fun best => List.mem_cons_self
    | cons q rest ih =>
      intro best
      rw [List.foldl_cons]
      split
      · exact List.mem_cons_of_mem _ (ih q)
      · rcases List.mem_cons.mp (ih best) with h | h
        · rw [h]
          exact List.mem_cons_self
        · exact List.mem_cons_of_mem _ (List.mem_cons_of_mem _ h)
  cases ps with
  | nil => cases h
  | cons q rest =>
    obtain rfl := Option.some.inj h
    exact hfold rest q

theorem mem_of_choose {files : List Path} {function : String} {p : Path}
    (h : choose files function = some p) : p ∈ files := by
  obtain ⟨accepts, -, hl⟩ := List.exists_of_findSome?_eq_some h
  exact (List.mem_filter.mp (least_mem hl)).1

/-- The source of a function is one of the regular files. -/
theorem mem_of_find? {t : FileTree} {cwd : Key} {directory p : Path} {function : String}
    (h : find? t cwd directory function = some p) : p ∈ t.regularFiles cwd directory := mem_of_choose h

theorem sep_mem_regularFiles {t : FileTree} {cwd : Key} {directory p : Path}
    (hd : '/' ∈ directory.text.toList) (hp : p ∈ t.regularFiles cwd directory) :
    '/' ∈ p.text.toList := by
  have hunder : ∀ top : Key, p ∈ (((t.below top).filter (·.2.isFile)).map fun e =>
      (e.1.drop top.length).foldl Path.child directory) → '/' ∈ p.text.toList := by
    intro top hm
    obtain ⟨e, -, rfl⟩ := List.mem_map.mp hm
    exact sep_mem_foldl_child _ hd
  unfold FileTree.regularFiles at hp
  dsimp only at hp
  split at hp
  · cases hp
  · rw [List.mem_singleton.mp hp]
    exact hd
  · exact hunder _ hp
  · split at hp
    · exact hunder _ hp
    · cases hp

theorem sep_mem_find? {t : FileTree} {cwd : Key} {directory p : Path} {function : String}
    (hd : '/' ∈ directory.text.toList) (h : find? t cwd directory function = some p) :
    '/' ∈ p.text.toList := sep_mem_regularFiles hd (mem_of_find? h)

end Sources

end CipherCorpus
