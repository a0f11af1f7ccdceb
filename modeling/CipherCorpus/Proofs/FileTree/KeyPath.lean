import CipherCorpus.Proofs.FileTree.Canonical
import CipherCorpus.Proofs.FileTree.Steps
import CipherCorpus.Proofs.FileTree.WellFormed

/-!
# Paths of keys

The path of a key goes down from the root by the names of the key, so a path under it is the path of a
longer key (`under_pathOf`), and its parent is the path of a shorter one (`parent?_pathOf`).  In a tree
where directories lie on the way to a key, its path is resolved to the key (`resolve_pathOf`).
-/

namespace CipherCorpus.FileTree

open CipherCorpus.Path Text
open Archive (under)

variable {t : FileTree} {f : Bool} {k top : Key} {n : String} {ns : List String}

theorem toList_pathOf_concat (k : Key) (n : String) : (pathOf (k ++ [n])).text.toList =
    (if k = [] then ['/'] else (pathOf k).text.toList ++ ['/']) ++ n.toList := by
  rw [toList_pathOf (k ++ [n])]
  by_cases hk : k = []
  · subst hk
    rfl
  · rw [if_neg hk, String.intercalate_append_of_ne_nil hk (by simp), String.toList_append,
      String.toList_append, toList_pathOf, List.append_assoc]
    simp

theorem text_pathOf_ne (k : Key) : (pathOf k).text ≠ "" := by
  intro he
  have hnil := String.toList_eq_nil_iff.mpr he
  rw [toList_pathOf] at hnil
  cases hnil

theorem child_pathOf (hk : ∀ m ∈ k, IsStep m) (hn : IsStep n) : (pathOf k).child n = pathOf (k ++ [n]) := by
  have hlead : (pathOf k).lead = if k = [] then ['/'] else (pathOf k).text.toList ++ ['/'] := by
    rcases List.eq_nil_or_concat' k with rfl | ⟨d, m, rfl⟩
    · rfl
    · obtain ⟨hsep, hne⟩ := hk m (by simp)
      rw [if_neg (by simp)]
      refine if_neg fun h => ?_
      rcases Bool.or_eq_true _ _ ▸ h with h | h
      · exact text_pathOf_ne _ (String.isEmpty_iff.mp h)
      · have hlast : (pathOf (d ++ [m])).text.toList.getLast? = some '/' := by simpa using h
        rw [toList_pathOf_concat, List.getLast?_append, List.getLast?_eq_some_getLast hne] at hlast
        exact hsep (Option.some.inj hlast ▸ List.getLast_mem hne)
  have htext : ((pathOf k).child n).text.toList = (pathOf (k ++ [n])).text.toList := by
    rw [toList_child _ (head?_ne_of_notMem hn.1), hlead, toList_pathOf_concat]
  exact congrArg Path.mk (String.toList_inj.mp htext)

theorem under_pathOf (hns : ∀ n ∈ ns, IsStep n) (hk : ∀ m ∈ k, IsStep m) :
    under (pathOf k) ns = pathOf (k ++ ns) := by
  induction ns generalizing k with
  | nil => rw [under_nil, List.append_nil]
  | cons n rest ih =>
    obtain ⟨hn, hrest⟩ := List.forall_mem_cons.mp hns
    rw [under_cons, child_pathOf hk hn, ih hrest, List.append_assoc]
    · rfl
    · intro m hm
      rcases List.mem_append.mp hm with hm | hm
      · exact hk m hm
      · rwa [List.mem_singleton.mp hm]

theorem parent?_pathOf (hk : ∀ m ∈ k, IsEntryName m.toList) (hn : IsEntryName n.toList) :
    (pathOf (k ++ [n])).parent? = some (pathOf k) := by
  have hstep : ∀ m ∈ k, IsStep m := fun m hm => isStep_of_isEntryName (hk m hm)
  rw [← child_pathOf hstep (isStep_of_isEntryName hn)]
  rcases List.eq_nil_or_concat' k with rfl | ⟨d, m, rfl⟩
  · have hpieces : ((pathOf []).child n).pieces = [[], n.toList] := by
      unfold Path.pieces
      rw [toList_child _ (head?_ne_of_notMem hn.1)]
      show splitOn '/' ('/' :: n.toList) = _
      rw [splitOn, if_pos rfl, splitOn_of_notMem hn.1]
    obtain ⟨init, hi, hs⟩ := (pathOf []).significant_child hn
    have hinit : init = [[]] := (List.append_inj' (hi.symm.trans hpieces) rfl).1
    unfold parent?
    rw [hs, hinit]
    rfl
  · have hm : IsEntryName m.toList := hk m (by simp)
    rw [← child_pathOf (fun x hx => hstep x (List.mem_append_left _ hx)) (isStep_of_isEntryName hm)]
    obtain ⟨init, hi⟩ := (pathOf d).exists_pieces_child hm.1
    exact parent?_child hi hm hn

theorem parent?_pathOf_nil : (pathOf []).parent? = none := rfl

/-- The path of a key is walked by the names of the key. -/
theorem walkNames_pathOf (hk : ∀ m ∈ k, IsStep m) : walkNames (pathOf k).text.toList = k := by
  rcases List.eq_nil_or_concat' k with rfl | ⟨d, m, rfl⟩
  · rfl
  · have hm := hk m (by simp)
    rw [← child_pathOf (fun x hx => hk x (List.mem_append_left _ hx)) hm, walkNames_child _ hm,
      child_pathOf (fun x hx => hk x (List.mem_append_left _ hx)) hm]
    exact pathNames_pathOf hk

theorem zeroFree_pathOf : ZeroFree (pathOf k).text ↔ ∀ n ∈ k, ZeroFree n := by
  induction k using List.reverseRecOn with
  | nil => exact iff_of_true (by decide) nofun
  | append_singleton d m ih =>
    have happend : ZeroFree (pathOf (d ++ [m])).text ↔ ZeroFree (pathOf d).text ∧ ZeroFree m := by
      unfold ZeroFree
      rw [toList_pathOf_concat, List.any_append, Bool.or_eq_false_iff]
      refine and_congr_left fun _ => ?_
      split
      · next hd =>
        subst hd
        exact iff_of_true (by decide) (by decide)
      · rw [List.any_append, Bool.or_eq_false_iff]
        exact and_iff_left (by decide)
    rw [happend, ih]
    simp [or_imp, forall_and]

theorem endsWithSeparator_pathOf (hk : ∀ m ∈ k, IsEntryName m.toList) (hne : k ≠ []) :
    endsWithSeparator (pathOf k) = false := by
  have hstep : ∀ m ∈ k, IsStep m := fun m hm => isStep_of_isEntryName (hk m hm)
  rw [← List.nil_append k, ← under_pathOf hstep (by simp)]
  exact endsWithSeparator_under hk hne _

theorem withoutSeparator_pathOf (hk : ∀ m ∈ k, IsEntryName m.toList) :
    withoutSeparator (pathOf k) = pathOf k := by
  by_cases hne : k = []
  · subst hne
    rfl
  · exact withoutSeparator_eq (endsWithSeparator_pathOf hk hne)

theorem steps_pathOf (hk : ∀ m ∈ k, IsEntryName m.toList) : steps (pathOf k) = k := by
  unfold steps
  rw [pathNames_pathOf fun m hm => isStep_of_isEntryName (hk m hm)]
  refine List.filter_eq_self.mpr fun m hm => ?_
  have hdot : m ≠ "." := fun he => (hk m hm).2.2.1 (by rw [he]; rfl)
  simpa using hdot

/-- The parts of the path of a key are the names of the key. -/
theorem parts_pathOf (hk : ∀ m ∈ k, IsEntryName m.toList) :
    (pathOf k).parts = .root :: k.map PathPart.name := by
  have habs : (pathOf k).isAbsolute = true := by
    unfold isAbsolute
    rw [toList_pathOf]
    rfl
  obtain ⟨piece, rest, hpieces⟩ := (isAbsolute_iff _).mp habs
  have hsteps := steps_eq_pieces (pathOf k)
  rw [steps_pathOf hk, hpieces] at hsteps
  have hrest : k.map String.toList = (piece :: rest).filter (!isFiller ·) := by
    rw [hsteps, List.map_map]
    exact List.map_id'' (fun l => String.toList_ofList) _
  unfold parts
  rw [hpieces]
  dsimp only
  rw [if_pos habs, ← hrest, List.map_map]
  refine congrArg _ (List.map_congr_left fun m hm => ?_)
  have hup : m.toList ≠ ['.', '.'] := (hk m hm).2.2.2
  simp [partOf, hup]

theorem length_le_pieces_pathOf (hk : ∀ m ∈ k, IsEntryName m.toList) :
    k.length ≤ (pathOf k).pieces.length := by
  have hlength := congrArg List.length (steps_eq_pieces (pathOf k))
  rw [steps_pathOf hk, List.length_map] at hlength
  rw [hlength]
  exact List.length_filter_le _ _

/-! ## Walking down to a key -/

/-- Names of directories are walked down. -/
theorem scan_append (hn : ∀ n ∈ top, LooksUp n) {place : Key} {rest : List String}
    (hd : ∀ j, j <+: top → t.get? (place ++ j) = some .directory) :
    t.scan f place (top ++ rest) = t.scan f (place ++ top) rest := by
  induction top generalizing place with
  | nil => rw [List.nil_append, List.append_nil]
  | cons n more ih =>
    obtain ⟨hx, hmore⟩ := List.forall_mem_cons.mp hn
    have hg := hd [n] (by simp)
    rw [List.cons_append, scan, if_neg hx.notHere, if_neg hx.notUp, if_neg (Nat.not_lt.mpr hx.size)]
    dsimp only
    rw [hg]
    dsimp only
    rw [ih hmore fun j hj => ?_, List.append_assoc]
    · rfl
    · rw [List.append_assoc]
      exact hd (n :: j) ((List.prefix_cons_inj n).mpr hj)

/-- The path of a directory is resolved to it. -/
theorem resolve_pathOf (hn : ∀ n ∈ k, IsFileName n) (hd : ∀ j, j <+: k → t.get? j = some .directory) :
    t.resolve [] f (pathOf k) = .ok (.present k .directory) := by
  refine resolve_iff.mpr ⟨⟨zeroFree_pathOf.mpr fun n hm => (hn n hm).zeroFree, ?_⟩, 0, Nat.zero_le _, ?_⟩
  · rw [toList_pathOf]
    simp
  · rw [startOf_pathOf, walkNames_pathOf fun n hm => isStep_of_isEntryName (hn n hm).entry]
    refine .place ((scan_iff k).mp ?_)
    have hscan : t.scan f [] (k ++ []) = t.scan f ([] ++ k) [] :=
      scan_append (fun n hm => (hn n hm).looksUp) fun j hj => (List.nil_append j).symm ▸ hd j hj
    rw [List.append_nil, List.nil_append] at hscan
    exact hscan

theorem resolve_pathOf_nil (t : FileTree) (f : Bool) :
    t.resolve [] f (pathOf []) = .ok (.present [] .directory) :=
  resolve_pathOf (by simp) fun j hj => by rw [List.prefix_nil.mp hj, get?_nil]

end CipherCorpus.FileTree
