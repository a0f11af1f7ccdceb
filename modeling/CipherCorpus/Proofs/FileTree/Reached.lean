import CipherCorpus.Proofs.FileTree.KeyPath
import CipherCorpus.Proofs.FileTree.Outside
import CipherCorpus.Proofs.FileTree.Place

/-!
# One directory by two paths

The path of a key leads to the directory there without any link (`Reached.leads`).  What is found below
another path that leads to this directory is found below the path of its key, too
(`Leads.stat_pathOf`); replacing the content of a file does not change where anything is found
(`stat_of_put`).
-/

namespace CipherCorpus.FileTree

open CipherCorpus.Path

variable {t t' : FileTree} {f : Bool} {cwd place k home key : Key} {xs ys : List String} {n : String}
  {root p : Path} {e : Entry}

/-! ## Keys of directories -/

/-- The names of a key go down through directories. -/
structure Reached (t : FileTree) (k : Key) : Prop where
  names : ∀ n ∈ k, IsFileName n
  directories : ∀ j, j <+: k → t.get? j = some .directory

theorem Reached.mono (h : t.Reached k) (hd : ∀ j, t.get? j = some .directory → t'.get? j = some .directory) :
    t'.Reached k := ⟨h.names, fun j hj => hd j (h.directories j hj)⟩

theorem Reached.isStep (h : t.Reached k) : ∀ n ∈ k, IsStep n := fun n hn => isStep_of_isEntryName (h.names n hn).entry

/-- From a directory above, the names that are left are those of directories. -/
theorem Reached.scans {ns : List String} (h : t.Reached (k ++ ns)) :
    Scans t f k ns (.place (.present (k ++ ns) .directory)) := by
  refine (scan_iff ns).mp ?_
  have hscan : t.scan f k (ns ++ []) = t.scan f (k ++ ns) [] :=
    scan_append (fun n hn => (h.names n (List.mem_append_right k hn)).looksUp) fun j hj =>
      h.directories _ ((List.prefix_append_right_inj k).mpr hj)
  rw [List.append_nil] at hscan
  exact hscan

/-- The path of a key leads to the directory there. -/
theorem Reached.leads (h : t.Reached k) (cwd : Key) : Leads t cwd (pathOf k) k := by
  refine ⟨0, Nat.zero_le _, .place ?_⟩
  rw [startOf_pathOf, pathNames_pathOf h.isStep]
  exact Reached.scans (k := []) h

/-- The directories that a walk of names goes through. -/
theorem Scans.directories {ns : List String} (hs : Scans t f place ns (.place (.present k .directory)))
    (hn : ∀ n ∈ ns, IsEntryName n.toList) (hc : t.get? place = some .directory) :
    (∀ n ∈ ns, n.utf8ByteSize ≤ nameLimit) ∧ ∀ j, j <+: ns → t.get? (place ++ j) = some .directory := by
  generalize he : FileTree.Stop.place (.present k .directory) = s at hs
  induction hs with
  | done =>
    refine ⟨nofun, fun j hj => ?_⟩
    rw [List.prefix_nil.mp hj, List.append_nil, hc]
  | here => exact absurd rfl (hn _ List.mem_cons_self).2.2.1
  | up => exact absurd rfl (hn _ List.mem_cons_self).2.2.2
  | directory hx hg _ ih =>
    obtain ⟨hsizes, hthere⟩ := ih (fun n hm => hn n (List.mem_cons_of_mem _ hm)) hg he
    refine ⟨List.forall_mem_cons.mpr ⟨hx.size, hsizes⟩, fun j hj => ?_⟩
    cases j with
    | nil => rw [List.append_nil, hc]
    | cons m j =>
      obtain ⟨rfl, hrest⟩ := List.cons_prefix_cons.mp hj
      rw [List.append_cons]
      exact hthere j hrest
  | free => cases he
  | file => cases he
  | lastLink => cases he
  | link => cases he

/-- A directory that the path of its key leads to without any link is reached. -/
theorem Leads.reached (hl : Leads t cwd (pathOf k) k) (hn : ∀ n ∈ k, IsEntryName n.toList) (hc : t.ClearTo k)
    (hz : ZeroFree (pathOf k).text) : t.Reached k := by
  have hscans : Scans t true [] k (.place (.present k .directory)) := by
    obtain ⟨m, -, hw⟩ := hl
    rw [startOf_pathOf, pathNames_pathOf fun n hm => isStep_of_isEntryName (hn n hm)] at hw
    cases hw with
    | place hs => exact hs
    | link hs =>
      obtain ⟨pl, he, -⟩ := hs.key_of_clear hn fun j target _ hj => hc j target hj
      cases he
  obtain ⟨hsizes, hthere⟩ := hscans.directories hn rfl
  have hfree := zeroFree_pathOf.mp hz
  exact ⟨fun n hm => ⟨hn n hm, hsizes n hm, hfree n hm⟩, hthere⟩

/-- Behind names of directories a walk goes on. -/
theorem Scans.append_walks {m : Nat} {pl : Place} (h : Scans t true place xs (.place (.present k .directory)))
    (hw : Walks t f m k ys pl) : Walks t f m place (xs ++ ys) pl := by
  cases hw with
  | place hs => exact .place (h.append hs)
  | link hs hw => exact .link (h.append hs) hw

/-- A separator at the end of a directory makes no difference to what is below. -/
theorem child_child_empty (p : Path) (hn : IsStep n) : (p.child "").child n = p.child n := by
  have htext : (p.child "").text.toList = p.lead := (toList_child p (by decide)).trans (List.append_nil _)
  have hlead : (p.child "").lead = p.lead := by
    rcases p.lead_eq_nil_or with hnil | ⟨l, hl⟩
    · have hempty : (p.child "").text = "" := String.toList_eq_nil_iff.mp (htext.trans hnil)
      rw [hnil, lead, hempty]
      rfl
    · have hlast : ((p.child "").text.isEmpty || (p.child "").text.toList.getLast? == some '/') = true := by
        rw [htext, hl]
        simp
      exact (if_pos hlast).trans htext
  have hsame : ((p.child "").child n).text.toList = (p.child n).text.toList := by
    rw [toList_child _ (head?_ne_of_notMem hn.1), toList_child _ (head?_ne_of_notMem hn.1), hlead]
  exact congrArg Path.mk (String.toList_inj.mp hsame)

/-! ## Below a directory -/

/-- What is found below a path that leads to a directory is found below the path of its key. -/
theorem Leads.stat_pathOf (hl : Leads t cwd root home) (hk : t.Reached home) (hn : IsFileName n)
    (h : t.stat cwd (root.child n) = .ok (key, e)) (cwd' : Key) :
    t.stat cwd' (pathOf (home ++ [n])) = .ok (key, e) := by
  have hstep := isStep_of_isEntryName hn.entry
  have hsteps : ∀ m ∈ home ++ [n], IsStep m :=
    List.forall_mem_append.mpr ⟨hk.isStep, List.forall_mem_singleton.mpr hstep⟩
  obtain ⟨-, m, hlim, hw⟩ := resolve_iff.mp (stat_eq h)
  rw [startOf_child _ _ hstep, walkNames_child _ hstep, pathNames_child _ hstep] at hw
  obtain ⟨k, i, more, hi, hroot, hw⟩ := hw.split (by simp)
  obtain rfl := hl.unique ⟨i, by omega, hroot⟩
  refine stat_iff.mpr (resolve_iff.mpr ⟨⟨zeroFree_pathOf.mpr ?_, ?_⟩, more, by omega, ?_⟩)
  · exact List.forall_mem_append.mpr
      ⟨fun x hx => (hk.names x hx).zeroFree, List.forall_mem_singleton.mpr hn.zeroFree⟩
  · rw [toList_pathOf]
    simp
  · rw [startOf_pathOf, walkNames_pathOf hsteps]
    exact (Reached.scans (k := []) hk).append_walks hw

/-! ## Another content in a file -/

/-- Putting a file in place of a file keeps directories and links. -/
theorem get?_put_file {body b : Body} {x y : Bool} (hg : t.get? key = some (.file b y)) {k : Key} {e : Entry}
    (he : ∀ b y, e ≠ .file b y) : (t.put key (.file body x)).get? k = some e ↔ t.get? k = some e := by
  refine get?_put_eq_some_iff (ne_nil_of_get? hg nofun) (fun h => he _ _ h.symm) ?_
  rw [hg]
  exact fun h => he _ _ (Option.some.inj h).symm

/-- A file is found where it was when another one has another content. -/
theorem stat_of_put {body b b' : Body} {x y y' : Bool} {k : Key} (hg : t.get? key = some (.file b y)) (hk : k ≠ key)
    (h : t.stat cwd p = .ok (k, .file b' y')) : (t.put key (.file body x)).stat cwd p = .ok (k, .file b' y') := by
  obtain ⟨htext, m, hlim, hw⟩ := resolve_iff.mp (stat_eq h)
  have hthere : t.get? k = some (.file b' y') := (sound_of_resolve (stat_eq h)).resolve_left nofun
  refine stat_iff.mpr (resolve_iff.mpr ⟨htext, m, hlim, ?_⟩)
  exact hw.grow_open (fun j hj => (get?_put_file hg (by simp)).mpr hj)
    (fun j target hj => (get?_put_file hg (by simp)).mpr hj) nofun
    (.file (by rw [Place.key, get?_put_ne _ _ hk, hthere]))

end CipherCorpus.FileTree
