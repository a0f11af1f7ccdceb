import CipherCorpus.Proofs.FileTree.Place

/-!
# Directories that are reached from outside

A path may lead to a directory through what lies in it, as `a/b/..` leads to `a`.  A path that does not
(`LeadsFromOutside`) leads to the directory whatever happens in it, and when a directory is made in it by
such a path, nothing else is made there:

    t.makeDirectories cwd (p.child n) = .ok t' → t'.LeadsFromOutside cwd p home →
      isBelow home k = true → k ≠ home ++ [n] → t'.get? k = t.get? k
                                                          (get?_of_makeDirectories_child)
-/

namespace CipherCorpus.FileTree

open CipherCorpus.Path

variable {t t' : FileTree} {f : Bool} {cwd home k place : Key} {n : String} {p q : Path}

/-! ## What lies in a directory -/

theorem isBelow_iff {top : Key} : isBelow top k = true ↔ ∃ x, x ≠ [] ∧ k = top ++ x := by
  unfold isBelow
  rw [Bool.and_eq_true, List.isPrefixOf_iff_prefix, bne_iff_ne]
  constructor
  · rintro ⟨⟨x, rfl⟩, hne⟩
    exact ⟨x, fun he => hne (by rw [he, List.append_nil]), rfl⟩
  · rintro ⟨x, hx, rfl⟩
    exact ⟨List.prefix_append _ _, by simpa using hx⟩

theorem isBelow_append {top x : Key} (hx : x ≠ []) : isBelow top (top ++ x) = true :=
  isBelow_iff.mpr ⟨x, hx, rfl⟩

theorem isBelow_self (top : Key) : isBelow top top = false := by
  unfold isBelow
  simp

theorem isBelow_eq_false {top : Key} (h : ¬ top <+: k) : isBelow top k = false := by
  rw [← Bool.not_eq_true, isBelow_iff]
  rintro ⟨x, -, rfl⟩
  exact h (List.prefix_append top x)

/-- What lies in what lies in a directory lies in it. -/
theorem isBelow_of_append {top : Key} (x : Key) (h : isBelow top k = true) : isBelow top (k ++ x) = true := by
  obtain ⟨y, hy, rfl⟩ := isBelow_iff.mp h
  rw [List.append_assoc]
  exact isBelow_append (by simp [hy])

/-- Nothing lies in a directory when nothing is found there. -/
theorem isEmpty_below (h : ∀ x, x ≠ [] → t.get? (k ++ x) = none) : (t.below k).isEmpty = true := by
  rw [List.isEmpty_iff, List.eq_nil_iff_forall_not_mem]
  intro e he
  obtain ⟨hmem, hbelow⟩ := List.mem_filter.mp he
  obtain ⟨x, hx, hk⟩ := isBelow_iff.mp hbelow
  exact get?_ne_none_of_mem hmem (hk ▸ h x hx)

theorem get?_of_isEmpty_below (h : (t.below k).isEmpty = true) {x : Key} (hx : x ≠ []) : t.get? (k ++ x) = none := by
  by_contra hg
  obtain ⟨e, hg⟩ := Option.ne_none_iff_exists'.mp hg
  have hm : (k ++ x, e) ∈ t.below k :=
    List.mem_filter.mpr ⟨mem_entries_of_get? hg (by simp [hx]), isBelow_append hx⟩
  rw [List.isEmpty_iff.mp h] at hm
  cases hm

theorem get?_emptied_of_outside (t : FileTree) (h : isBelow home k = false) :
    (t.emptied home).get? k = t.get? k := by
  rw [get?_emptied, if_neg (by rw [h]; decide)]

theorem eq_of_get?_emptied {e : Entry} (h : (t.emptied home).get? k = some e) :
    isBelow home k = false ∧ t.get? k = some e := by
  rw [get?_emptied] at h
  split at h
  · cases h
  · next hk => exact ⟨by simpa using hk, h⟩

theorem WellFormed.emptied (h : t.WellFormed) (home : Key) : (t.emptied home).WellFormed := by
  have hcases : ∀ {j}, (t.emptied home).get? j ≠ none → isBelow home j = false ∧ t.get? j ≠ none := by
    intro j hj
    obtain ⟨e, hg⟩ := Option.ne_none_iff_exists'.mp hj
    obtain ⟨hout, hg⟩ := eq_of_get?_emptied hg
    exact ⟨hout, by rw [hg]; simp⟩
  refine ⟨h.nodup.sublist (List.filter_sublist.map _), fun d n hd => h.name d n (hcases hd).2,
    fun d n hd => ?_, fun j target hj => h.target j target (eq_of_get?_emptied hj).2⟩
  obtain ⟨hout, hg⟩ := hcases hd
  rw [get?_emptied_of_outside t, h.parent d n hg]
  rw [← Bool.not_eq_true]
  intro hin
  rw [isBelow_of_append [n] hin] at hout
  cases hout

/-! ## Walks in a well-formed tree -/

/-- The directory at which a scan stops is one of the tree. -/
def Stop.IsThere (t : FileTree) : Stop → Prop
  | .place (.present k .directory) => t.get? k = some .directory
  | .place _ => True
  | .link base _ _ => t.get? base = some .directory

theorem Scans.isThere {ns : List String} {s : Stop} (h : t.WellFormed) (hd : t.get? place = some .directory)
    (hs : Scans t f place ns s) : s.IsThere t := by
  induction hs with
  | done => exact hd
  | here _ ih => exact ih hd
  | up _ ih => exact ih (h.dropLast hd)
  | directory _ hg _ ih => exact ih hg
  | free => trivial
  | file => trivial
  | lastLink => trivial
  | link => exact hd

theorem Walks.get?_directory {m : Nat} {ns : List String} (h : t.WellFormed)
    (hd : t.get? place = some .directory) (hw : Walks t f m place ns (.present k .directory)) :
    t.get? k = some .directory := by
  generalize he : Place.present k .directory = pl at hw
  induction hw with
  | place hs =>
    subst he
    exact hs.isThere h hd
  | link hs _ ih =>
    refine ih ?_ he
    unfold startOf
    split
    · rfl
    · exact hs.isThere h hd

/-! ## Parents of children -/

/-- The text of a parent holds no other characters. -/
theorem zeroFree_parent? (h : p.parent? = some q) (hp : ZeroFree p.text) : ZeroFree q.text := by
  unfold parent? at h
  split at h
  · cases h
  · split at h
    · cases h
    · cases h
      decide
  · next last more _ hs =>
    split at h
    · cases h
      decide
    · cases h
      unfold ZeroFree
      rw [String.toList_ofList, List.any_eq_false]
      intro x hx
      rcases Text.mem_of_mem_joinWith hx with rfl | ⟨piece, hm, hx⟩
      · decide
      · have hmem : piece ∈ p.pieces := by
          have hmore : piece ∈ more := (trimFiller_suffix more).subset (List.mem_reverse.mp hm)
          have hsig : piece ∈ p.significant := by
            rw [hs]
            exact List.mem_cons_of_mem _ hmore
          exact List.mem_reverse.mp ((trimFiller_suffix _).subset hsig)
        exact List.any_eq_false.mp hp x (Text.mem_of_mem_splitOn hmem hx)

/-- A child has a parent, which leads where the path leads that it is a child of. -/
theorem exists_parent?_child (p : Path) (hn : IsEntryName n.toList) :
    ∃ q, (p.child n).parent? = some q ∧ q.isAbsolute = p.isAbsolute ∧ steps q = steps p ∧
      (ZeroFree (p.child n).text → ZeroFree q.text) := by
  obtain ⟨q, hq⟩ : ∃ q, (p.child n).parent? = some q := by
    obtain ⟨init, -, hs⟩ := p.significant_child hn
    unfold parent?
    rw [hs]
    cases init.reverse with
    | nil => exact ⟨_, if_neg (by simpa using hn.2.1)⟩
    | cons piece more =>
      dsimp only
      split
      · exact ⟨_, rfl⟩
      · exact ⟨_, rfl⟩
  obtain ⟨habs, hsteps⟩ := steps_of_parent? hq
  rw [steps_child p hn, List.dropLast_concat] at hsteps
  exact ⟨q, hq, habs.trans (isAbsolute_child p (isStep_of_isEntryName hn)), hsteps, zeroFree_parent? hq⟩

/-! ## Paths that lead to a directory from outside -/

/-- A path leads to the directory `home` without going through what lies in it. -/
structure LeadsFromOutside (t : FileTree) (cwd : Key) (p : Path) (home : Key) : Prop where
  start : (t.emptied home).get? (startOf cwd p.text.toList) = some .directory
  leads : Leads (t.emptied home) cwd p home

/-- What is there without the entries of `home` is there with them. -/
theorem leads_of_emptied (h : Leads (t.emptied home) cwd p k) : Leads t cwd p k :=
  h.grow (fun _ hj => (eq_of_get?_emptied hj).2) fun _ _ hj => (eq_of_get?_emptied hj).2

namespace LeadsFromOutside

theorem toLeads (h : t.LeadsFromOutside cwd p home) : Leads t cwd p home := leads_of_emptied h.leads

theorem start' (h : t.LeadsFromOutside cwd p home) :
    t.get? (startOf cwd p.text.toList) = some .directory := (eq_of_get?_emptied h.start).2

/-- Whatever happens in the directory does not matter. -/
theorem of_outside (h : t.LeadsFromOutside cwd p home)
    (hout : ∀ k, isBelow home k = false → t'.get? k = t.get? k) : t'.LeadsFromOutside cwd p home := by
  have hsame : ∀ k, (t'.emptied home).get? k = (t.emptied home).get? k := by
    intro k
    rw [get?_emptied, get?_emptied]
    split
    · rfl
    · next hk => exact hout k (by simpa using hk)
  exact ⟨(hsame _).trans h.start, h.leads.grow (fun k hk => (hsame k).trans hk)
    fun k target hk => (hsame k).trans hk⟩

/-- With more directories and the same links it still does. -/
theorem of_changesOnly (h : t.LeadsFromOutside cwd p home) (hc : ChangesOnly (fun _ => False) t t') :
    t'.LeadsFromOutside cwd p home := by
  have hkeep : ∀ k, (t.emptied home).get? k = some .directory → (t'.emptied home).get? k = some .directory := by
    intro k hk
    obtain ⟨hout, hk⟩ := eq_of_get?_emptied hk
    rw [get?_emptied_of_outside _ hout]
    rcases hc.frame k nofun with he | ⟨hnone, -⟩
    · exact he.trans hk
    · cases hk.symm.trans hnone
  refine ⟨hkeep _ h.start, h.leads.grow hkeep fun k target hk => ?_⟩
  obtain ⟨hout, hk⟩ := eq_of_get?_emptied hk
  rw [get?_emptied_of_outside _ hout]
  exact (hc.links k target).mpr hk

theorem congr (habs : q.isAbsolute = p.isAbsolute) (hsteps : steps q = steps p)
    (h : t.LeadsFromOutside cwd p home) : t.LeadsFromOutside cwd q home := by
  have hstart := startOf_eq_of_isAbsolute habs cwd
  exact ⟨hstart ▸ h.start, (Leads.congr hstart hsteps).mpr h.leads⟩

theorem get?_home (h : t.LeadsFromOutside cwd p home) (hw : t.WellFormed) :
    t.get? home = some .directory := by
  obtain ⟨m, -, hwalk⟩ := h.leads
  exact (eq_of_get?_emptied (hwalk.get?_directory (hw.emptied home) h.start)).2

/-- An ancestor of a path that leads to a directory from outside leads to no place in it. -/
theorem isBelow_of_ancestor (h : t.LeadsFromOutside cwd p home) (hw : t.WellFormed)
    (habs : q.isAbsolute = p.isAbsolute) (hsteps : steps q <+: steps p) (hq : Leads t cwd q k) :
    isBelow home k = false := by
  have hstart := startOf_eq_of_isAbsolute habs cwd
  obtain ⟨j, hj⟩ := h.leads.of_prefix hstart hsteps
  obtain rfl := hq.unique (leads_of_emptied hj)
  obtain ⟨m, -, hwalk⟩ := hj
  exact (eq_of_get?_emptied (hwalk.get?_directory (hw.emptied home) (hstart ▸ h.start))).1

end LeadsFromOutside

/-- After a directory was made by a path of one name below `root`, it is there. -/
theorem made_child {root : Path} {d : Key} (hn : IsEntryName n.toList)
    (h : t.makeDirectories cwd (root.child n) = .ok t') (hw : t'.WellFormed)
    (hstart : t'.get? (startOf cwd root.text.toList) = some .directory) (hl : Leads t' cwd root d)
    (hc : ∀ target, t'.get? (d ++ [n]) ≠ some (.link target)) :
    ZeroFree root.text ∧ t'.get? (d ++ [n]) = some .directory := by
  refine ⟨((zeroFree_child hn).mp (zeroFree_of_makeDirectories (endsWithSeparator_child root hn)
    (toList_child_ne_nil root hn) h)).1, ?_⟩
  obtain ⟨k, hk⟩ := leads_of_makeDirectories (endsWithSeparator_child root hn)
    (toList_child_ne_nil root hn) h
  obtain rfl := hl.eq_of_child hn hc hk
  obtain ⟨m, -, hwalk⟩ := hk
  rw [startOf_child _ _ (isStep_of_isEntryName hn)] at hwalk
  exact hwalk.get?_directory hw hstart

/-- When a directory is made in one that is reached from outside, nothing else is made there. -/
theorem get?_of_makeDirectories_child (hn : IsEntryName n.toList)
    (h : t.makeDirectories cwd (p.child n) = .ok t') (hw : t'.WellFormed)
    (hl : t'.LeadsFromOutside cwd p home) (hlink : ∀ target, t'.get? (home ++ [n]) ≠ some (.link target))
    (hk : isBelow home k = true) (hkn : k ≠ home ++ [n]) : t'.get? k = t.get? k := by
  by_contra hne
  obtain ⟨q, hq, hlead⟩ := leads_of_makeDirectories_changed h hne
  rcases eq_or_steps_of_mem_ancestors_child hn hq with rfl | ⟨habs, hsteps⟩
  · exact hkn (hl.toLeads.eq_of_child hn hlink hlead)
  · rw [hl.isBelow_of_ancestor hw (habs.trans (isAbsolute_child p (isStep_of_isEntryName hn))) hsteps
      hlead] at hk
    cases hk

end CipherCorpus.FileTree
