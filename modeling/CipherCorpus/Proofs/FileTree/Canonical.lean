import CipherCorpus.Proofs.FileTree.Home

/-!
# Canonical paths

The path of a key holds the names of the key and nothing else (`pathNames_pathOf`), so while no link is on
the way it leads to the key (`Host.ClearAt.home`).  A path that leads to a directory without going
through what lies in it leads there whatever happens in the directory (`stat_of_emptied`).
-/

namespace CipherCorpus

open FileTree CipherCorpus.Path Text

namespace FileTree

variable {t t' : FileTree} {cwd home k : Key} {p : Path}

/-! ## Names of a canonical path -/

theorem pathNames_intercalate {ns : List String} (hn : ∀ n ∈ ns, IsStep n) :
    pathNames ("/".intercalate ns).toList = ns := by
  induction ns with
  | nil => rfl
  | cons n rest ih =>
    obtain ⟨h, hrest⟩ := List.forall_mem_cons.mp hn
    cases rest with
    | nil => exact pathNames_of_isStep h
    | cons m rest =>
      have hsep : ("/".intercalate (n :: m :: rest)).toList =
          n.toList ++ '/' :: ("/".intercalate (m :: rest)).toList := by
        rw [String.intercalate_cons_cons, String.toList_append, String.toList_append, List.append_assoc]
        rfl
      rw [hsep, pathNames_append_sep, pathNames_of_isStep h, ih hrest]
      rfl

theorem toList_pathOf (k : Key) : (pathOf k).text.toList = '/' :: ("/".intercalate k).toList := by
  unfold pathOf
  rw [String.toList_append]
  rfl

theorem pathNames_pathOf (hk : ∀ n ∈ k, IsStep n) : pathNames (pathOf k).text.toList = k := by
  rw [toList_pathOf]
  exact (pathNames_append_sep [] _).trans (pathNames_intercalate hk)

theorem startOf_pathOf (cwd k : Key) : startOf cwd (pathOf k).text.toList = [] := by
  rw [toList_pathOf]
  rfl

/-- A path that starts at the root wherever it is read is not a relative text. -/
theorem text_ne_of_startOf {text : String} (hp : ∀ cwd, startOf cwd p.text.toList = [])
    (ht : isAbsolute ⟨text⟩ = false) : p.text ≠ text := by
  rintro rfl
  have hstart := hp ["x"]
  rw [startOf, show (p.text.toList.head? == some '/') = false from ht] at hstart
  cases hstart

/-! ## Resolving by names -/

/-- On a way without links the place of a path is at its names. -/
theorem key_of_resolve {pl : Place} (hc : t.ClearTo (startOf cwd p.text.toList ++ pathNames p.text.toList))
    (hn : ∀ n ∈ pathNames p.text.toList, IsEntryName n.toList) (h : t.resolve cwd true p = .ok pl) :
    pl.key = startOf cwd p.text.toList ++ pathNames p.text.toList := by
  obtain ⟨-, n, -, hw⟩ := resolve_iff.mp h
  rcases walkNames_eq p.text.toList with he | he
  · rw [he] at hw
    exact hw.key_eq hc hn
  · rw [he] at hw
    obtain ⟨k, m, more, -, hk, hdot⟩ := hw.split (by simp)
    cases hdot with
    | place hdot =>
      cases scans_here.mp hdot
      exact hk.key_eq hc hn
    | link hdot => cases scans_here.mp hdot

/-- A path names a directory when it leads there. -/
theorem stat_directory_iff : t.stat cwd p = .ok (k, .directory) ↔
    (p.text.toList.any (·.toNat == 0) = false ∧ p.text.toList ≠ []) ∧ Leads t cwd p k := by
  constructor
  · intro h
    obtain ⟨htext, n, hlim, hw⟩ := resolve_iff.mp (stat_eq h)
    refine ⟨htext, ?_⟩
    rcases walkNames_eq p.text.toList with he | he
    · exact ⟨n, hlim, he ▸ hw⟩
    · rw [he] at hw
      obtain ⟨k', m, more, hm, hk, hdot⟩ := hw.split (by simp)
      cases hdot with
      | place hdot =>
        cases scans_here.mp hdot
        exact ⟨m, by omega, hk⟩
      | link hdot => cases scans_here.mp hdot
  · rintro ⟨htext, n, hlim, hw⟩
    have hwalk : Walks t true n (startOf cwd p.text.toList) (walkNames p.text.toList)
        (.present k .directory) := by
      rcases walkNames_eq p.text.toList with he | he
      · rwa [he]
      · rw [he]
        exact hw.append (by simp) (.here (.done k))
    unfold stat
    rw [resolve_iff.mpr ⟨htext, n, hlim, hwalk⟩]
    rfl

/-! ## A directory without what lies in it -/

/-- The tree without what lies strictly under a key. -/
def emptied (t : FileTree) (top : Key) : FileTree := ⟨t.entries.filter fun e => !isBelow top e.1⟩

theorem get?_emptied (t : FileTree) (top k : Key) :
    (t.emptied top).get? k = if isBelow top k then none else t.get? k := by
  unfold emptied get?
  by_cases hk : k = []
  · subst hk
    have : isBelow top [] = false := by cases top <;> rfl
    simp [this]
  · rw [if_neg hk, if_neg hk, lookup_filter_key (fun k => !isBelow top k)]
    cases isBelow top k <;> rfl

theorem isBelow_of_prefix {n : String} {ns : List String} (h : home ++ n :: ns <+: k) :
    isBelow home k = true := by
  unfold isBelow
  rw [Bool.and_eq_true, List.isPrefixOf_iff_prefix, bne_iff_ne]
  refine ⟨(List.prefix_append _ _).trans h, ?_⟩
  rintro rfl
  have hlength := h.length_le
  rw [List.length_append, List.length_cons] at hlength
  omega

/-- A path that leads to a directory from outside leads there after any change inside. -/
theorem stat_of_emptied (hch : ChangesOnly (isBelow home · = true) t t')
    (h : (t.emptied home).stat cwd p = .ok (home, .directory)) :
    t'.stat cwd p = .ok (home, .directory) := by
  obtain ⟨htext, hl⟩ := stat_directory_iff.mp h
  refine stat_directory_iff.mpr ⟨htext, hl.grow (fun k hk => ?_) fun k target hk => ?_⟩
  · rw [get?_emptied] at hk
    split at hk
    · cases hk
    · next hout => exact hch.get?_eq hout hk
  · rw [get?_emptied] at hk
    split at hk
    · cases hk
    · exact (hch.links k target).mpr hk

end FileTree

/-! ## The home of a canonical path -/

/-- Entries and the names of `home` are proper names, and no link lies at `home`, under it or on the way
to it. -/
structure Host.ClearAt (h : Host) (home : Key) : Prop where
  names : ∀ n ∈ home, IsEntryName n.toList
  named : h.files.Named
  clearTo : h.files.ClearTo home
  clearUnder : h.files.ClearUnder home

/-- Without links every key is clear. -/
theorem Host.clearAt_of_no_links {h : Host} {home : Key} (hn : ∀ n ∈ home, IsEntryName n.toList)
    (he : ∀ e ∈ h.files.entries,
      (∀ n ∈ e.1, IsEntryName n.toList) ∧ (e.2.isDirectory || e.2.isFile) = true) : h.ClearAt home := by
  have hlink := get?_ne_link fun e hm => (he e hm).2
  exact ⟨hn, (plain_of_no_links (pathOf home) he).named, fun k target _ => hlink k target,
    fun k target _ => hlink k target⟩

theorem Host.ClearAt.home {h : Host} {home : Key} (hc : h.ClearAt home) : Home (pathOf home) home h := by
  refine ⟨fun t k hl hk => ?_, hc.clearTo, hc.clearUnder, hc.named⟩
  obtain ⟨n, -, hw⟩ := hk
  have hnames : pathNames (pathOf home).text.toList = home :=
    pathNames_pathOf fun n hn => isStep_of_isEntryName (hc.names n hn)
  rw [startOf_pathOf, hnames] at hw
  have hto : ClearTo t ([] ++ home) := hc.clearTo.of_sameLinks hl
  exact hw.key_eq hto hc.names

end CipherCorpus
