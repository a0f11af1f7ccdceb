import CipherCorpus.Proofs.FileTree.Answers
import CipherCorpus.Proofs.Sources.Calls

/-!
# Sources in a root

Once the binaries directory of a dataset is there, its root leads to a directory, and does so without going
through what lies in it (`Rooted`).  While no link stands at the places that a build looks at (`Watched`),
the sources directory and its downloads directory can be made when nothing else has their names (`Open`),
and nothing else is made with them (`Rooted.makeDownloads`).  So the cache may be filled (`Rooted.liesAt`).
-/

namespace CipherCorpus

open FileTree CipherCorpus.Path
open Archive (under)

variable {root : Path} {cwd top k : Key} {t t' : FileTree} {m n c : String} {h : Host} {f : Bool}

/-! ## Two names below a directory -/

namespace FileTree

/-- Below a name that nothing has, nothing is found. -/
theorem resolve_child_of_free {d : Key} (hl : Leads t cwd root d) (hm : IsFileName m)
    (hg : t.get? (d ++ [m]) = none) (hn : IsEntryName n.toList) :
    t.resolve cwd f ((root.child m).child n) =
      if ((root.child m).child n).text.toList.any (·.toNat == 0) then .error .zeroInPath
      else .error .notFound := by
  have hsm := isStep_of_isEntryName hm.entry
  have hsn := isStep_of_isEntryName hn
  obtain ⟨i, hi, hw⟩ := hl
  unfold resolve
  dsimp only
  split
  · rfl
  rw [if_neg (by simpa using toList_child_ne_nil (root.child m) hn), startOf_child _ _ hsn, startOf_child _ _ hsm,
    walkNames_child _ hsn, pathNames_child _ hsn, pathNames_child _ hsm, List.append_assoc,
    hw.walk_append (by simp) hi, List.singleton_append, walk, scan, if_neg hm.looksUp.notHere,
    if_neg hm.looksUp.notUp, if_neg (Nat.not_lt.mpr hm.looksUp.size)]
  dsimp only
  rw [hg]
  rfl

/-- After a child of a child its parent is made. -/
theorem ancestors_child_child (p : Path) (hm : IsEntryName m.toList) (hn : IsEntryName n.toList) :
    ∃ rest, ((p.child m).child n).ancestors = (p.child m).child n :: p.child m :: rest := by
  obtain ⟨init, hi⟩ := p.exists_pieces_child hm.1
  have hparent := parent?_child hi hm hn
  obtain ⟨init', hi'⟩ := (p.child m).exists_pieces_child hn.1
  unfold ancestors
  rw [hi', List.length_append, List.length_singleton, ancestors.go, hparent]
  dsimp only
  obtain ⟨rest, hrest⟩ := exists_go_eq_cons init'.length (p.child m)
  exact ⟨rest, by rw [hrest]⟩

/-- A directory is made together with the one it is to be in. -/
theorem makeDirectories_child_of_free {d : Key} (hl : Leads t cwd root d) (hzero : ZeroFree root.text)
    (hm : IsFileName m) (hn : IsFileName n) (hg : t.get? (d ++ [m]) = none)
    (hg' : t.get? (d ++ [m] ++ [n]) = none) : t.makeDirectories cwd ((root.child m).child n) =
      .ok ((t.put (d ++ [m]) .directory).put (d ++ [m] ++ [n]) .directory) := by
  have hzero1 : ZeroFree (root.child m).text := (zeroFree_child hm.entry).mpr ⟨hzero, hm.zeroFree⟩
  have hzero2 : ZeroFree ((root.child m).child n).text := (zeroFree_child hn.entry).mpr ⟨hzero1, hn.zeroFree⟩
  have htext1 : (root.child m).text ≠ "" := fun he =>
    toList_child_ne_nil _ hm.entry (String.toList_eq_nil_iff.mpr he)
  have htext2 : ((root.child m).child n).text ≠ "" := fun he =>
    toList_child_ne_nil _ hn.entry (String.toList_eq_nil_iff.mpr he)
  have hfirst : t.makeDirectory cwd ((root.child m).child n) = .error .notFound := by
    unfold makeDirectory
    rw [withoutSeparator_eq (endsWithSeparator_child _ hn.entry), resolve_child_of_free hl hm hg hn.entry,
      if_neg (Bool.not_eq_true _ ▸ hzero2)]
    rfl
  have hlink : ∀ target, t.get? (d ++ [m]) ≠ some (.link target) := by
    rw [hg]
    exact nofun
  have hsecond : t.makeDirectory cwd (root.child m) = .ok (t.put (d ++ [m]) .directory) :=
    (makeDirectory_child_iff hl hm.entry hlink).mpr ⟨⟨hzero, hm⟩, hg, rfl⟩
  obtain ⟨rest, hrest⟩ := ancestors_child_child root hm.entry hn.entry
  have hparents : t.makeChain cwd (root.child m :: rest) = .ok (t.put (d ++ [m]) .directory) := by
    rw [makeChain_of_ne htext1 (by rw [hsecond]; simp), hsecond]
    rfl
  unfold makeDirectories
  rw [hrest, makeChain_of_notFound htext2 hfirst, hparents]
  dsimp only [bind, Except.bind]
  -- now that its parent is there, the first one can be made
  generalize ht1 : t.put (d ++ [m]) .directory = t1
  have hput : t1.get? (d ++ [m]) = some .directory := ht1 ▸ get?_put_self t _ (by simp)
  have hkeep : ∀ {k : Key} {e : Entry}, t.get? k = some e → t1.get? k = some e := by
    intro k e hk
    have hne : k ≠ d ++ [m] := by
      rintro rfl
      cases hg.symm.trans hk
    exact ht1 ▸ (get?_put_ne t _ hne).trans hk
  have hl1 : Leads t1 cwd (root.child m) (d ++ [m]) := (hl.grow (fun _ => hkeep) fun _ _ => hkeep).child hm hput
  have hg1 : t1.get? (d ++ [m] ++ [n]) = none := ht1 ▸ (get?_put_ne t _ (by simp)).trans hg'
  have hlink1 : ∀ target, t1.get? (d ++ [m] ++ [n]) ≠ some (.link target) := by
    rw [hg1]
    exact nofun
  rw [(makeDirectory_child_iff hl1 hn.entry hlink1).mpr ⟨⟨hzero1, hn⟩, hg1, rfl⟩]
  rfl

/-- A directory in one that is reached from outside is reached so as well. -/
theorem LeadsFromOutside.child (h : t.LeadsFromOutside cwd root top) (hn : IsFileName n)
    (hg : t.get? (top ++ [n]) = some .directory) : t.LeadsFromOutside cwd (root.child n) (top ++ [n]) := by
  have hout : ∀ {k : Key} {e : Entry}, (t.emptied top).get? k = some e →
      (t.emptied (top ++ [n])).get? k = some e := by
    intro k e hk
    obtain ⟨hk, he⟩ := eq_of_get?_emptied hk
    refine (get?_emptied_of_outside t ?_).trans he
    rw [← Bool.not_eq_true, isBelow_iff]
    rintro ⟨x, -, rfl⟩
    rw [List.append_assoc, isBelow_append (by simp)] at hk
    cases hk
  refine ⟨?_, (h.leads.grow (fun _ => hout) fun _ _ => hout).child hn
    ((get?_emptied_of_outside t (isBelow_self _)).trans hg)⟩
  rw [startOf_child _ _ (isStep_of_isEntryName hn.entry)]
  exact hout h.start

end FileTree

namespace SourceCache

/-! ## A root in use -/

/-- The sources directory in a root. -/
abbrev sourcesIn (top : Key) : Key := top ++ ["sources"]

/-- The binaries directory in a root. -/
abbrev binariesIn (top : Key) : Key := top ++ ["binaries"]

/-- The directory of a library's binaries.  A library without a name has the binaries directory itself. -/
def libraryIn (top : Key) (library : String) : Key :=
  if library = "" then binariesIn top else binariesIn top ++ [library]

/-- A place that a build looks at. -/
inductive Watched (top : Key) : Key → Prop where
  | entry (n : String) : Watched top (top ++ [n])
  | source (n : String) : Watched top (sourcesIn top ++ [n])
  | archive (n : String) : Watched top (archiveKey (sourcesIn top) n)
  | library (n : String) : Watched top (binariesIn top ++ [n])
  | binary (l n : String) : Watched top (binariesIn top ++ [l] ++ [n])

/-- The root leads to the directory `top` without going through what lies in it, the binaries directory is
there, and no place that a build looks at is a link. -/
structure Rooted (root : Path) (cwd top : Key) (t : FileTree) : Prop where
  tree : t.WellFormed
  zeroFree : ZeroFree root.text
  leads : t.LeadsFromOutside cwd root top
  binaries : t.get? (binariesIn top) = some .directory
  noLink : ∀ k, Watched top k → ∀ target, t.get? k ≠ some (.link target)

/-- Where the sources directory and its downloads directory are to be, nothing or a directory is. -/
structure Open (home : Key) (t : FileTree) : Prop where
  sources : t.get? home = none ∨ t.get? home = some .directory
  downloads : t.get? (home ++ [".downloads"]) = none ∨ t.get? (home ++ [".downloads"]) = some .directory

/-- The cache of the sources in a root. -/
abbrev inRoot (root : Path) (fetch : Fetcher) : SourceCache := ⟨root.child "sources", fetch⟩

theorem prefix_libraryIn (top : Key) (library : String) : binariesIn top <+: libraryIn top library := by
  unfold libraryIn
  split
  · exact List.prefix_refl _
  · exact List.prefix_append _ _

theorem Watched.inLibrary (top : Key) (library n : String) : Watched top (libraryIn top library ++ [n]) := by
  unfold libraryIn
  split
  · exact .library n
  · exact .binary library n

/-- Binaries lie below the binaries directory. -/
theorem exists_libraryIn_append (top : Key) (library n : String) :
    ∃ x, x ≠ [] ∧ libraryIn top library ++ [n] = top ++ "binaries" :: x := by
  obtain ⟨x, hx⟩ := prefix_libraryIn top library
  exact ⟨x ++ [n], by simp, by rw [← hx]; simp⟩

theorem isFileName_sources : IsFileName "sources" := by decide

theorem isFileName_binaries : IsFileName "binaries" := by decide

namespace Rooted

/-- When the sources and the downloads are there, the cache is ready. -/
theorem ready (hr : Rooted root cwd top t) (hd : t.get? (sourcesIn top ++ [".downloads"]) = some .directory) :
    Ready (root.child "sources") cwd (sourcesIn top) t where
  tree := hr.tree
  zeroFree := (zeroFree_child isFileName_sources.entry).mpr ⟨hr.zeroFree, by decide⟩
  leads := hr.leads.child isFileName_sources (hr.tree.parent _ _ (by rw [hd]; exact nofun))
  downloads := hd
  entry n := hr.noLink _ (.source n)
  archive n := hr.noLink _ (.archive n)

/-- The root stays in use while nothing changes outside of the sources and these are ready. -/
theorem of_ready (hr : Rooted root cwd top t) (hready : Ready (root.child "sources") cwd (sourcesIn top) t')
    (hag : AgreeOff (sourcesIn top <+: ·) t t') : Rooted root cwd top t' := by
  have hother : ∀ {m : String} {x : Key}, m ≠ "sources" → t'.get? (top ++ m :: x) = t.get? (top ++ m :: x) :=
    fun hm => hag _ fun hp => hm (prefix_below.mp hp).symm
  refine ⟨hready.tree, hr.zeroFree, hr.leads.of_outside fun k hk => hag k ?_, ?_, fun k hk target => ?_⟩
  · rintro ⟨x, rfl⟩
    rw [List.append_assoc, isBelow_append (by simp)] at hk
    cases hk
  · exact (hother (x := []) (by decide)).trans hr.binaries
  · cases hk with
    | entry n =>
      by_cases hn : n = "sources"
      · subst hn
        rw [hready.leads.get?_home hready.tree]
        exact nofun
      · rw [hother (x := []) hn]
        exact hr.noLink _ (.entry n) target
    | source n => exact hready.entry n target
    | archive n => exact hready.archive n target
    | library n =>
      have hkey : binariesIn top ++ [n] = top ++ "binaries" :: [n] := List.append_assoc ..
      rw [hkey, hother (by decide), ← hkey]
      exact hr.noLink _ (.library n) target
    | binary l n =>
      have hkey : binariesIn top ++ [l] ++ [n] = top ++ "binaries" :: [l, n] := by simp
      rw [hkey, hother (by decide), ← hkey]
      exact hr.noLink _ (.binary l n) target

/-- So does it when one entry changes in it, other than the binaries directory, and not to a link. -/
theorem of_entry {m : String} {x : Key} (hr : Rooted root cwd top t) (hne : m :: x ≠ ["binaries"])
    (hw : t'.WellFormed) (hag : AgreeOff (· = top ++ m :: x) t t')
    (hlink : ∀ target, t'.get? (top ++ m :: x) ≠ some (.link target)) : Rooted root cwd top t' where
  tree := hw
  zeroFree := hr.zeroFree
  leads := hr.leads.of_outside fun k hk => hag k fun he => by
    rw [he, isBelow_append (by simp)] at hk
    cases hk
  binaries := (hag _ fun he => hne (List.append_cancel_left he).symm).trans hr.binaries
  noLink k hk target := by
    by_cases he : k = top ++ m :: x
    · exact he ▸ hlink target
    · rw [hag k he]
      exact hr.noLink k hk target

/-- The directory of a library's binaries, when it is there. -/
theorem leads_library (hr : Rooted root cwd top t) {library : String}
    (hd : t.get? (libraryIn top library) = some .directory) :
    Leads t cwd ((root.child "binaries").child library) (libraryIn top library) := by
  have hl := hr.leads.toLeads.child isFileName_binaries hr.binaries
  unfold libraryIn at hd ⊢
  split at hd
  · next he =>
    rw [if_pos he, he]
    exact Leads.child_empty.mpr hl
  · next hne =>
    rw [if_neg hne]
    exact hl.child (hr.tree.name _ _ (by rw [hd]; simp)) hd

/-- The name of a directory that is there is a name of an entry. -/
theorem nameless_or_isEntryName (hr : Rooted root cwd top t) {library : String}
    (hd : t.get? (libraryIn top library) = some .directory) : library = "" ∨ IsEntryName library.toList := by
  by_cases he : library = ""
  · exact Or.inl he
  · rw [libraryIn, if_neg he] at hd
    exact Or.inr (hr.tree.name _ _ (by rw [hd]; simp)).entry

/-- Without a name, the directory is there already. -/
theorem makeDirectories_nameless (hr : Rooted root cwd top t) :
    t.makeDirectories cwd ((root.child "binaries").child "") = .ok t := by
  obtain ⟨seps, hseps, htext, -⟩ := toList_child_empty (root.child "binaries")
  have hthere : t.get? (libraryIn top "") = some .directory := hr.binaries
  refine makeDirectories_of_leads ?_ (hr.leads_library hthere)
  unfold ZeroFree
  rw [htext, zeroFree_append]
  refine ⟨(zeroFree_child isFileName_binaries.entry).mpr ⟨hr.zeroFree, by decide⟩, ?_⟩
  rw [List.any_eq_false]
  intro c hc
  rw [hseps c hc]
  decide

/-- Its path starts at a directory. -/
theorem start_library (hr : Rooted root cwd top t) {library : String}
    (hl : library = "" ∨ IsEntryName library.toList) :
    t.get? (startOf cwd ((root.child "binaries").child library).text.toList) = some .directory := by
  have hstart : startOf cwd ((root.child "binaries").child library).text.toList =
      startOf cwd (root.child "binaries").text.toList := by
    rcases hl with rfl | hl
    · exact startOf_child_empty _ _
    · exact startOf_child _ _ (isStep_of_isEntryName hl)
  rw [hstart, startOf_child _ _ (isStep_of_isEntryName isFileName_binaries.entry)]
  exact hr.leads.start'

/-- It stays in use when the downloads directory is made. -/
theorem of_makeDownloads (hr : Rooted root cwd top t)
    (hm : t.makeDirectories cwd (Layout.downloadsOf (root.child "sources")) = .ok t') : Rooted root cwd top t' := by
  have hc := changesOnly_makeDirectories hm
  refine ⟨hr.tree.makeDirectories (fun q hq => ?_) hm, hr.zeroFree, hr.leads.of_changesOnly hc, ?_,
    fun k hk target hg => hr.noLink k hk target ((hc.links k target).mp hg)⟩
  · rw [startOf_of_mem_ancestors hq]
    show t.get? (startOf cwd ((root.child "sources").child ".downloads").text.toList) = _
    rw [startOf_child _ _ (isStep_of_isEntryName isEntryName_downloads),
      startOf_child _ _ (isStep_of_isEntryName isFileName_sources.entry)]
    exact hr.leads.start'
  · rcases hc.frame (binariesIn top) not_false with he | ⟨hnone, -⟩
    · exact he.trans hr.binaries
    · cases hnone.symm.trans hr.binaries

/-- The path of the sources leads to their directory only. -/
theorem get?_sources_of_leads (hr : Rooted root cwd top t) (hk : Leads t cwd (root.child "sources") k) :
    k = sourcesIn top ∧ t.get? (sourcesIn top) = some .directory := by
  obtain rfl := hr.leads.toLeads.eq_of_child isFileName_sources.entry (hr.noLink _ (.entry _)) hk
  obtain ⟨m, -, hwalk⟩ := hk
  refine ⟨rfl, hwalk.get?_directory hr.tree ?_⟩
  rw [startOf_child _ _ (isStep_of_isEntryName isFileName_sources.entry)]
  exact hr.leads.start'

/-- A cached tree is there when the sources hold an entry of its name. -/
theorem isThere_iff (hr : Rooted root cwd top t) (hc : IsEntryName c.toList) :
    t.isThere cwd ((root.child "sources").child c) = true ↔ t.get? (sourcesIn top ++ [c]) ≠ none := by
  by_cases hdir : t.get? (sourcesIn top) = some .directory
  · rw [isThere_child_iff (hr.leads.toLeads.child isFileName_sources hdir) hc (hr.noLink _ (.source c))]
    refine and_iff_right_of_imp fun hg => ⟨?_, hr.tree.name _ c hg⟩
    exact (zeroFree_child isFileName_sources.entry).mpr ⟨hr.zeroFree, by decide⟩
  · refine iff_of_false (fun hthere => ?_) fun hne => hne (hr.tree.get?_append hdir (by simp))
    unfold isThere stat at hthere
    cases hres : t.resolve cwd true ((root.child "sources").child c) with
    | ok pl =>
      have hname : ∀ n ∈ [c], IsEntryName n.toList := List.forall_mem_singleton.mpr hc
      obtain ⟨k, -, hk, -⟩ := leads_of_resolve hname (by simp) hres
      exact hdir (hr.get?_sources_of_leads hk).2
    | error e =>
      rw [hres] at hthere
      cases hthere

variable (hr : Rooted root cwd top t) (ho : Open (sourcesIn top) t)
include hr ho

/-- The downloads directory can be made, and nothing but the sources directory is made with it. -/
theorem makeDownloads : ∃ t', t.makeDirectories cwd (Layout.downloadsOf (root.child "sources")) = .ok t' ∧
    Ready (root.child "sources") cwd (sourcesIn top) t' ∧
    ∀ k, k ≠ sourcesIn top → k ≠ sourcesIn top ++ [".downloads"] → t'.get? k = t.get? k := by
  have hl := hr.leads.toLeads
  obtain ⟨t', hm, hd, hsame⟩ : ∃ t', t.makeDirectories cwd (Layout.downloadsOf (root.child "sources")) = .ok t' ∧
      t'.get? (sourcesIn top ++ [".downloads"]) = some .directory ∧
      ∀ k, k ≠ sourcesIn top → k ≠ sourcesIn top ++ [".downloads"] → t'.get? k = t.get? k := by
    rcases ho.sources with hnone | hdir
    · have hdown : t.get? (sourcesIn top ++ [".downloads"]) = none :=
        hr.tree.get?_append (by rw [hnone]; simp) (by simp)
      exact ⟨_, makeDirectories_child_of_free hl hr.zeroFree isFileName_sources isFileName_downloads hnone hdown,
        get?_put_self _ _ (by simp), fun k hs hd => (get?_put_ne _ _ hd).trans (get?_put_ne _ _ hs)⟩
    · have hmake := fun t' => (makeDirectories_child_iff (hl.child isFileName_sources hdir)
        isEntryName_downloads (hr.noLink _ (.source ".downloads")) : _ = Except.ok t' ↔ _)
      have hfit : ZeroFree (root.child "sources").text ∧ IsFileName ".downloads" :=
        ⟨(zeroFree_child isFileName_sources.entry).mpr ⟨hr.zeroFree, by decide⟩, isFileName_downloads⟩
      rcases ho.downloads with hnone | hthere
      · exact ⟨_, (hmake _).mpr ⟨hfit, Or.inl ⟨hnone, rfl⟩⟩, get?_put_self _ _ (by simp),
          fun k _ hd => get?_put_ne _ _ hd⟩
      · exact ⟨t, (hmake t).mpr ⟨hfit, Or.inr ⟨hthere, rfl⟩⟩, hthere, fun _ _ _ => rfl⟩
  exact ⟨t', hm, (hr.of_makeDownloads hm).ready hd, hsame⟩

end Rooted

/-- Once the binaries directory is made, the root is in use. -/
theorem rooted_of_made (hw : t.WellFormed) (hstart : t.get? (startOf cwd root.text.toList) = some .directory)
    (hm : t.makeDirectories cwd (root.child "binaries") = .ok t') (hl : t'.LeadsFromOutside cwd root top)
    (hlink : ∀ k target, isBelow top k = true → t.get? k ≠ some (.link target)) : Rooted root cwd top t' := by
  have hc := changesOnly_makeDirectories hm
  have hlink' : ∀ k target, isBelow top k = true → t'.get? k ≠ some (.link target) := fun k target hk hg =>
    hlink k target hk ((hc.links k target).mp hg)
  have hw' : t'.WellFormed := by
    refine hw.makeDirectories (fun q hq => ?_) hm
    rw [startOf_of_mem_ancestors hq, startOf_child _ _ (isStep_of_isEntryName isFileName_binaries.entry)]
    exact hstart
  obtain ⟨hzero, hbinaries⟩ := made_child isFileName_binaries.entry hm hw' hl.start' hl.toLeads fun target =>
    hlink' _ target (isBelow_append (by simp))
  refine ⟨hw', hzero, hl, hbinaries, fun k hk target => hlink' k target ?_⟩
  cases hk with
  | entry n => exact isBelow_append (by simp)
  | source n => exact isBelow_of_append [n] (isBelow_append (by simp))
  | archive n => exact isBelow_of_append [n] (isBelow_of_append _ (isBelow_append (by simp)))
  | library n => exact isBelow_of_append [n] (isBelow_append (by simp))
  | binary l n => exact isBelow_of_append [n] (isBelow_of_append [l] (isBelow_append (by simp)))

/-- When the downloads directory can be made, nothing else has its name or that of the sources. -/
theorem Rooted.open_of_made (hr : Rooted root cwd top t)
    (hm : t.makeDirectories cwd (Layout.downloadsOf (root.child "sources")) = .ok t') :
    Open (sourcesIn top) t := by
  have hn := isEntryName_downloads
  have hr' := hr.of_makeDownloads hm
  -- the path leads through the sources to the downloads
  obtain ⟨k, hk⟩ := leads_of_makeDirectories (endsWithSeparator_child _ hn) (toList_child_ne_nil _ hn) hm
  obtain ⟨j, hj⟩ : ∃ j, Leads t' cwd (root.child "sources") j := hk.of_prefix
    (startOf_child _ _ (isStep_of_isEntryName hn)).symm (by rw [steps_child _ hn]; exact List.prefix_append _ _)
  obtain ⟨rfl, hhome⟩ := hr'.get?_sources_of_leads hj
  have hstart : t'.get? (startOf cwd (root.child "sources").text.toList) = some .directory := by
    rw [startOf_child _ _ (isStep_of_isEntryName isFileName_sources.entry)]
    exact hr'.leads.start'
  have hdown : t'.get? (sourcesIn top ++ [".downloads"]) = some .directory :=
    (made_child hn hm hr'.tree hstart hj (hr'.noLink _ (.source _))).2
  have hbefore : ∀ {k}, t'.get? k = some .directory → t.get? k = none ∨ t.get? k = some .directory := by
    intro k hk
    rcases (changesOnly_makeDirectories hm).frame k not_false with he | ⟨hnone, -⟩
    · exact Or.inr (he.symm.trans hk)
    · exact Or.inl hnone
  exact ⟨hbefore hhome, hbefore hdown⟩

/-- The cache may be filled. -/
theorem Rooted.liesAt (hr : Rooted root h.cwd top h.files) (ho : Open (sourcesIn top) h.files) :
    LiesAt (root.child "sources") (sourcesIn top) h where
  tree := hr.tree
  start := by
    rw [startOf_child _ _ (isStep_of_isEntryName isFileName_sources.entry)]
    exact hr.leads.start'
  there hne := hr.leads.child isFileName_sources (ho.sources.resolve_left hne)
  leads t hm := by
    obtain ⟨t', hm', hready, -⟩ := hr.makeDownloads ho
    cases hm.symm.trans hm'
    exact hready.leads
  entry n := hr.noLink _ (.source n)
  archive n := hr.noLink _ (.archive n)

end SourceCache

end CipherCorpus
