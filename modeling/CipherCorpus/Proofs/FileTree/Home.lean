import CipherCorpus.Host
import CipherCorpus.Proofs.FileTree.Change
import CipherCorpus.Proofs.FileTree.Under

/-!
# A directory that a path leads to

While no link is made or removed, a path leads to one directory only, also when that is removed and made
again in between.  `Home root home h` says so of `root`, and that no link lies under the directory or on
the way to it.  Then a path under `root` is found by its names alone (`Home.resolve_iff`), and what an
operation on such a path changes lies at or under the key `home ++ ns`:

* `Home.removeTree`, `Home.removeFile`, `Home.removeDirectory`, `Home.rename`, `Home.write`
* `Home.touch` for what a tool does that touches only the file it is given.
-/

namespace CipherCorpus

open FileTree CipherCorpus.Path
open Archive (under)

variable {root p : Path} {home cwd k : Key} {h h' h'' : Host} {t t' : FileTree} {ns ms : List String}
  {S S' : Key → Prop}

theorem prefix_of_append {d l : List String} (hk : home ++ (d ++ l) <+: k) : home ++ d <+: k := by
  rw [← List.append_assoc] at hk
  exact (List.prefix_append _ _).trans hk

/-- The hosts differ in entries of `S`, in missing directories, and in what is no file. -/
structure ChangesFiles (S : Key → Prop) (h h' : Host) : Prop where
  cwd : h'.cwd = h.cwd
  files : ChangesOnly S h.files h'.files

theorem ChangesFiles.refl (S : Key → Prop) (h : Host) : ChangesFiles S h h := ⟨rfl, .refl S _⟩

theorem ChangesFiles.trans (h1 : ChangesFiles S h h') (h2 : ChangesFiles S h' h'') :
    ChangesFiles S h h'' := ⟨h2.cwd.trans h1.cwd, h1.files.trans h2.files⟩

theorem ChangesFiles.mono (hc : ChangesFiles S h h') (hs : ∀ k, S k → S' k) : ChangesFiles S' h h' :=
  ⟨hc.cwd, hc.files.mono hs⟩

/-- `h'` differs from `h` at most in the entry that a path names, and no link is made or removed. -/
structure Host.TouchesOnly (h : Host) (p : Path) (h' : Host) : Prop where
  cwd : h'.cwd = h.cwd
  entry : ∀ k, h'.files.get? k ≠ h.files.get? k →
    ∃ place, h.files.resolve h.cwd true p = .ok place ∧ place.key = k
  links : SameLinks h.files h'.files

theorem Host.touchesOnly_refl (h : Host) (p : Path) : h.TouchesOnly p h :=
  ⟨rfl, fun _ hk => absurd rfl hk, .refl _⟩

theorem Host.touchesOnly_write {p : Path} {body : Body} (hr : h.files.write h.cwd p body = .ok t') :
    h.TouchesOnly p { h with files := t' } := by
  obtain ⟨place, x, hres, hp, rfl⟩ := write_eq hr
  have hc := changesOnly_write body hres hp x
  refine ⟨rfl, fun k hk => ⟨place, hres, ?_⟩, hc.links⟩
  exact Decidable.byContradiction fun hne => hk (get?_put_ne _ _ (Ne.symm hne))

/-- `root` leads to the directory `home` and to no other one while the links stay, and there is no link
under it or on the way to it. -/
structure Home (root : Path) (home : Key) (h : Host) : Prop where
  leads : ∀ t k, SameLinks h.files t → Leads t h.cwd root k → k = home
  clearTo : h.files.ClearTo home
  clearUnder : h.files.ClearUnder home
  named : h.files.Named

namespace Home

theorem of_changes (hh : Home root home h) (hc : ChangesFiles S h h') : Home root home h' := by
  refine ⟨fun t k hl hk => ?_, hh.clearTo.of_sameLinks hc.files.links,
    hh.clearUnder.of_sameLinks hc.files.links, hc.files.named hh.named⟩
  rw [hc.cwd] at hk
  exact hh.leads t k (hc.files.links.trans hl) hk

theorem resolve_iff (hh : Home root home h) {f : Bool} {pl : Place}
    (hn : ∀ n ∈ ns, IsEntryName n.toList) (hne : ns ≠ []) :
    h.files.resolve h.cwd f (under root ns) = .ok pl ↔
      (under root ns).text.toList.any (·.toNat == 0) = false ∧ Leads h.files h.cwd root home ∧
        Scans h.files f home ns (.place pl) :=
  resolve_under_iff (fun k => hh.leads _ k (.refl _)) hh.clearUnder hn hne

/-- A path under `root` is found at the key of its names. -/
theorem key_eq (hh : Home root home h) {f : Bool} {pl : Place} (hn : ∀ n ∈ ns, IsEntryName n.toList)
    (hne : ns ≠ []) (hr : h.files.resolve h.cwd f (under root ns) = .ok pl) : pl.key = home ++ ns := by
  obtain ⟨-, -, hs⟩ := (hh.resolve_iff hn hne).mp hr
  obtain ⟨pl', he, hk⟩ := hs.key_eq hh.clearUnder hn
  cases he
  exact hk

theorem clearTo_append (hh : Home root home h) (ns : List String) : h.files.ClearTo (home ++ ns) := by
  intro j target hj
  rcases List.prefix_or_prefix_of_prefix hj (List.prefix_append home ns) with hj | hj
  · exact hh.clearTo j target hj
  · exact hh.clearUnder j target hj

theorem clearUnder_append (hh : Home root home h) (ns : List String) :
    h.files.ClearUnder (home ++ ns) := hh.clearUnder.of_prefix (List.prefix_append _ _)

/-- The place of a path under `root` has a name, whether something is there or not. -/
theorem exists_name (hn : ∀ n ∈ ns, IsEntryName n.toList) (hne : ns ≠ []) (home : Key) :
    ∃ d n, home ++ ns = d ++ [n] ∧ IsEntryName n.toList := by
  obtain ⟨rest, n, rfl⟩ := (List.eq_nil_or_concat' ns).resolve_left hne
  exact ⟨home ++ rest, n, by rw [List.append_assoc], hn n (by simp)⟩

/-! ## Operations on paths under the directory -/

theorem removeTree (hh : Home root home h) (hn : ∀ n ∈ ns, IsEntryName n.toList) (hne : ns ≠ [])
    (hr : h.files.removeTree h.cwd (under root ns) = .ok t') :
    ChangesOnly (home ++ ns <+: ·) h.files t' := by
  obtain ⟨key, e, hres, ht⟩ := removeTree_eq hr
  have hk : key = home ++ ns := hh.key_eq hn hne hres
  subst hk
  have hc := hh.clearUnder_append ns
  rcases ht with rfl | rfl
  · exact changesOnly_eraseAll hc
  · exact (changesOnly_erase fun target => hc _ target (List.prefix_refl _)).mono
      fun _ hk => hk ▸ List.prefix_refl _

theorem erase (hh : Home root home h) (ns : List String) :
    ChangesOnly (home ++ ns <+: ·) h.files (h.files.erase (home ++ ns)) :=
  (changesOnly_erase fun target => hh.clearUnder _ target (List.prefix_append _ _)).mono
    fun _ hk => hk ▸ List.prefix_refl _

theorem removeFile (hh : Home root home h) (hn : ∀ n ∈ ns, IsEntryName n.toList) (hne : ns ≠ [])
    (hr : h.files.removeFile h.cwd (under root ns) = .ok t') :
    ChangesOnly (home ++ ns <+: ·) h.files t' := by
  obtain ⟨key, e, -, hres, rfl⟩ := removeFile_eq hr
  have hk : key = home ++ ns := hh.key_eq hn hne hres
  subst hk
  exact hh.erase ns

theorem removeDirectory (hh : Home root home h) (hn : ∀ n ∈ ns, IsEntryName n.toList) (hne : ns ≠ [])
    (hr : h.files.removeDirectory h.cwd (under root ns) = .ok t') :
    ChangesOnly (home ++ ns <+: ·) h.files t' := by
  obtain ⟨key, hres, rfl⟩ := removeDirectory_eq hr
  have hk : key = home ++ ns := hh.key_eq hn hne hres
  subst hk
  exact hh.erase ns

theorem rename (hh : Home root home h) (hn : ∀ n ∈ ns, IsEntryName n.toList) (hne : ns ≠ [])
    (hm : ∀ m ∈ ms, IsEntryName m.toList) (hme : ms ≠ [])
    (hr : h.files.rename h.cwd (under root ns) (under root ms) = .ok t') :
    ChangesOnly (fun k => home ++ ns <+: k ∨ home ++ ms <+: k) h.files t' := by
  obtain ⟨key, e, place, hs, ht, rfl | rfl⟩ := rename_eq (endsWithSeparator_under hm hme root) hr
  · exact .refl _ _
  · have hk : key = home ++ ns := hh.key_eq hn hne hs
    rw [hk, hh.key_eq hm hme ht]
    exact changesOnly_move (by simp [hne]) (hh.clearUnder_append ns) (hh.clearUnder_append ms)
      fun _ => exists_name hm hme home

/-- What is written under the directory is there to be read, and nothing else changes. -/
theorem write (hh : Home root home h) (hn : ∀ n ∈ ns, IsEntryName n.toList) (hne : ns ≠ [])
    {body : Body} (hr : h.files.write h.cwd (under root ns) body = .ok t') :
    ChangesOnly (· = home ++ ns) h.files t' ∧ Leads t' h.cwd root home ∧
      t'.read h.cwd (under root ns) = .ok body.data := by
  obtain ⟨place, x, hres, hp, rfl⟩ := write_eq hr
  have hkey : place.key = home ++ ns := hh.key_eq hn hne hres
  have hc := changesOnly_write body hres hp x
  obtain ⟨-, hl, -⟩ := (hh.resolve_iff hn hne).mp hres
  obtain ⟨hfree, -⟩ := not_directory_of_write hres hp
  have hgrow : ∀ k, h.files.get? k = some .directory →
      (h.files.put place.key (.file body x)).get? k = some .directory := by
    intro k hg
    have hk : k ≠ place.key := by
      rintro rfl
      exact hfree hg
    rw [get?_put_ne _ _ hk]
    exact hg
  have hroot := hl.grow hgrow fun k target => (hc.links k target).mpr
  exact ⟨hkey ▸ hc, hroot, read_of_write hr⟩

/-- What touches only a path under `root` changes at most the entry there. -/
theorem touch (hh : Home root home h) (hn : ∀ n ∈ ns, IsEntryName n.toList) (hne : ns ≠ [])
    (ht : h.TouchesOnly (under root ns) h') : ChangesFiles (· = home ++ ns) h h' := by
  have hkey : ∀ k, h'.files.get? k ≠ h.files.get? k → k = home ++ ns := by
    intro k hk
    obtain ⟨place, hr, rfl⟩ := ht.entry k hk
    exact hh.key_eq hn hne hr
  refine ⟨ht.cwd, fun k hk => Or.inl (Decidable.not_not.mp fun hne => hk (hkey k hne)), ht.links,
    fun hnamed d n hd => ?_⟩
  by_cases he : h'.files.get? (d ++ [n]) = h.files.get? (d ++ [n])
  · exact hnamed d n (he ▸ hd)
  · obtain ⟨d', n', hk, hn'⟩ := exists_name hn hne home
    obtain ⟨-, hnn⟩ := List.append_inj' ((hkey _ he).trans hk) rfl
    rwa [List.singleton_inj.mp hnn]

/-! ## Directories under the directory -/

/-- A path under `root` leads to the directory of its names, through `home`. -/
theorem leads_under (hh : Home root home h) (hn : ∀ n ∈ ns, IsEntryName n.toList) (hne : ns ≠ [])
    (hl : Leads h.files h.cwd (under root ns) k) :
    k = home ++ ns ∧ Leads h.files h.cwd root home ∧
      Scans h.files true home ns (.place (.present (home ++ ns) .directory)) := by
  have hs : ∀ n ∈ ns, IsStep n := fun n hm => isStep_of_isEntryName (hn n hm)
  obtain ⟨n, hlim, hw⟩ := hl
  rw [startOf_under hs, pathNames_under hs] at hw
  obtain ⟨k', m, more, hm, hk', hw⟩ := hw.split hne
  have hroot : Leads h.files h.cwd root k' := ⟨m, by omega, hk'⟩
  obtain rfl := hh.leads _ _ (.refl _) hroot
  cases hw with
  | place hw =>
    obtain ⟨pl, he, hkey⟩ := hw.key_eq hh.clearUnder hn
    cases he
    obtain rfl : k = k' ++ ns := hkey
    exact ⟨rfl, hroot, hw⟩
  | link hw =>
    obtain ⟨pl, he, -⟩ := hw.key_eq hh.clearUnder hn
    cases he

/-- A name in a directory that is there can be resolved. -/
theorem resolve_child (hh : Home root home h) {n : String} (hn : ∀ m ∈ ns ++ [n], IsEntryName m.toList)
    (hne : ns ≠ []) (hl : Leads h.files h.cwd (under root ns) k) (hx : LooksUp n)
    (htext : (under root (ns ++ [n])).text.toList.any (·.toNat == 0) = false) :
    ∃ place, h.files.resolve h.cwd true (under root (ns ++ [n])) = .ok place ∧
      place.key = home ++ (ns ++ [n]) := by
  obtain ⟨rfl, hroot, hs⟩ := hh.leads_under (fun m hm => hn m (List.mem_append_left _ hm)) hne hl
  have hlast : ∃ pl, Scans h.files true (home ++ ns) [n] (.place pl) := by
    cases hg : h.files.get? (home ++ ns ++ [n]) with
    | none => exact ⟨_, .free hx hg⟩
    | some e =>
      cases e with
      | file body executable => exact ⟨_, .file hx hg⟩
      | directory => exact ⟨_, .directory hx hg (.done _)⟩
      | link target =>
        refine absurd hg (hh.clearUnder _ target ?_)
        rw [List.append_assoc]
        exact List.prefix_append _ _
  obtain ⟨pl, hlast⟩ := hlast
  have hr := (hh.resolve_iff hn (by simp)).mpr ⟨htext, hroot, hs.append hlast⟩
  exact ⟨pl, hr, hh.key_eq hn (by simp) hr⟩

end Home

/-! ## Where a home comes from -/

/-- The entries have proper names, no link lies on the way to the working directory, and none in a
directory that `root` leads to while the links stay. -/
structure Host.Plain (h : Host) (root : Path) : Prop where
  named : h.files.Named
  cwd : h.files.ClearTo h.cwd
  links : ∀ t k, SameLinks h.files t → Leads t h.cwd root k → h.files.ClearUnder k

theorem get?_ne_link (he : ∀ e ∈ t.entries, (e.2.isDirectory || e.2.isFile) = true) (k : Key)
    (target : String) : t.get? k ≠ some (.link target) := by
  intro hg
  have hm := mem_entries_of_get? hg (ne_nil_of_get? hg (by simp))
  exact absurd (he _ hm) Bool.false_ne_true

/-- A host without links is plain for every root. -/
theorem Host.plain_of_no_links (root : Path) (he : ∀ e ∈ h.files.entries,
    (∀ n ∈ e.1, IsEntryName n.toList) ∧ (e.2.isDirectory || e.2.isFile) = true) : h.Plain root := by
  have hlink := get?_ne_link fun e hm => (he e hm).2
  refine ⟨fun d n hd => ?_, fun k target _ => hlink k target, fun _ _ _ _ k target _ => hlink k target⟩
  obtain ⟨e, hg⟩ := Option.ne_none_iff_exists'.mp hd
  exact (he _ (mem_entries_of_get? hg (by simp))).1 n (by simp)

end CipherCorpus
