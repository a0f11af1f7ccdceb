import CipherCorpus.Proofs.FileTree.Change
import Mathlib.Data.List.Induction
import Mathlib.Data.List.Nodup

/-!
# Well-formed trees

In the tree of a file system every entry has one place, lies in a directory, and has a name that a path
can hold (`WellFormed`).  A path that starts at a directory is then resolved to an entry of the tree or to
a free name in one of its directories (`WellFormed.fits_of_resolve`), and the operations that change the
tree keep it well formed:

* `WellFormed.put`, `WellFormed.erase`, `WellFormed.eraseAll`, `WellFormed.move` for the tree as a map;
* `WellFormed.makeDirectories`, `WellFormed.write`, `WellFormed.removeFile`, `WellFormed.makeLink`.
-/

namespace CipherCorpus.FileTree

open Text CipherCorpus.Path

variable {t t' : FileTree} {cwd k d : Key} {n : String} {e : Entry} {p : Path} {f : Bool}

/-- A text without the zero character. -/
def ZeroFree (text : String) : Prop := text.toList.any (·.toNat == 0) = false

instance (text : String) : Decidable (ZeroFree text) := inferInstanceAs (Decidable (_ = _))

/-- A name that an entry of a directory can have. -/
structure IsFileName (n : String) : Prop where
  entry : IsEntryName n.toList
  size : n.utf8ByteSize ≤ nameLimit
  zeroFree : ZeroFree n

theorem isFileName_iff : IsFileName n ↔ IsEntryName n.toList ∧ n.utf8ByteSize ≤ nameLimit ∧ ZeroFree n :=
  ⟨fun h => ⟨h.entry, h.size, h.zeroFree⟩, fun h => ⟨h.1, h.2.1, h.2.2⟩⟩

instance (n : String) : Decidable (IsFileName n) := decidable_of_iff _ isFileName_iff.symm

theorem IsFileName.looksUp (h : IsFileName n) : LooksUp n := by
  obtain ⟨-, -, h1, h2⟩ := h.entry
  refine ⟨fun he => h1 ?_, fun he => h2 ?_, h.size⟩
  · rw [he]
    rfl
  · rw [he]
    rfl

/-- Every entry has one place, which is in a directory and under a proper name, and link targets are
paths. -/
structure WellFormed (t : FileTree) : Prop where
  nodup : (t.entries.map (·.1)).Nodup
  name : ∀ d n, t.get? (d ++ [n]) ≠ none → IsFileName n
  parent : ∀ d n, t.get? (d ++ [n]) ≠ none → t.get? d = some .directory
  target : ∀ k target, t.get? k = some (.link target) → ZeroFree target

theorem WellFormed.named (h : t.WellFormed) : t.Named := fun d n hd => (h.name d n hd).entry

theorem wellFormed_empty : empty.WellFormed := by
  have hnone : ∀ (d : Key) (n : String), empty.get? (d ++ [n]) = none := by
    intro d n
    unfold get?
    rw [if_neg (by simp)]
    rfl
  refine ⟨List.nodup_nil, fun d n h => absurd (hnone d n) h, fun d n h => absurd (hnone d n) h, ?_⟩
  intro k target h
  rcases List.eq_nil_or_concat' k with rfl | ⟨d, n, rfl⟩
  · cases h
  · rw [hnone] at h
    cases h

namespace WellFormed

theorem dropLast (h : t.WellFormed) (hk : t.get? k = some .directory) :
    t.get? k.dropLast = some .directory := by
  rcases List.eq_nil_or_concat' k with rfl | ⟨d, n, rfl⟩
  · rfl
  · rw [List.dropLast_concat]
    exact h.parent d n (by rw [hk]; simp)

/-- What lies on the way to an entry are directories. -/
theorem directory_of_prefix (h : t.WellFormed) {j : Key} (hj : j <+: k) (hne : j ≠ k)
    (hk : t.get? k ≠ none) : t.get? j = some .directory := by
  obtain ⟨x, rfl⟩ := hj
  have hx : x ≠ [] := by
    rintro rfl
    exact hne (List.append_nil j).symm
  clear hne
  induction x using List.reverseRecOn with
  | nil => exact absurd rfl hx
  | append_singleton y n ih =>
    rw [← List.append_assoc] at hk
    have hd := h.parent _ n hk
    by_cases hy : y = []
    · rwa [hy, List.append_nil] at hd
    · exact ih (by rw [hd]; simp) hy

/-- Nothing lies under what is not a directory. -/
theorem get?_append (h : t.WellFormed) (hk : t.get? k ≠ some .directory) {x : Key} (hx : x ≠ []) :
    t.get? (k ++ x) = none := by
  by_contra hne
  refine hk (h.directory_of_prefix (List.prefix_append k x) (fun he => hx ?_) hne)
  simpa using he.symm

theorem isFileName_of_mem (h : t.WellFormed) (hk : t.get? k ≠ none) : ∀ n ∈ k, IsFileName n := by
  induction k using List.reverseRecOn with
  | nil => exact fun n hn => by cases hn
  | append_singleton d m ih =>
    intro n hn
    rcases List.mem_append.mp hn with hn | hn
    · exact ih (by rw [h.parent d m hk]; simp) n hn
    · rw [List.mem_singleton.mp hn]
      exact h.name d m hk

/-! ## Names in a directory -/

theorem mem_names (t : FileTree) (k : Key) (n : String) : n ∈ t.names k ↔ t.get? (k ++ [n]) ≠ none := by
  rw [mem_names_iff]
  constructor
  · rintro ⟨e, he, hk⟩
    exact hk ▸ get?_ne_none_of_mem he
  · intro h
    obtain ⟨e, hg⟩ := Option.ne_none_iff_exists'.mp h
    exact ⟨(k ++ [n], e), mem_entries_of_get? hg (by simp), rfl⟩

theorem nodup_names (h : t.WellFormed) (k : Key) : (t.names k).Nodup := by
  have hbelow : (t.below k).Pairwise fun a b => a.1 ≠ b.1 :=
    (List.pairwise_map.mp h.nodup).sublist List.filter_sublist
  unfold names
  refine List.pairwise_filterMap.mpr (hbelow.imp_of_mem fun {a b} ha hb hab m hm m' hm' hmm => hab ?_)
  rw [key_of_name ha hm, key_of_name hb hm', hmm]

/-- A directory holds one entry only. -/
theorem names_eq_singleton (h : t.WellFormed) (k : Key) (n : String) :
    t.names k = [n] ↔ ∀ m, t.get? (k ++ [m]) ≠ none ↔ m = n := by
  constructor
  · intro hk m
    rw [← mem_names, hk, List.mem_singleton]
  · intro hall
    refine List.perm_singleton.mp ((List.perm_ext_iff_of_nodup (h.nodup_names k) (by simp)).mpr fun m => ?_)
    rw [mem_names, hall, List.mem_singleton]

/-! ## Changes of the map -/

theorem put (h : t.WellFormed) (hn : IsFileName n) (hd : t.get? d = some .directory)
    (hover : t.get? (d ++ [n]) = some .directory → e = .directory)
    (htarget : ∀ target, e = .link target → ZeroFree target) : (t.put (d ++ [n]) e).WellFormed := by
  have hsame : ∀ {j}, t.get? j = some .directory → (t.put (d ++ [n]) e).get? j = some .directory := by
    intro j hj
    by_cases he : j = d ++ [n]
    · subst he
      rw [get?_put_self t _ (by simp), hover hj]
    · rw [get?_put_ne t _ he, hj]
  have hcases : ∀ d' n', (t.put (d ++ [n]) e).get? (d' ++ [n']) ≠ none →
      (d' = d ∧ n' = n) ∨ t.get? (d' ++ [n']) ≠ none := by
    intro d' n' hj
    by_cases he : d' ++ [n'] = d ++ [n]
    · obtain ⟨hd', hn'⟩ := List.append_inj' he rfl
      exact Or.inl ⟨hd', List.singleton_inj.mp hn'⟩
    · rw [get?_put_ne t _ he] at hj
      exact Or.inr hj
  refine ⟨?_, fun d' n' hj => ?_, fun d' n' hj => ?_, fun j target hj => ?_⟩
  · show ((d ++ [n]) :: ((t.entries.filter (·.1 != d ++ [n])).map (·.1))).Nodup
    refine List.nodup_cons.mpr ⟨fun hm => ?_, h.nodup.sublist (List.filter_sublist.map _)⟩
    obtain ⟨x, hx, he⟩ := List.mem_map.mp hm
    have hne := (List.mem_filter.mp hx).2
    rw [he] at hne
    simp at hne
  · rcases hcases d' n' hj with ⟨-, rfl⟩ | hj
    · exact hn
    · exact h.name d' n' hj
  · rcases hcases d' n' hj with ⟨rfl, -⟩ | hj
    · exact hsame hd
    · exact hsame (h.parent d' n' hj)
  · by_cases he : j = d ++ [n]
    · subst he
      rw [get?_put_self t _ (by simp)] at hj
      exact htarget target (Option.some.inj hj)
    · rw [get?_put_ne t _ he] at hj
      exact h.target j target hj

theorem erase (h : t.WellFormed) (hk : ∀ n, t.get? (k ++ [n]) = none) : (t.erase k).WellFormed := by
  by_cases h0 : k = []
  · -- the top itself stays
    subst h0
    have hsame : ∀ j, (t.erase []).get? j = t.get? j := by
      intro j
      by_cases hj : j = []
      · subst hj
        rfl
      · exact get?_erase_ne t hj
    exact ⟨h.nodup.sublist (List.filter_sublist.map _), fun d n hd => h.name d n (hsame _ ▸ hd),
      fun d n hd => (hsame d).trans (h.parent d n (hsame _ ▸ hd)),
      fun j target hj => h.target j target (hsame j ▸ hj)⟩
  · have hcases : ∀ {j}, (t.erase k).get? j ≠ none → j ≠ k ∧ t.get? j ≠ none := by
      intro j hj
      by_cases he : j = k
      · subst he
        exact absurd (get?_erase_self t h0) hj
      · rw [get?_erase_ne t he] at hj
        exact ⟨he, hj⟩
    refine ⟨h.nodup.sublist (List.filter_sublist.map _), fun d n hd => h.name d n (hcases hd).2,
      fun d n hd => ?_, fun j target hj => ?_⟩
    · have hdk : d ≠ k := by
        rintro rfl
        exact (hcases hd).2 (hk n)
      rw [get?_erase_ne t hdk]
      exact h.parent d n (hcases hd).2
    · obtain ⟨hjk, -⟩ := hcases (by rw [hj]; simp)
      rw [get?_erase_ne t hjk] at hj
      exact h.target j target hj

theorem eraseAll (h : t.WellFormed) (k : Key) : (t.eraseAll k).WellFormed := by
  have hcases : ∀ {j}, j ≠ [] → (t.eraseAll k).get? j ≠ none → ¬ k <+: j ∧ t.get? j ≠ none := by
    intro j hj0 hj
    rw [get?_eraseAll t k hj0] at hj
    split at hj
    · exact absurd rfl hj
    · next hkj => exact ⟨hkj, hj⟩
  refine ⟨h.nodup.sublist (List.filter_sublist.map _),
    fun d n hd => h.name d n (hcases (by simp) hd).2, fun d n hd => ?_, fun j target hj => ?_⟩
  · obtain ⟨hkj, hj⟩ := hcases (by simp) hd
    have hparent := h.parent d n hj
    by_cases hd0 : d = []
    · subst hd0
      rfl
    · rw [get?_eraseAll t k hd0, if_neg fun hkd => hkj (hkd.trans (List.prefix_append _ _))]
      exact hparent
  · have hj0 : j ≠ [] := by
      rintro rfl
      cases hj
    rw [get?_eraseAll t k hj0] at hj
    split at hj
    · cases hj
    · exact h.target j target hj

end WellFormed

/-! ## Moving -/

theorem nodup_move (source target : Key) (h : (t.entries.map (·.1)).Nodup) :
    ((t.move source target).entries.map (·.1)).Nodup := by
  let moved : Key → Key := fun k => if source.isPrefixOf k then target ++ k.drop source.length else k
  have hkeys : (t.move source target).entries.map (·.1) =
      ((t.eraseAll target).entries.map (·.1)).map moved := by
    unfold FileTree.move
    rw [List.map_map, List.map_map]
    refine List.map_congr_left fun e _ => ?_
    show (if source.isPrefixOf e.1 then (target ++ e.1.drop source.length, e.2) else e).1 = moved e.1
    simp only [moved]
    split
    · rfl
    · rfl
  have hout : ∀ k ∈ (t.eraseAll target).entries.map (·.1), ¬ target <+: k := by
    intro k hk hp
    obtain ⟨e, he, rfl⟩ := List.mem_map.mp hk
    have hkeep := (List.mem_filter.mp he).2
    rw [List.isPrefixOf_iff_prefix.mpr hp] at hkeep
    cases hkeep
  have hmoved : ∀ x, moved (source ++ x) = target ++ x := fun x => by simp [moved]
  have hstay : ∀ {k}, ¬ source <+: k → moved k = k := fun {k} hk =>
    if_neg (by rw [List.isPrefixOf_iff_prefix]; exact hk)
  rw [hkeys]
  refine List.Nodup.map_on (fun x hx y hy hxy => ?_) (h.sublist (List.filter_sublist.map _))
  -- a moved key lies under the target, where no key that stays lies
  by_cases hsx : source <+: x
  · obtain ⟨x', rfl⟩ := hsx
    by_cases hsy : source <+: y
    · obtain ⟨y', rfl⟩ := hsy
      rw [hmoved, hmoved, List.append_cancel_left_eq] at hxy
      rw [hxy]
    · rw [hmoved, hstay hsy] at hxy
      exact absurd ⟨x', hxy⟩ (hout y hy)
  · by_cases hsy : source <+: y
    · obtain ⟨y', rfl⟩ := hsy
      rw [hmoved, hstay hsx] at hxy
      exact absurd ⟨y', hxy.symm⟩ (hout x hx)
    · rwa [hstay hsx, hstay hsy] at hxy

section Move

variable {source target : Key} (hs : source ≠ []) (h1 : ¬ source <+: target) (h2 : ¬ target <+: source)
include h1 h2

theorem not_prefix_append (x : Key) : ¬ target <+: source ++ x := by
  intro hp
  rcases List.prefix_or_prefix_of_prefix hp (List.prefix_append source x) with hp | hp
  · exact h2 hp
  · exact h1 hp

include hs

/-- What is at and under the source takes the place of what is at and under the target. -/
theorem get?_move_target (x : Key) : (t.move source target).get? (target ++ x) = t.get? (source ++ x) := by
  have ht : target ≠ [] := by
    rintro rfl
    exact h2 List.nil_prefix
  have hget : t.get? (source ++ x) = t.entries.lookup (source ++ x) := if_neg (by simp [hs])
  rw [get?_move t (by simp [ht]), if_pos (List.prefix_append _ _), List.drop_left, hget]
  unfold FileTree.eraseAll
  rw [lookup_filter_key (fun k => !target.isPrefixOf k), not_isPrefixOf (not_prefix_append h1 h2 x)]
  rfl

theorem get?_move_source (x : Key) : (t.move source target).get? (source ++ x) = none := by
  rw [get?_move t (by simp [hs]), if_neg (not_prefix_append h1 h2 x), if_pos (List.prefix_append _ _)]

/-- What is there after a move was moved, or is where it was. -/
theorem get?_move_split {j : Key} (hj : (t.move source target).get? j ≠ none) :
    (∃ x, j = target ++ x ∧ (t.move source target).get? j = t.get? (source ++ x)) ∨
      ¬ target <+: j ∧ ¬ source <+: j ∧ (t.move source target).get? j = t.get? j := by
  by_cases ht : target <+: j
  · obtain ⟨x, rfl⟩ := ht
    exact Or.inl ⟨x, rfl, get?_move_target hs h1 h2 x⟩
  · by_cases hsj : source <+: j
    · obtain ⟨x, rfl⟩ := hsj
      exact absurd (get?_move_source hs h1 h2 x) hj
    · exact Or.inr ⟨ht, hsj, get?_move_elsewhere t hsj ht⟩

end Move

theorem WellFormed.move (h : t.WellFormed) {source : Key} (hs : source ≠ [])
    (h1 : ¬ source <+: d ++ [n]) (h2 : ¬ d ++ [n] <+: source) (hn : IsFileName n)
    (hd : t.get? d = some .directory) : (t.move source (d ++ [n])).WellFormed := by
  refine ⟨nodup_move _ _ h.nodup, fun d' n' hj => ?_, fun d' n' hj => ?_, fun j dest hj => ?_⟩
  · rcases get?_move_split hs h1 h2 hj with ⟨x, hx, he⟩ | ⟨-, -, he⟩
    · rw [he] at hj
      rcases List.eq_nil_or_concat' x with rfl | ⟨y, m, rfl⟩
      · rw [List.append_nil] at hx
        obtain ⟨-, hnn⟩ := List.append_inj' hx rfl
        rwa [List.singleton_inj.mp hnn]
      · rw [← List.append_assoc] at hx hj
        obtain ⟨-, hnn⟩ := List.append_inj' hx rfl
        rw [List.singleton_inj.mp hnn]
        exact h.name _ m hj
    · rw [he] at hj
      exact h.name d' n' hj
  · rcases get?_move_split hs h1 h2 hj with ⟨x, hx, he⟩ | ⟨ht, hsj, he⟩
    · rw [he] at hj
      rcases List.eq_nil_or_concat' x with rfl | ⟨y, m, rfl⟩
      · rw [List.append_nil] at hx
        obtain ⟨rfl, -⟩ := List.append_inj' hx rfl
        rw [get?_move_elsewhere t (fun hp => h1 (hp.trans (List.prefix_append _ _)))]
        · exact hd
        · intro hp
          have hlength := hp.length_le
          rw [List.length_append, List.length_singleton] at hlength
          omega
      · rw [← List.append_assoc] at hx hj
        obtain ⟨rfl, -⟩ := List.append_inj' hx rfl
        rw [get?_move_target hs h1 h2]
        exact h.parent _ m hj
    · rw [he] at hj
      rw [get?_move_elsewhere t (fun hp => hsj (hp.trans (List.prefix_append _ _)))
        fun hp => ht (hp.trans (List.prefix_append _ _))]
      exact h.parent d' n' hj
  · rcases get?_move_split hs h1 h2 (by rw [hj]; simp) with ⟨x, -, he⟩ | ⟨-, -, he⟩
    · exact h.target _ dest (he ▸ hj)
    · exact h.target _ dest (he ▸ hj)

/-! ## Places in a well-formed tree -/

/-- What is said of a place is so, and a free name can be given to an entry of a directory. -/
def Place.Fits (t : FileTree) : Place → Prop
  | .present key e => t.get? key = some e
  | .absent key => t.get? key = none ∧ ∃ d n, key = d ++ [n] ∧ IsFileName n ∧ t.get? d = some .directory

/-- A link stands in a directory, and its target and the names behind it are those of a path. -/
def Stop.Fits (t : FileTree) : Stop → Prop
  | .place pl => pl.Fits t
  | .link base target rest =>
    t.get? base = some .directory ∧ ZeroFree target ∧ ∀ n ∈ rest, IsStep n ∧ ZeroFree n

/-- The names of a text without zeros have none. -/
theorem zeroFree_of_mem_walkNames {text : String} (h : ZeroFree text) (hn : n ∈ walkNames text.toList) :
    ZeroFree n := by
  have hpiece : ∀ m ∈ pathNames text.toList, ZeroFree m := by
    intro m hm
    obtain ⟨piece, hp, rfl⟩ := List.mem_map.mp hm
    unfold ZeroFree
    rw [String.toList_ofList, List.any_eq_false]
    intro c hc
    exact List.any_eq_false.mp h c (mem_of_mem_splitOn (List.mem_of_mem_filter hp) hc)
  rcases walkNames_eq text.toList with he | he
  · exact hpiece n (he ▸ hn)
  · rcases List.mem_append.mp (he ▸ hn) with hn | hn
    · exact hpiece n hn
    · rw [List.mem_singleton.mp hn]
      decide

theorem Scans.fits {place : Key} {ns : List String} {s : Stop} (hw : t.WellFormed)
    (hd : t.get? place = some .directory) (hn : ∀ n ∈ ns, IsStep n ∧ ZeroFree n)
    (h : Scans t f place ns s) : s.Fits t := by
  induction h with
  | done place => exact hd
  | here _ ih => exact ih hd fun n hm => hn n (List.mem_cons_of_mem _ hm)
  | up _ ih => exact ih (hw.dropLast hd) fun n hm => hn n (List.mem_cons_of_mem _ hm)
  | directory _ hg _ ih => exact ih hg fun n hm => hn n (List.mem_cons_of_mem _ hm)
  | @free place name hx hg =>
    obtain ⟨⟨hsep, hne⟩, hzero⟩ := hn name List.mem_cons_self
    refine ⟨hg, place, name, rfl, ⟨⟨hsep, hne, fun he => hx.notHere ?_, fun he => hx.notUp ?_⟩,
      hx.size, hzero⟩, hd⟩
    · exact String.toList_inj.mp he
    · exact String.toList_inj.mp he
  | file _ hg => exact hg
  | lastLink _ hg _ => exact hg
  | link _ hg _ =>
    exact ⟨hd, hw.target _ _ hg, fun n hm => hn n (List.mem_cons_of_mem _ hm)⟩

theorem Walks.fits {m : Nat} {place : Key} {ns : List String} {pl : Place} (hw : t.WellFormed)
    (hd : t.get? place = some .directory) (hn : ∀ n ∈ ns, IsStep n ∧ ZeroFree n)
    (h : Walks t f m place ns pl) : pl.Fits t := by
  induction h with
  | place h => exact h.fits hw hd hn
  | link h _ ih =>
    obtain ⟨hbase, hzero, hrest⟩ := h.fits hw hd hn
    refine ih ?_ fun n hm => ?_
    · unfold startOf
      split
      · rfl
      · exact hbase
    · rcases List.mem_append.mp hm with hm | hm
      · exact ⟨isStep_of_mem_walkNames hm, zeroFree_of_mem_walkNames hzero hm⟩
      · exact hrest n hm

/-! ## Operations -/

namespace WellFormed

/-- What a path is resolved to, when it starts at a directory. -/
theorem fits_of_resolve {pl : Place} (h : t.WellFormed)
    (hd : t.get? (startOf cwd p.text.toList) = some .directory) (hr : t.resolve cwd f p = .ok pl) :
    pl.Fits t := by
  obtain ⟨⟨hzero, -⟩, m, -, hwalk⟩ := resolve_iff.mp hr
  exact hwalk.fits h hd fun n hn => ⟨isStep_of_mem_walkNames hn, zeroFree_of_mem_walkNames hzero hn⟩

/-- A new entry at a free place. -/
theorem put_absent (h : t.WellFormed) (hp : (Place.absent k).Fits t)
    (htarget : ∀ target, e = .link target → ZeroFree target) : (t.put k e).WellFormed := by
  obtain ⟨hg, d, n, rfl, hn, hd⟩ := hp
  refine h.put hn hd (fun hdir => ?_) htarget
  rw [hg] at hdir
  cases hdir

theorem put_file {body b : Body} {x y : Bool} (h : t.WellFormed) (hg : t.get? k = some (.file b y)) :
    (t.put k (.file body x)).WellFormed := by
  rcases List.eq_nil_or_concat' k with rfl | ⟨d, n, rfl⟩
  · cases hg
  · refine h.put (h.name d n (by rw [hg]; simp)) (h.parent d n (by rw [hg]; simp)) (fun hdir => ?_) nofun
    rw [hg] at hdir
    cases hdir

theorem erase_of_get? (h : t.WellFormed) (hg : t.get? k = some e) (he : e ≠ .directory) :
    (t.erase k).WellFormed := by
  refine h.erase fun n => h.get?_append (fun hdir => he ?_) (by simp)
  rw [hg] at hdir
  exact Option.some.inj hdir

theorem makeDirectory (h : t.WellFormed)
    (hd : t.get? (startOf cwd (withoutSeparator p).text.toList) = some .directory)
    (hm : t.makeDirectory cwd p = .ok t') : t'.WellFormed := by
  unfold FileTree.makeDirectory at hm
  cases hr : t.resolve cwd false (withoutSeparator p) with
  | error e =>
    rw [hr] at hm
    cases hm
  | ok place =>
    rw [hr] at hm
    cases place with
    | present key e => cases hm
    | absent key =>
      cases hm
      exact h.put_absent (h.fits_of_resolve hd hr) nofun

theorem makeChain (ps : List Path) : ∀ {t' : FileTree}, t.WellFormed →
    (∀ q ∈ ps, t.get? (startOf cwd (withoutSeparator q).text.toList) = some .directory) →
    t.makeChain cwd ps = .ok t' → t'.WellFormed := by
  induction ps with
  | nil =>
    intro t' _ _ hm
    cases hm
  | cons p parents ih =>
    intro t' h hd hm
    obtain ⟨t1, hchain, hp⟩ := makeChain_cases hm
    have hrest : ∀ q ∈ parents, t.get? (startOf cwd (withoutSeparator q).text.toList) = some .directory :=
      fun q hq => hd q (List.mem_cons_of_mem _ hq)
    have h1 : t1.WellFormed ∧
        t1.get? (startOf cwd (withoutSeparator p).text.toList) = some .directory := by
      rcases hchain with rfl | hchain
      · exact ⟨h, hd p List.mem_cons_self⟩
      · exact ⟨ih h hrest hchain, (changesOnly_makeChain _ hchain).get?_eq id (hd p List.mem_cons_self)⟩
    rcases hp with ⟨-, rfl⟩ | hmake | ⟨rfl, -⟩
    · exact h1.1
    · exact h1.1.makeDirectory h1.2 hmake
    · exact h1.1

theorem makeDirectories (h : t.WellFormed)
    (hd : ∀ q ∈ p.ancestors, t.get? (startOf cwd (withoutSeparator q).text.toList) = some .directory)
    (hm : t.makeDirectories cwd p = .ok t') : t'.WellFormed := makeChain _ h hd hm

theorem write {body : Body} (h : t.WellFormed)
    (hd : t.get? (startOf cwd p.text.toList) = some .directory) (hw : t.write cwd p body = .ok t') :
    t'.WellFormed := by
  obtain ⟨place, x, hr, hp, rfl⟩ := write_eq hw
  have hfits := h.fits_of_resolve hd hr
  rcases hp with ⟨key, rfl⟩ | ⟨key, b, y, rfl⟩
  · exact h.put_absent hfits nofun
  · exact h.put_file hfits

theorem removeFile (h : t.WellFormed) (hd : t.get? (startOf cwd p.text.toList) = some .directory)
    (hr : t.removeFile cwd p = .ok t') : t'.WellFormed := by
  obtain ⟨key, e, hne, hres, rfl⟩ := removeFile_eq hr
  exact h.erase_of_get? (h.fits_of_resolve hd hres) hne

theorem makeLink {target : String} (h : t.WellFormed)
    (hd : t.get? (startOf cwd p.text.toList) = some .directory)
    (hm : t.makeLink cwd p target = .ok t') : t'.WellFormed := by
  obtain ⟨key, hzero, hr, rfl⟩ := makeLink_eq hm
  refine h.put_absent (h.fits_of_resolve hd hr) fun other he => ?_
  cases he
  exact hzero

end WellFormed

/-- A path whose directories are made holds no zero. -/
theorem zeroFree_of_makeDirectories (hs : endsWithSeparator p = false) (hp : p.text.toList ≠ [])
    (h : t.makeDirectories cwd p = .ok t') : ZeroFree p.text := by
  obtain ⟨parents, he⟩ := ancestors_eq_cons p
  unfold FileTree.makeDirectories at h
  rw [he] at h
  obtain ⟨t1, -, ⟨hempty, -⟩ | hm | ⟨-, hd⟩⟩ := makeChain_cases h
  · exact absurd (String.toList_eq_nil_iff.mpr hempty) hp
  · unfold FileTree.makeDirectory at hm
    rw [withoutSeparator_eq hs] at hm
    cases hr : t1.resolve cwd false p with
    | error e =>
      rw [hr] at hm
      cases hm
    | ok place => exact (resolve_iff.mp hr).1.1
  · unfold FileTree.isDirectory at hd
    cases hr : t1.stat cwd p with
    | error e =>
      rw [hr] at hd
      cases hd
    | ok r => exact (resolve_iff.mp (stat_iff.mp (show t1.stat cwd p = .ok (r.1, r.2) from hr))).1.1

/-! ## Trees whose entries are listed -/

/-- A tree is well formed when its entries are. -/
theorem wellFormed_of_entries (hnodup : (t.entries.map (·.1)).Nodup)
    (he : ∀ e ∈ t.entries, e.1 ≠ [] ∧ (∀ n ∈ e.1, IsFileName n) ∧
      t.get? e.1.dropLast = some .directory ∧ (e.2.isDirectory || e.2.isFile) = true) :
    t.WellFormed := by
  have hmem : ∀ {d n}, t.get? (d ++ [n]) ≠ none → ∃ e, (d ++ [n], e) ∈ t.entries := by
    intro d n hd
    obtain ⟨e, hg⟩ := Option.ne_none_iff_exists'.mp hd
    exact ⟨e, mem_entries_of_get? hg (by simp)⟩
  refine ⟨hnodup, fun d n hd => ?_, fun d n hd => ?_, fun k target hk => ?_⟩
  · obtain ⟨e, hm⟩ := hmem hd
    exact (he _ hm).2.1 n (by simp)
  · obtain ⟨e, hm⟩ := hmem hd
    have hparent := (he _ hm).2.2.1
    rwa [List.dropLast_concat] at hparent
  · have hm := mem_entries_of_get? hk (ne_nil_of_get? hk (by simp))
    exact absurd (he _ hm).2.2.2 Bool.false_ne_true

end CipherCorpus.FileTree
