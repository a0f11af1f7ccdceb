import CipherCorpus.Proofs.FileTree.Canonical
import CipherCorpus.Proofs.FileTree.Steps
import CipherCorpus.Proofs.FileTree.WellFormed

/-!
# A name in a directory

A path of one name below a directory, with no link at the name, is resolved to the place of the name,
whatever is there (`resolve_child_iff`).  What a file operation does with such a path is then said by the
entry of the tree at that place:

* `isThere_child_iff`, `makeDirectories_child_iff`, `write_child_iff`, `removeTree_child_iff`,
  `removeFile_child_iff`, `removeDirectory_child`, `list_child_iff`, `rename_child_iff`.

Where there may be a link at the name, the operations that do not follow it take the link for what is
there:

* `linkStat_entry_iff`, `removeTree_entry`, `removeFile_entry`, `removeDirectory_entry`, `rename_entry`.
-/

namespace CipherCorpus.FileTree

open CipherCorpus.Path
open Archive (under)

variable {t t' : FileTree} {f : Bool} {cwd d home k : Key} {n : String} {root p q : Path}

/-! ## Names that a text can hold -/

theorem zeroFree_append {l m : List Char} : (l ++ m).any (·.toNat == 0) = false ↔
    l.any (·.toNat == 0) = false ∧ m.any (·.toNat == 0) = false := by
  rw [List.any_append, Bool.or_eq_false_iff]

theorem zeroFree_child (hn : IsEntryName n.toList) :
    ZeroFree (root.child n).text ↔ ZeroFree root.text ∧ ZeroFree n := by
  unfold ZeroFree
  rw [toList_child root (head?_ne_of_notMem hn.1), zeroFree_append]
  refine and_congr_left fun _ => ?_
  unfold lead
  split
  · exact Iff.rfl
  · rw [zeroFree_append]
    exact and_iff_left (by decide)

theorem endsWithSeparator_child (root : Path) (hn : IsEntryName n.toList) :
    endsWithSeparator (root.child n) = false :=
  have h : endsWithSeparator (under root [n]) = false :=
    endsWithSeparator_under (List.forall_mem_singleton.mpr hn) (by simp) root
  h

theorem toList_child_ne_nil (root : Path) (hn : IsEntryName n.toList) :
    (root.child n).text.toList ≠ [] :=
  have h : (under root [n]).text.toList ≠ [] :=
    toList_under_ne_nil (List.forall_mem_singleton.mpr hn) (by simp) root
  h

/-! ## The place of a key -/

/-- What is at a key, or that nothing is. -/
def placeAt (t : FileTree) (k : Key) : Place :=
  match t.get? k with
  | some e => .present k e
  | none => .absent k

theorem placeAt_of_some {e : Entry} (h : t.get? k = some e) : t.placeAt k = .present k e := by
  unfold placeAt
  rw [h]

theorem placeAt_of_none (h : t.get? k = none) : t.placeAt k = .absent k := by
  unfold placeAt
  rw [h]

@[simp] theorem placeAt_key (t : FileTree) (k : Key) : (t.placeAt k).key = k := by
  unfold placeAt
  split
  · rfl
  · rfl

theorem Leads.unique {j : Key} (h : Leads t cwd p j) (h' : Leads t cwd p k) : j = k := by
  obtain ⟨_, -, hw⟩ := h
  obtain ⟨_, -, hw'⟩ := h'
  exact hw.unique (.refl t) hw'

/-- A directory in a directory that a path leads to. -/
theorem Leads.child (h : Leads t cwd root d) (hn : IsFileName n)
    (hg : t.get? (d ++ [n]) = some .directory) : Leads t cwd (root.child n) (d ++ [n]) := by
  obtain ⟨m, hm, hw⟩ := h
  have hstep := isStep_of_isEntryName hn.entry
  refine ⟨m, hm, ?_⟩
  rw [startOf_child _ _ hstep, pathNames_child _ hstep]
  exact hw.append (by simp) (.directory hn.looksUp hg (.done _))

/-- A path of one name below a directory leads to the directory of that name only. -/
theorem Leads.eq_of_child (hl : Leads t cwd root d) (hn : IsEntryName n.toList)
    (hc : ∀ target, t.get? (d ++ [n]) ≠ some (.link target)) (h : Leads t cwd (root.child n) k) :
    k = d ++ [n] := by
  obtain ⟨m, hm, hw⟩ := h
  have hstep := isStep_of_isEntryName hn
  rw [startOf_child _ _ hstep, pathNames_child _ hstep] at hw
  obtain ⟨j, i, more, hi, hj, hw⟩ := hw.split (by simp)
  obtain rfl := hl.unique ⟨i, by omega, hj⟩
  have hns : ∀ x ∈ [n], IsEntryName x.toList := List.forall_mem_singleton.mpr hn
  have hclear : ∀ ms target, ms ≠ [] → ms <+: [n] → t.get? (d ++ ms) ≠ some (.link target) := by
    intro ms target hne hms
    cases ms with
    | nil => exact absurd rfl hne
    | cons m rest =>
      obtain ⟨rfl, hrest⟩ := List.cons_prefix_cons.mp hms
      rw [List.prefix_nil.mp hrest]
      exact hc target
  cases hw with
  | place hw =>
    obtain ⟨pl, he, hkey⟩ := hw.key_of_clear hns hclear
    cases he
    exact hkey
  | link hw =>
    obtain ⟨pl, he, -⟩ := hw.key_of_clear hns hclear
    cases he

/-- A path of one name is resolved to the place of the name, if the name can be one.  A link there
matters when links at the end are followed. -/
theorem resolve_child_iff_of_follow (hl : Leads t cwd root d) (hn : IsEntryName n.toList)
    (hc : f = true → ∀ target, t.get? (d ++ [n]) ≠ some (.link target)) {pl : Place} :
    t.resolve cwd f (root.child n) = .ok pl ↔
      (ZeroFree root.text ∧ IsFileName n) ∧ pl = t.placeAt (d ++ [n]) := by
  have hns : ∀ m ∈ [n], IsEntryName m.toList := List.forall_mem_singleton.mpr hn
  have hstep := isStep_of_isEntryName hn
  constructor
  · intro h
    obtain ⟨⟨hzero, -⟩, -⟩ := resolve_iff.mp h
    obtain ⟨hroot, hname⟩ := (zeroFree_child hn).mp hzero
    obtain ⟨k, more, hk, hw⟩ := leads_of_resolve hns (by simp) (show t.resolve cwd f (under root [n]) = _ from h)
    obtain rfl := hl.unique hk
    have h1 : n ≠ "." := fun he => hn.2.2.1 (by rw [he]; rfl)
    have h2 : n ≠ ".." := fun he => hn.2.2.2 (by rw [he]; rfl)
    have hscan : Scans t f d [n] (.place pl) := by
      cases hw with
      | place hw => exact hw
      | link hw =>
        cases hw with
        | here => exact absurd rfl h1
        | up => exact absurd rfl h2
        | directory _ _ hw => cases hw
        | link _ hg hf => exact absurd hg (hc (by simpa using hf rfl) _)
    have hx : LooksUp n := (show Scans t f d ([] ++ [n]) _ from hscan).looksUp_last h1 h2
    refine ⟨⟨hroot, hn, hx.size, hname⟩, ?_⟩
    cases hscan with
    | here => exact absurd rfl h1
    | up => exact absurd rfl h2
    | free _ hg => exact (placeAt_of_none hg).symm
    | file _ hg => exact (placeAt_of_some hg).symm
    | directory _ hg hdone =>
      cases hdone
      exact (placeAt_of_some hg).symm
    | lastLink _ hg _ => exact (placeAt_of_some hg).symm
  · rintro ⟨⟨hroot, hname⟩, rfl⟩
    obtain ⟨m, hm, hw⟩ := hl
    refine resolve_iff.mpr ⟨⟨(zeroFree_child hn).mpr ⟨hroot, hname.zeroFree⟩,
      toList_child_ne_nil root hn⟩, m, hm, ?_⟩
    rw [startOf_child _ _ hstep, walkNames_child _ hstep, pathNames_child _ hstep]
    refine hw.append (by simp) ?_
    cases hg : t.get? (d ++ [n]) with
    | none =>
      rw [placeAt_of_none hg]
      exact .free hname.looksUp hg
    | some e =>
      rw [placeAt_of_some hg]
      cases e with
      | file body x => exact .file hname.looksUp hg
      | directory => exact .directory hname.looksUp hg (.done _)
      | link target =>
        cases f with
        | true => exact absurd hg (hc rfl target)
        | false => exact .lastLink hname.looksUp hg rfl

section Child

variable (hl : Leads t cwd root d) (hn : IsEntryName n.toList)
  (hc : ∀ target, t.get? (d ++ [n]) ≠ some (.link target))
include hl hn hc

/-- A path of one name is resolved to the place of the name, if the name can be one. -/
theorem resolve_child_iff {pl : Place} : t.resolve cwd f (root.child n) = .ok pl ↔
    (ZeroFree root.text ∧ IsFileName n) ∧ pl = t.placeAt (d ++ [n]) :=
  resolve_child_iff_of_follow hl hn fun _ => hc

theorem resolve_present_child_iff {key : Key} {e : Entry} :
    t.resolve cwd f (root.child n) = .ok (.present key e) ↔
      (ZeroFree root.text ∧ IsFileName n) ∧ key = d ++ [n] ∧ t.get? (d ++ [n]) = some e := by
  rw [resolve_child_iff hl hn hc]
  refine and_congr_right fun _ => ?_
  cases hg : t.get? (d ++ [n]) with
  | none => simp [placeAt_of_none hg]
  | some e' => simp [placeAt_of_some hg, eq_comm]

theorem stat_child_iff {key : Key} {e : Entry} : t.stat cwd (root.child n) = .ok (key, e) ↔
    (ZeroFree root.text ∧ IsFileName n) ∧ key = d ++ [n] ∧ t.get? (d ++ [n]) = some e :=
  stat_iff.trans (resolve_present_child_iff hl hn hc)

theorem linkStat_child_iff {key : Key} {e : Entry} : t.linkStat cwd (root.child n) = .ok (key, e) ↔
    (ZeroFree root.text ∧ IsFileName n) ∧ key = d ++ [n] ∧ t.get? (d ++ [n]) = some e :=
  linkStat_iff.trans (resolve_present_child_iff hl hn hc)

theorem isThere_child_iff : t.isThere cwd (root.child n) = true ↔
    (ZeroFree root.text ∧ IsFileName n) ∧ t.get? (d ++ [n]) ≠ none := by
  unfold isThere
  constructor
  · intro h
    cases hs : t.stat cwd (root.child n) with
    | error e =>
      rw [hs] at h
      cases h
    | ok r =>
      obtain ⟨key, e⟩ := r
      obtain ⟨hfit, -, hg⟩ := (stat_child_iff hl hn hc).mp hs
      exact ⟨hfit, by rw [hg]; simp⟩
  · rintro ⟨hfit, hg⟩
    obtain ⟨e, hg⟩ := Option.ne_none_iff_exists'.mp hg
    rw [(stat_child_iff hl hn hc).mpr ⟨hfit, rfl, hg⟩]
    rfl

theorem isDirectory_child_iff : t.isDirectory cwd (root.child n) = true ↔
    (ZeroFree root.text ∧ IsFileName n) ∧ t.get? (d ++ [n]) = some .directory := by
  unfold isDirectory
  constructor
  · intro h
    cases hs : t.stat cwd (root.child n) with
    | error e =>
      rw [hs] at h
      cases h
    | ok r =>
      obtain ⟨key, e⟩ := r
      obtain ⟨hfit, -, hg⟩ := (stat_child_iff hl hn hc).mp hs
      rw [hs] at h
      cases e with
      | directory => exact ⟨hfit, hg⟩
      | file body x => cases h
      | link target => cases h
  · rintro ⟨hfit, hg⟩
    rw [(stat_child_iff hl hn hc).mpr ⟨hfit, rfl, hg⟩]
    rfl

/-! ## Operations -/

theorem makeDirectory_child_iff : t.makeDirectory cwd (root.child n) = .ok t' ↔
    (ZeroFree root.text ∧ IsFileName n) ∧ t.get? (d ++ [n]) = none ∧ t' = t.put (d ++ [n]) .directory := by
  unfold makeDirectory
  rw [withoutSeparator_eq (endsWithSeparator_child root hn)]
  constructor
  · intro h
    cases hr : t.resolve cwd false (root.child n) with
    | error e =>
      rw [hr] at h
      cases h
    | ok place =>
      rw [hr] at h
      obtain ⟨hfit, rfl⟩ := (resolve_child_iff hl hn hc).mp hr
      refine ⟨hfit, ?_⟩
      cases hg : t.get? (d ++ [n]) with
      | none =>
        rw [placeAt_of_none hg] at h
        cases h
        exact ⟨rfl, rfl⟩
      | some e =>
        rw [placeAt_of_some hg] at h
        cases h
  · rintro ⟨hfit, hg, rfl⟩
    rw [(resolve_child_iff hl hn hc).mpr ⟨hfit, rfl⟩, placeAt_of_none hg]
    rfl

/-- A directory is made where nothing is, or is there already. -/
theorem makeDirectories_child_iff : t.makeDirectories cwd (root.child n) = .ok t' ↔
    (ZeroFree root.text ∧ IsFileName n) ∧
      (t.get? (d ++ [n]) = none ∧ t' = t.put (d ++ [n]) .directory ∨
        t.get? (d ++ [n]) = some .directory ∧ t' = t) := by
  have htext : (root.child n).text ≠ "" := fun he =>
    toList_child_ne_nil root hn (String.toList_eq_nil_iff.mpr he)
  obtain ⟨parents, hparents⟩ := ancestors_eq_cons (root.child n)
  unfold makeDirectories
  rw [hparents]
  -- whatever is made on the way, the name has to be one at the end
  have hname : t.makeChain cwd (root.child n :: parents) = .ok t' → ZeroFree root.text ∧ IsFileName n := by
    intro h
    obtain ⟨t1, hchain, hp⟩ := makeChain_cases h
    have hch : ChangesOnly (fun _ => False) t t1 := by
      rcases hchain with rfl | hchain
      · exact .refl _ _
      · exact changesOnly_makeChain _ hchain
    have hl1 : Leads t1 cwd root d :=
      hl.grow (fun j hj => hch.get?_eq id hj) fun j target => (hch.links j target).mpr
    have hc1 : ∀ target, t1.get? (d ++ [n]) ≠ some (.link target) := fun target hg =>
      hc target ((hch.links _ _).mp hg)
    rcases hp with ⟨he, -⟩ | hm | ⟨-, hd⟩
    · exact absurd he htext
    · exact ((makeDirectory_child_iff hl1 hn hc1).mp hm).1
    · exact ((isDirectory_child_iff hl1 hn hc1).mp hd).1
  have hfree : ZeroFree root.text ∧ IsFileName n → t.get? (d ++ [n]) = none →
      t.makeDirectory cwd (root.child n) = .ok (t.put (d ++ [n]) .directory) := by
    intro hfit hg
    unfold makeDirectory
    rw [withoutSeparator_eq (endsWithSeparator_child root hn), (resolve_child_iff hl hn hc).mpr ⟨hfit, rfl⟩,
      placeAt_of_none hg]
    rfl
  have htaken : ZeroFree root.text ∧ IsFileName n → ∀ e, t.get? (d ++ [n]) = some e →
      t.makeDirectory cwd (root.child n) = .error .alreadyExists := by
    intro hfit e hg
    unfold makeDirectory
    rw [withoutSeparator_eq (endsWithSeparator_child root hn), (resolve_child_iff hl hn hc).mpr ⟨hfit, rfl⟩,
      placeAt_of_some hg]
    rfl
  constructor
  · intro h
    have hfit := hname h
    refine ⟨hfit, ?_⟩
    rw [makeChain, if_neg htext] at h
    cases hg : t.get? (d ++ [n]) with
    | none =>
      rw [hfree hfit hg] at h
      cases h
      exact Or.inl ⟨rfl, rfl⟩
    | some e =>
      rw [htaken hfit e hg] at h
      rcases orDirectory_cases h with h | ⟨rfl, hd⟩
      · cases h
      · exact Or.inr ⟨hg.symm.trans ((isDirectory_child_iff hl hn hc).mp hd).2, rfl⟩
  · rintro ⟨hfit, ⟨hg, rfl⟩ | ⟨hg, rfl⟩⟩
    · rw [makeChain, if_neg htext, hfree hfit hg]
    · rw [makeChain, if_neg htext, htaken hfit _ hg]
      show t'.orDirectory cwd (root.child n) (.error .alreadyExists) = .ok t'
      unfold orDirectory
      exact if_pos ((isDirectory_child_iff hl hn hc).mpr ⟨hfit, hg⟩)

/-- A file is written where nothing is, or where a file is, which keeps its mode. -/
theorem write_child_iff {body : Body} : t.write cwd (root.child n) body = .ok t' ↔
    (ZeroFree root.text ∧ IsFileName n) ∧ ∃ x, (t.get? (d ++ [n]) = none ∧ x = false ∨
      ∃ b, t.get? (d ++ [n]) = some (.file b x)) ∧ t' = t.put (d ++ [n]) (.file body x) := by
  unfold write
  rw [if_neg (by rw [endsWithSeparator_child root hn]; decide)]
  constructor
  · intro h
    cases hr : t.resolve cwd true (root.child n) with
    | error e =>
      rw [hr] at h
      cases h
    | ok place =>
      rw [hr] at h
      obtain ⟨hfit, rfl⟩ := (resolve_child_iff hl hn hc).mp hr
      refine ⟨hfit, ?_⟩
      cases hg : t.get? (d ++ [n]) with
      | none =>
        rw [placeAt_of_none hg] at h
        cases h
        exact ⟨false, Or.inl ⟨rfl, rfl⟩, rfl⟩
      | some e =>
        rw [placeAt_of_some hg] at h
        cases e with
        | file b x =>
          cases h
          exact ⟨x, Or.inr ⟨b, rfl⟩, rfl⟩
        | directory => cases h
        | link target => cases h
  · rintro ⟨hfit, x, ⟨hg, rfl⟩ | ⟨b, hg⟩, rfl⟩
    · rw [(resolve_child_iff hl hn hc).mpr ⟨hfit, rfl⟩, placeAt_of_none hg]
      rfl
    · rw [(resolve_child_iff hl hn hc).mpr ⟨hfit, rfl⟩, placeAt_of_some hg]
      rfl

theorem removeTree_child_iff : t.removeTree cwd (root.child n) = .ok t' ↔
    (ZeroFree root.text ∧ IsFileName n) ∧ t.get? (d ++ [n]) = some .directory ∧
      t' = t.eraseAll (d ++ [n]) := by
  unfold removeTree
  constructor
  · intro h
    cases hs : t.linkStat cwd (root.child n) with
    | error e =>
      rw [hs] at h
      cases h
    | ok r =>
      obtain ⟨key, e⟩ := r
      obtain ⟨hfit, rfl, hg⟩ := (linkStat_child_iff hl hn hc).mp hs
      rw [hs] at h
      cases e with
      | directory =>
        cases h
        exact ⟨hfit, hg, rfl⟩
      | file body x => cases h
      | link target => exact absurd hg (hc target)
  · rintro ⟨hfit, hg, rfl⟩
    rw [(linkStat_child_iff hl hn hc).mpr ⟨hfit, rfl, hg⟩]
    rfl

theorem removeFile_child_iff : t.removeFile cwd (root.child n) = .ok t' ↔
    (ZeroFree root.text ∧ IsFileName n) ∧ (∃ body x, t.get? (d ++ [n]) = some (.file body x)) ∧
      t' = t.erase (d ++ [n]) := by
  unfold removeFile
  constructor
  · intro h
    cases hs : t.linkStat cwd (root.child n) with
    | error e =>
      rw [hs] at h
      cases h
    | ok r =>
      obtain ⟨key, e⟩ := r
      obtain ⟨hfit, rfl, hg⟩ := (linkStat_child_iff hl hn hc).mp hs
      rw [hs] at h
      cases e with
      | directory => cases h
      | file body x =>
        cases h
        exact ⟨hfit, ⟨body, x, hg⟩, rfl⟩
      | link target => exact absurd hg (hc target)
  · rintro ⟨hfit, ⟨body, x, hg⟩, rfl⟩
    rw [(linkStat_child_iff hl hn hc).mpr ⟨hfit, rfl, hg⟩]
    rfl

theorem removeDirectory_child (hfit : ZeroFree root.text ∧ IsFileName n)
    (hg : t.get? (d ++ [n]) = some .directory) (he : (t.below (d ++ [n])).isEmpty = true) :
    t.removeDirectory cwd (root.child n) = .ok (t.erase (d ++ [n])) := by
  unfold removeDirectory
  rw [(linkStat_child_iff hl hn hc).mpr ⟨hfit, rfl, hg⟩]
  simp only [bind, Except.bind, he, if_true]
  rfl

theorem list_child_iff {ns : List String} : t.list cwd (root.child n) = .ok ns ↔
    (ZeroFree root.text ∧ IsFileName n) ∧ t.get? (d ++ [n]) = some .directory ∧
      ns = t.names (d ++ [n]) := by
  unfold list
  constructor
  · intro h
    cases hs : t.stat cwd (root.child n) with
    | error e =>
      rw [hs] at h
      cases h
    | ok r =>
      obtain ⟨key, e⟩ := r
      obtain ⟨hfit, rfl, hg⟩ := (stat_child_iff hl hn hc).mp hs
      rw [hs] at h
      cases e with
      | directory =>
        cases h
        exact ⟨hfit, hg, rfl⟩
      | file body x => cases h
      | link target => cases h
  · rintro ⟨hfit, hg, rfl⟩
    rw [(stat_child_iff hl hn hc).mpr ⟨hfit, rfl, hg⟩]
    rfl

theorem openRead_child_iff {e : Entry} : t.openRead cwd (root.child n) = .ok e ↔
    (ZeroFree root.text ∧ IsFileName n) ∧ t.get? (d ++ [n]) = some e := by
  unfold openRead
  constructor
  · intro h
    cases hs : t.stat cwd (root.child n) with
    | error e =>
      rw [hs] at h
      cases h
    | ok r =>
      obtain ⟨key, e'⟩ := r
      obtain ⟨hfit, -, hg⟩ := (stat_child_iff hl hn hc).mp hs
      rw [hs] at h
      cases h
      exact ⟨hfit, hg⟩
  · rintro ⟨hfit, hg⟩
    rw [(stat_child_iff hl hn hc).mpr ⟨hfit, rfl, hg⟩]
    rfl

/-- A directory is moved to a free name, or takes the place of an empty directory. -/
theorem rename_child_iff {target : Path} {d' : Key} {m : String} (hl' : Leads t cwd target d')
    (hm : IsEntryName m.toList) (hc' : ∀ dest, t.get? (d' ++ [m]) ≠ some (.link dest))
    (hg : t.get? (d ++ [n]) = some .directory) (hne : d' ++ [m] ≠ d ++ [n])
    (hbelow : isBelow (d ++ [n]) (d' ++ [m]) = false) :
    t.rename cwd (root.child n) (target.child m) = .ok t' ↔
      ((ZeroFree root.text ∧ IsFileName n) ∧ ZeroFree target.text ∧ IsFileName m) ∧
        (t.get? (d' ++ [m]) = none ∨
          t.get? (d' ++ [m]) = some .directory ∧ (t.below (d' ++ [m])).isEmpty = true) ∧
        t' = t.move (d ++ [n]) (d' ++ [m]) := by
  have hsource : (ZeroFree root.text ∧ IsFileName n) →
      t.linkStat cwd (root.child n) = .ok (d ++ [n], .directory) := fun hfit =>
    (linkStat_child_iff hl hn hc).mpr ⟨hfit, rfl, hg⟩
  have hplace : ∀ pl, t.resolve cwd false (target.child m) = .ok pl ↔
      (ZeroFree target.text ∧ IsFileName m) ∧ pl = t.placeAt (d' ++ [m]) := fun _ =>
    resolve_child_iff hl' hm hc'
  unfold rename
  constructor
  · intro h
    cases hs : t.linkStat cwd (root.child n) with
    | error e =>
      rw [hs] at h
      cases h
    | ok r =>
      obtain ⟨key, e⟩ := r
      obtain ⟨hfit, rfl, he⟩ := (linkStat_child_iff hl hn hc).mp hs
      cases hg.symm.trans he
      rw [hs] at h
      simp only [bind, Except.bind, withoutSeparator_eq (endsWithSeparator_child target hm), ite_self] at h
      cases hr : t.resolve cwd false (target.child m) with
      | error e =>
        rw [hr] at h
        cases h
      | ok place =>
        obtain ⟨hfit', rfl⟩ := (hplace place).mp hr
        refine ⟨⟨hfit, hfit'⟩, ?_⟩
        rw [hr] at h
        simp only [placeAt_key, hbelow, Bool.and_false] at h
        cases ht : t.get? (d' ++ [m]) with
        | none =>
          rw [placeAt_of_none ht] at h
          cases h
          exact ⟨Or.inl rfl, rfl⟩
        | some there =>
          rw [placeAt_of_some ht] at h
          cases there with
          | directory =>
            simp only [if_neg hne] at h
            cases hb : (t.below (d' ++ [m])).isEmpty with
            | true =>
              simp only [hb] at h
              cases h
              exact ⟨Or.inr ⟨rfl, rfl⟩, rfl⟩
            | false =>
              simp only [hb] at h
              cases h
          | file body x =>
            simp only [if_neg hne] at h
            cases h
          | link dest => exact absurd ht (hc' dest)
  · rintro ⟨⟨hfit, hfit'⟩, hfree, rfl⟩
    rw [hsource hfit]
    simp only [bind, Except.bind, withoutSeparator_eq (endsWithSeparator_child target hm), ite_self]
    rw [(hplace _).mpr ⟨hfit', rfl⟩]
    simp only [placeAt_key, hbelow, Bool.and_false]
    rcases hfree with ht | ⟨ht, hb⟩
    · rw [placeAt_of_none ht]
      rfl
    · rw [placeAt_of_some ht]
      simp only [if_neg hne, hb]
      rfl

end Child

/-! ## Links that are not followed -/

section Entry

variable (hl : Leads t cwd root d) (hn : IsEntryName n.toList)
include hl hn

theorem resolve_entry_iff {pl : Place} : t.resolve cwd false (root.child n) = .ok pl ↔
    (ZeroFree root.text ∧ IsFileName n) ∧ pl = t.placeAt (d ++ [n]) :=
  resolve_child_iff_of_follow hl hn fun hf => by cases hf

/-- An entry is found in its directory, whatever it is. -/
theorem linkStat_entry_iff {key : Key} {e : Entry} : t.linkStat cwd (root.child n) = .ok (key, e) ↔
    (ZeroFree root.text ∧ IsFileName n) ∧ key = d ++ [n] ∧ t.get? (d ++ [n]) = some e := by
  rw [linkStat_iff, resolve_entry_iff hl hn]
  refine and_congr_right fun _ => ?_
  cases hg : t.get? (d ++ [n]) with
  | none => simp [placeAt_of_none hg]
  | some e' => simp [placeAt_of_some hg, eq_comm]

/-- A directory is removed with all under it, a link alone. -/
theorem removeTree_entry (h : t.removeTree cwd (root.child n) = .ok t') :
    (ZeroFree root.text ∧ IsFileName n) ∧
      (t.get? (d ++ [n]) = some .directory ∧ t' = t.eraseAll (d ++ [n]) ∨
        (∃ target, t.get? (d ++ [n]) = some (.link target)) ∧ t' = t.erase (d ++ [n])) := by
  unfold removeTree at h
  cases hs : t.linkStat cwd (root.child n) with
  | error e =>
    rw [hs] at h
    cases h
  | ok r =>
    obtain ⟨key, e⟩ := r
    obtain ⟨hfit, rfl, hg⟩ := (linkStat_entry_iff hl hn).mp hs
    rw [hs] at h
    refine ⟨hfit, ?_⟩
    cases e with
    | directory =>
      cases h
      exact Or.inl ⟨hg, rfl⟩
    | file body x => cases h
    | link target =>
      cases h
      exact Or.inr ⟨⟨target, hg⟩, rfl⟩

/-- A file or link is removed from its directory. -/
theorem removeFile_entry (h : t.removeFile cwd (root.child n) = .ok t') :
    t.get? (d ++ [n]) ≠ none ∧ t.get? (d ++ [n]) ≠ some .directory ∧ t' = t.erase (d ++ [n]) := by
  obtain ⟨key, e, hne, hres, rfl⟩ := removeFile_eq h
  obtain ⟨-, rfl, hg⟩ := (linkStat_entry_iff hl hn).mp (linkStat_iff.mpr hres)
  rw [hg]
  exact ⟨by simp, fun he => hne (Option.some.inj he), rfl⟩

/-- A directory is removed that nothing lies in. -/
theorem removeDirectory_entry (h : t.removeDirectory cwd (root.child n) = .ok t') : t' = t.erase (d ++ [n]) := by
  obtain ⟨key, hres, rfl⟩ := removeDirectory_eq h
  obtain ⟨-, rfl, -⟩ := (linkStat_entry_iff hl hn).mp (linkStat_iff.mpr hres)
  rfl

/-- An entry is moved to another name: a directory to a free name or to that of an empty directory,
anything else to a name that no directory has. -/
theorem rename_entry {target : Path} {d' : Key} {m : String} (hl' : Leads t cwd target d')
    (hm : IsEntryName m.toList) (hne : d' ++ [m] ≠ d ++ [n])
    (h : t.rename cwd (root.child n) (target.child m) = .ok t') : IsFileName m ∧
      t' = t.move (d ++ [n]) (d' ++ [m]) ∧ ∃ e, t.get? (d ++ [n]) = some e ∧
        (e = .directory → t.get? (d' ++ [m]) = none ∨
          t.get? (d' ++ [m]) = some .directory ∧ (t.below (d' ++ [m])).isEmpty = true) ∧
        (e ≠ .directory → t.get? (d' ++ [m]) ≠ some .directory) := by
  unfold rename at h
  cases hs : t.linkStat cwd (root.child n) with
  | error e =>
    rw [hs] at h
    cases h
  | ok r =>
    obtain ⟨key, e⟩ := r
    obtain ⟨-, rfl, hg⟩ := (linkStat_entry_iff hl hn).mp hs
    rw [hs] at h
    simp only [bind, Except.bind, withoutSeparator_eq (endsWithSeparator_child target hm), ite_self] at h
    cases hr : t.resolve cwd false (target.child m) with
    | error e =>
      rw [hr] at h
      cases h
    | ok place =>
      obtain ⟨hfit, rfl⟩ := (resolve_entry_iff hl' hm).mp hr
      rw [hr] at h
      dsimp only at h
      refine ⟨hfit.2, ?_⟩
      split at h
      · cases h
      · cases hto : t.get? (d' ++ [m]) with
        | none =>
          rw [placeAt_of_none hto] at h
          cases h
          exact ⟨rfl, e, hg, fun _ => Or.inl rfl, fun _ => nofun⟩
        | some there =>
          rw [placeAt_of_some hto] at h
          simp only [if_neg hne] at h
          cases he : e.isDirectory with
          | true =>
            obtain rfl : e = .directory := by
              cases e with
              | directory => rfl
              | file body x => cases he
              | link dest => cases he
            cases there with
            | directory =>
              cases hb : (t.below (d' ++ [m])).isEmpty with
              | true =>
                simp only [he, hb] at h
                cases h
                exact ⟨rfl, _, hg, fun _ => Or.inr ⟨rfl, rfl⟩, fun hno => absurd rfl hno⟩
              | false =>
                simp only [he, hb] at h
                cases h
            | file body x => cases h
            | link dest => cases h
          | false =>
            have hno : e ≠ .directory := by
              rintro rfl
              cases he
            simp only [he] at h
            cases there with
            | directory => cases h
            | file body x =>
              cases h
              exact ⟨rfl, e, hg, fun hd => absurd hd hno, fun _ => nofun⟩
            | link dest =>
              cases h
              exact ⟨rfl, e, hg, fun hd => absurd hd hno, fun _ => nofun⟩

end Entry

/-- A link that is not followed is found in its directory. -/
theorem linkStat_child_of_link (hl : Leads t cwd root d) (hzero : ZeroFree root.text) (hn : IsFileName n)
    {dest : String} (hg : t.get? (d ++ [n]) = some (.link dest)) :
    t.linkStat cwd (root.child n) = .ok (d ++ [n], .link dest) :=
  (linkStat_entry_iff hl hn.entry).mpr ⟨⟨hzero, hn⟩, rfl, hg⟩

theorem isThere_of_isDirectory (h : t.isDirectory cwd p = true) : t.isThere cwd p = true := by
  unfold isDirectory at h
  unfold isThere
  cases hs : t.stat cwd p with
  | ok found => rfl
  | error e =>
    rw [hs] at h
    cases h

/-- Where a link is, no directory is made; the path may lead to one. -/
theorem isDirectory_of_makeDirectories_link (hl : Leads t cwd root d) (hzero : ZeroFree root.text)
    (hn : IsFileName n) {dest : String} (hg : t.get? (d ++ [n]) = some (.link dest))
    (h : t.makeDirectories cwd (root.child n) = .ok t') : t.isDirectory cwd (root.child n) = true := by
  have htext : (root.child n).text ≠ "" := fun he =>
    toList_child_ne_nil root hn.entry (String.toList_eq_nil_iff.mpr he)
  have htaken : t.makeDirectory cwd (root.child n) = .error .alreadyExists := by
    unfold makeDirectory
    rw [withoutSeparator_eq (endsWithSeparator_child root hn.entry),
      (resolve_entry_iff hl hn.entry).mpr ⟨⟨hzero, hn⟩, rfl⟩, placeAt_of_some hg]
    rfl
  obtain ⟨parents, hparents⟩ := ancestors_eq_cons (root.child n)
  unfold makeDirectories at h
  rw [hparents, makeChain_of_ne htext (by rw [htaken]; simp), htaken] at h
  rcases orDirectory_cases h with h | ⟨-, hd⟩
  · cases h
  · exact hd

/-- A link is moved to another name, unless a directory has it. -/
theorem rename_link_child_iff {target : Path} {d' : Key} {m dest : String} (hl : Leads t cwd root d)
    (hzero : ZeroFree root.text) (hn : IsFileName n) (hg : t.get? (d ++ [n]) = some (.link dest))
    (hl' : Leads t cwd target d') (hm : IsEntryName m.toList)
    (hc' : ∀ dest, t.get? (d' ++ [m]) ≠ some (.link dest)) (hne : d' ++ [m] ≠ d ++ [n]) :
    t.rename cwd (root.child n) (target.child m) = .ok t' ↔ (ZeroFree target.text ∧ IsFileName m) ∧
      t.get? (d' ++ [m]) ≠ some .directory ∧ t' = t.move (d ++ [n]) (d' ++ [m]) := by
  have hplace : ∀ pl, t.resolve cwd false (target.child m) = .ok pl ↔
      (ZeroFree target.text ∧ IsFileName m) ∧ pl = t.placeAt (d' ++ [m]) := fun _ =>
    resolve_child_iff hl' hm hc'
  unfold rename
  rw [linkStat_child_of_link hl hzero hn hg]
  simp only [bind, Except.bind, Entry.isDirectory, Bool.false_eq_true, if_false, Bool.false_and]
  constructor
  · intro h
    cases hr : t.resolve cwd false (target.child m) with
    | error e =>
      rw [hr] at h
      cases h
    | ok place =>
      obtain ⟨hfit, rfl⟩ := (hplace place).mp hr
      rw [hr] at h
      refine ⟨hfit, ?_⟩
      cases ht : t.get? (d' ++ [m]) with
      | none =>
        rw [placeAt_of_none ht] at h
        cases h
        exact ⟨nofun, rfl⟩
      | some there =>
        rw [placeAt_of_some ht] at h
        simp only [if_neg hne] at h
        cases there with
        | directory => cases h
        | file body x =>
          cases h
          exact ⟨nofun, rfl⟩
        | link dest => exact absurd ht (hc' dest)
  · rintro ⟨hfit, hno, rfl⟩
    rw [(hplace _).mpr ⟨hfit, rfl⟩]
    cases ht : t.get? (d' ++ [m]) with
    | none =>
      rw [placeAt_of_none ht]
      rfl
    | some there =>
      rw [placeAt_of_some ht]
      simp only [if_neg hne]
      cases there with
      | directory => exact absurd ht hno
      | file body x => rfl
      | link dest => exact absurd ht (hc' dest)

end CipherCorpus.FileTree

namespace CipherCorpus

open FileTree CipherCorpus.Path
open Archive (under)

/-- A path under a home is resolved to the place of its names. -/
theorem Home.place_eq {root : Path} {home : Key} {h : Host} {f : Bool} {ns : List String} {pl : FileTree.Place}
    (hh : Home root home h) (hn : ∀ n ∈ ns, IsEntryName n.toList) (hne : ns ≠ [])
    (hr : h.files.resolve h.cwd f (under root ns) = .ok pl) : pl = h.files.placeAt (home ++ ns) := by
  obtain ⟨ms, x, rfl⟩ := (List.eq_nil_or_concat' ns).resolve_left hne
  obtain ⟨hms, hx⟩ := List.forall_mem_append.mp hn
  rw [under_concat] at hr
  obtain ⟨d, more, hl, -⟩ := leads_of_resolve hx (by simp)
    (show h.files.resolve h.cwd f (under (under root ms) [x]) = _ from hr)
  obtain rfl : d = home ++ ms := by
    by_cases hnil : ms = []
    · subst hnil
      rw [List.append_nil]
      exact hh.leads _ _ (.refl _) hl
    · exact (hh.leads_under hms hnil hl).1
  obtain ⟨-, rfl⟩ := (FileTree.resolve_child_iff hl (hx x (List.mem_singleton_self x)) fun target =>
    hh.clearUnder_append ms _ target (List.prefix_append _ _)).mp hr
  rw [List.append_assoc]

end CipherCorpus
