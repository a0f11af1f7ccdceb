import CipherCorpus.Proofs.FileTree.Change

/-!
# Where a file is written

A path lands at a key when it is resolved to it and a file or nothing is there.  A file is written
exactly where its path lands (`write_iff_lands`), and what a path lets read is the file where it lands
(`bodyOf?_of_lands`).  In trees with the same links and directories a path lands at the same key,
whatever files they hold (`SameShape.lands_iff`), and writing a file keeps them (`Lands.sameShape_put`).
-/

namespace CipherCorpus.FileTree

variable {t u : FileTree} {cwd j k : Key} {p : Path} {body : Body}

/-- Two trees have the same links and directories. -/
structure SameShape (t u : FileTree) : Prop where
  links : SameLinks t u
  directories : ∀ k, u.get? k = some .directory ↔ t.get? k = some .directory

/-- The path is resolved to the key, where a file or nothing is. -/
def Lands (t : FileTree) (cwd : Key) (p : Path) (k : Key) : Prop :=
  ∃ pl, t.resolve cwd true p = .ok pl ∧ pl.OpenAt t k

/-- What the file at a key holds. -/
def bodyAt? (t : FileTree) (k : Key) : Option Body :=
  match t.get? k with
  | some (.file body _) => some body
  | _ => none

/-- Whether the file at a key can be run. -/
def executableAt (t : FileTree) (k : Key) : Bool :=
  match t.get? k with
  | some (.file _ executable) => executable
  | _ => false

/-- What the file that a path names holds. -/
def bodyOf? (t : FileTree) (cwd : Key) (p : Path) : Option Body :=
  match t.resolve cwd true p with
  | .ok (.present _ (.file body _)) => some body
  | _ => none

/-! ## Open places -/

theorem Place.OpenAt.key_eq {pl : Place} (h : pl.OpenAt t k) : pl.key = k := by
  cases h with
  | free => rfl
  | file => rfl

/-- Neither a directory nor a link is at an open place. -/
theorem exists_openAt_iff : (∃ pl : Place, pl.OpenAt t k) ↔
    t.get? k ≠ some .directory ∧ ∀ target, t.get? k ≠ some (.link target) := by
  constructor
  · rintro ⟨pl, ho⟩
    cases ho with
    | free hg => simp [hg]
    | file hg => simp [hg]
  · rintro ⟨hdirectory, hlink⟩
    cases hg : t.get? k with
    | none => exact ⟨_, .free hg⟩
    | some e =>
      cases e with
      | file body x => exact ⟨_, .file hg⟩
      | directory => exact absurd hg hdirectory
      | link target => exact absurd hg (hlink target)

/-- A path that is resolved to a file or a free place lands there. -/
theorem openAt_of_resolve {pl : Place} (hr : t.resolve cwd true p = .ok pl)
    (hp : (∃ key, pl = .absent key) ∨ ∃ key b x, pl = .present key (.file b x)) :
    pl.OpenAt t pl.key := by
  rcases hp with ⟨key, rfl⟩ | ⟨key, b, x, rfl⟩
  · exact .free (sound_of_resolve hr).1
  · exact .file ((sound_of_resolve hr).resolve_left nofun)

theorem Lands.unique (hj : Lands t cwd p j) (hk : Lands t cwd p k) : j = k := by
  obtain ⟨pl, hr, ho⟩ := hj
  obtain ⟨pl', hr', ho'⟩ := hk
  rw [← ho.key_eq, ← ho'.key_eq, Except.ok.inj (hr.symm.trans hr')]

theorem Lands.get? (h : Lands t cwd p k) :
    t.get? k ≠ some .directory ∧ ∀ target, t.get? k ≠ some (.link target) := by
  obtain ⟨pl, -, ho⟩ := h
  exact exists_openAt_iff.mp ⟨pl, ho⟩

theorem Lands.ne_nil (h : Lands t cwd p k) : k ≠ [] := by
  rintro rfl
  exact h.get?.1 (get?_nil t)

/-- Where a path lands and something is, there is a file. -/
theorem Lands.exists_body (h : Lands t cwd p k) (hg : t.get? k ≠ none) :
    ∃ body, t.bodyAt? k = some body := by
  obtain ⟨pl, -, ho⟩ := h
  unfold bodyAt?
  cases ho with
  | free hfree => exact absurd hfree hg
  | file hfile => exact ⟨_, by rw [hfile]⟩

theorem bodyAt?_of_none (h : t.get? k = none) : t.bodyAt? k = none := by
  unfold bodyAt?
  rw [h]

/-! ## Reading and writing -/

theorem bodyOf?_of_lands (h : Lands t cwd p k) : t.bodyOf? cwd p = t.bodyAt? k := by
  obtain ⟨pl, hr, ho⟩ := h
  unfold bodyOf? bodyAt?
  rw [hr]
  cases ho with
  | free hg => rw [hg]
  | file hg => rw [hg]

theorem bodyOf?_of_not_lands (h : ∀ k, ¬ Lands t cwd p k) : t.bodyOf? cwd p = none := by
  unfold bodyOf?
  split
  · next key body x hr => exact absurd ⟨_, hr, openAt_of_resolve hr (Or.inr ⟨key, body, x, rfl⟩)⟩ (h key)
  · rfl

/-- A file is written where its path lands, and keeps the mode of the file that was there. -/
theorem write_iff_lands {t' : FileTree} : t.write cwd p body = .ok t' ↔
    endsWithSeparator p = false ∧
      ∃ k, Lands t cwd p k ∧ t' = t.put k (.file body (t.executableAt k)) := by
  have hmode : ∀ {pl : Place} {k : Key}, pl.OpenAt t k → pl.executable = t.executableAt k := by
    intro pl k ho
    unfold executableAt
    cases ho with
    | free hg => rw [hg]; rfl
    | file hg => rw [hg]; rfl
  rw [write_iff]
  refine and_congr_right fun _ => ⟨?_, ?_⟩
  · rintro ⟨pl, hr, hp, rfl⟩
    have ho := openAt_of_resolve hr hp
    exact ⟨pl.key, ⟨pl, hr, ho⟩, by rw [hmode ho]⟩
  · rintro ⟨k, ⟨pl, hr, ho⟩, rfl⟩
    refine ⟨pl, hr, ?_, by rw [hmode ho, ho.key_eq]⟩
    cases ho with
    | free => exact Or.inl ⟨k, rfl⟩
    | file => exact Or.inr ⟨k, _, _, rfl⟩

theorem write_of_lands (hs : endsWithSeparator p = false) (h : Lands t cwd p k) (body : Body) :
    t.write cwd p body = .ok (t.put k (.file body (t.executableAt k))) :=
  write_iff_lands.mpr ⟨hs, k, h, rfl⟩

theorem exists_write_error (h : ∀ k, ¬ Lands t cwd p k) (body : Body) :
    ∃ e, t.write cwd p body = .error e := by
  cases hw : t.write cwd p body with
  | ok t' =>
    obtain ⟨-, k, hl, -⟩ := write_iff_lands.mp hw
    exact absurd hl (h k)
  | error e => exact ⟨e, rfl⟩

/-! ## Trees of the same shape -/

theorem SameShape.symm (h : SameShape t u) : SameShape u t := ⟨h.links.symm, fun k => (h.directories k).symm⟩

theorem SameShape.trans {v : FileTree} (h : SameShape t u) (h' : SameShape u v) : SameShape t v :=
  ⟨h.links.trans h'.links, fun k => (h'.directories k).trans (h.directories k)⟩

/-- Where a path lands does not depend on the files. -/
theorem Lands.of_sameShape (hs : SameShape t u) (h : Lands t cwd p k) : Lands u cwd p k := by
  have hopen := h.get?
  obtain ⟨pl, hr, ho⟩ := h
  obtain ⟨pl', ho'⟩ : ∃ pl : Place, pl.OpenAt u k := exists_openAt_iff.mpr
    ⟨fun hg => hopen.1 ((hs.directories k).mp hg), fun target hg => hopen.2 target ((hs.links k target).mp hg)⟩
  obtain ⟨htext, n, hn, hw⟩ := resolve_iff.mp hr
  have hnot : ∀ key, pl ≠ .present key .directory := by
    rintro key rfl
    cases ho
  exact ⟨pl', resolve_iff.mpr ⟨htext, n, hn, hw.grow_open (fun k => (hs.directories k).mpr)
    (fun k target => (hs.links k target).mpr) hnot (ho.key_eq ▸ ho')⟩, ho'⟩

theorem SameShape.lands_iff (hs : SameShape t u) : Lands u cwd p k ↔ Lands t cwd p k :=
  ⟨.of_sameShape hs.symm, .of_sameShape hs⟩

/-- A file is put where neither a directory nor a link is. -/
theorem Lands.sameShape_put (h : Lands t cwd p k) (body : Body) (x : Bool) :
    SameShape t (t.put k (.file body x)) := by
  obtain ⟨hdirectory, hlink⟩ := h.get?
  exact ⟨fun j target => get?_put_eq_some_iff h.ne_nil nofun (hlink target),
    fun j => get?_put_eq_some_iff h.ne_nil nofun hdirectory⟩

theorem bodyAt?_put_self (hk : k ≠ []) (body : Body) (x : Bool) :
    (t.put k (.file body x)).bodyAt? k = some body := by
  unfold bodyAt?
  rw [get?_put_self _ _ hk]

theorem bodyAt?_put_ne (hj : j ≠ k) (e : Entry) : (t.put k e).bodyAt? j = t.bodyAt? j := by
  unfold bodyAt?
  rw [get?_put_ne _ _ hj]

end CipherCorpus.FileTree
