import CipherCorpus.Proofs.FileTree.Outside

/-!
# Entries that stay what they are

`KeepsKinds S t t'` says that outside of the keys in `S` nothing goes away and everything stays what it
is: a directory, a link with its target, a file, whatever is in it.  Where a path leads to a directory is
decided by directories and links alone, so a path that leads to one from outside still does
(`LeadsFromOutside.of_keepsKinds`).
-/

namespace CipherCorpus

/-- The same entry, or both are files. -/
def Entry.Alike (e e' : Entry) : Prop := e' = e ∨ e.isFile = true ∧ e'.isFile = true

theorem Entry.Alike.eq {e e' : Entry} (h : e.Alike e') (he : e.isFile = false) : e' = e := by
  refine h.resolve_right fun hf => ?_
  rw [he] at hf
  cases hf.1

theorem Entry.Alike.trans {e1 e2 e3 : Entry} (h : e1.Alike e2) (h' : e2.Alike e3) : e1.Alike e3 := by
  rcases h with rfl | ⟨h1, h2⟩
  · exact h'
  · rcases h' with rfl | ⟨-, h3⟩
    · exact Or.inr ⟨h1, h2⟩
    · exact Or.inr ⟨h1, h3⟩

namespace FileTree

variable {t t' t'' : FileTree} {cwd home k : Key} {p : Path} {S S' : Key → Prop}

/-- Outside of `S` nothing goes away, and everything stays what it is. -/
def KeepsKinds (S : Key → Prop) (t t' : FileTree) : Prop :=
  ∀ k e, ¬ S k → t.get? k = some e → ∃ e', t'.get? k = some e' ∧ e.Alike e'

namespace KeepsKinds

theorem refl (S : Key → Prop) (t : FileTree) : KeepsKinds S t t := fun _ e _ he => ⟨e, he, Or.inl rfl⟩

theorem trans (h : KeepsKinds S t t') (h' : KeepsKinds S t' t'') : KeepsKinds S t t'' := by
  intro k e hk he
  obtain ⟨e1, he1, h1⟩ := h k e hk he
  obtain ⟨e2, he2, h2⟩ := h' k e1 hk he1
  exact ⟨e2, he2, h1.trans h2⟩

theorem mono (h : KeepsKinds S t t') (hs : ∀ k, S k → S' k) : KeepsKinds S' t t' :=
  fun k e hk he => h k e (fun hS => hk (hs k hS)) he

theorem of_frame (h : ∀ k, ¬ S k → t'.get? k = t.get? k) : KeepsKinds S t t' :=
  fun k e hk he => ⟨e, (h k hk).trans he, Or.inl rfl⟩

theorem of_changesOnly (h : ChangesOnly S t t') : KeepsKinds S t t' :=
  fun _ e hk he => ⟨e, h.get?_eq hk he, Or.inl rfl⟩

/-- What is no file is as it was. -/
theorem get?_eq (h : KeepsKinds S t t') (hk : ¬ S k) {e : Entry} (he : t.get? k = some e)
    (hf : e.isFile = false) : t'.get? k = some e := by
  obtain ⟨e', he', halike⟩ := h k e hk he
  exact halike.eq hf ▸ he'

theorem ne_none (h : KeepsKinds S t t') (hk : ¬ S k) (he : t.get? k ≠ none) : t'.get? k ≠ none := by
  obtain ⟨e, he⟩ := Option.ne_none_iff_exists'.mp he
  obtain ⟨e', he', -⟩ := h k e hk he
  rw [he']
  exact nofun

end KeepsKinds

/-! ## Operations -/

theorem keepsKinds_put_free {key : Key} {e : Entry} (hfree : t.get? key = none) : KeepsKinds S t (t.put key e) := by
  intro k e' _ he
  refine ⟨e', ?_, Or.inl rfl⟩
  rw [get?_put_ne]
  · exact he
  · rintro rfl
    cases hfree.symm.trans he

/-- A file is written where nothing or a file is. -/
theorem keepsKinds_write {body : Body} (h : t.write cwd p body = .ok t') : KeepsKinds S t t' := by
  obtain ⟨place, x, hr, ⟨key, rfl⟩ | ⟨key, b, y, rfl⟩, rfl⟩ := write_eq h
  · exact keepsKinds_put_free (sound_of_resolve hr).1
  · intro k e _ he
    have hg : t.get? key = some (.file b y) := (sound_of_resolve hr).resolve_left (by simp)
    by_cases hk : k = key
    · subst hk
      cases hg.symm.trans he
      exact ⟨_, get?_put_self t _ (ne_nil_of_get? hg (by simp)), Or.inr ⟨rfl, rfl⟩⟩
    · exact ⟨e, (get?_put_ne t _ hk).trans he, Or.inl rfl⟩

/-! ## Paths that lead to a directory from outside -/

/-- Changes in a directory do not matter, and outside of it none that keep what things are. -/
theorem LeadsFromOutside.of_keepsKinds (h : t.LeadsFromOutside cwd p home) (hk : KeepsKinds S t t')
    (hS : ∀ k, S k → isBelow home k = true) : t'.LeadsFromOutside cwd p home := by
  have hkeep : ∀ k e, e.isFile = false → (t.emptied home).get? k = some e →
      (t'.emptied home).get? k = some e := by
    intro k e hf he
    obtain ⟨hout, he⟩ := eq_of_get?_emptied he
    rw [get?_emptied_of_outside _ hout]
    refine hk.get?_eq (fun hs => ?_) he hf
    rw [hS k hs] at hout
    cases hout
  exact ⟨hkeep _ _ rfl h.start,
    h.leads.grow (fun k => hkeep k _ rfl) fun k target => hkeep k _ rfl⟩

/-- Nothing lies in what is no directory, so it makes no difference to remove all that does. -/
theorem WellFormed.erase_eq_eraseAll (h : t.WellFormed) (hk : t.get? k ≠ some .directory) :
    t.erase k = t.eraseAll k := by
  unfold FileTree.erase FileTree.eraseAll
  congr 1
  refine List.filter_congr fun e he => ?_
  rw [Bool.eq_iff_iff, bne_iff_ne, Bool.not_eq_true', ← Bool.not_eq_true, List.isPrefixOf_iff_prefix]
  refine not_congr ⟨fun heq => heq ▸ List.prefix_refl _, ?_⟩
  rintro ⟨x, hx⟩
  by_contra hne
  have hx0 : x ≠ [] := by
    rintro rfl
    rw [List.append_nil] at hx
    exact hne hx.symm
  exact get?_ne_none_of_mem he (hx ▸ h.get?_append hk hx0)

end FileTree

end CipherCorpus
