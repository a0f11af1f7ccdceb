import CipherCorpus.Compile.Matrix
import Mathlib.Data.Finset.Card

/-!
# The cells of a build matrix

Repeated levels and functions are dropped (`nodup_distinct`, `mem_distinct`), and the architectures of
a registry are pairwise different (`Registry.nodup_ids`).  So the cells of a matrix are pairwise
different and their number is a product:

    (cells archs levels functions).length = |archs| * |levels| * |functions|     (length_cells)
-/

namespace CipherCorpus

namespace Compiler

theorem foldl_distinct (items seen : List String) (hs : seen.Nodup) :
    (items.foldl (fun seen s => if seen.contains s then seen else seen ++ [s]) seen).Nodup ∧
    ∀ s, s ∈ items.foldl (fun seen s => if seen.contains s then seen else seen ++ [s]) seen ↔
      s ∈ seen ∨ s ∈ items := by
  induction items generalizing seen with
  | nil => exact ⟨hs, fun s => by simp⟩
  | cons x rest ih =>
    rw [List.foldl_cons]
    by_cases hx : x ∈ seen
    · rw [if_pos (by simpa using hx)]
      obtain ⟨hn, hm⟩ := ih seen hs
      refine ⟨hn, fun s => ?_⟩
      rw [hm, List.mem_cons]
      constructor
      · rintro (h | h)
        · exact Or.inl h
        · exact Or.inr (Or.inr h)
      · rintro (h | rfl | h)
        · exact Or.inl h
        · exact Or.inl hx
        · exact Or.inr h
    · rw [if_neg (by simpa using hx)]
      have hs' : (seen ++ [x]).Nodup :=
        List.nodup_append.mpr ⟨hs, by simp, fun a ha b hb => by
          rw [List.mem_singleton] at hb
          rintro rfl
          exact hx (hb ▸ ha)⟩
      obtain ⟨hn, hm⟩ := ih (seen ++ [x]) hs'
      refine ⟨hn, fun s => ?_⟩
      rw [hm, List.mem_append, List.mem_singleton, List.mem_cons, or_assoc]

theorem nodup_distinct (items : List String) : (distinct items).Nodup :=
  (foldl_distinct items [] List.nodup_nil).1

@[simp] theorem mem_distinct {items : List String} {s : String} : s ∈ distinct items ↔ s ∈ items := by
  unfold distinct
  rw [(foldl_distinct items [] List.nodup_nil).2]
  simp

/-- Dropping repetitions keeps as many entries as there are different ones. -/
theorem length_distinct (items : List String) : (distinct items).length = items.toFinset.card := by
  have h : (distinct items).toFinset = items.toFinset := by
    ext s
    simp
  rw [← h, List.toFinset_card_of_nodup (nodup_distinct items)]

theorem mem_cells {archs levels functions : List String} {cell : Cell} :
    cell ∈ cells archs levels functions ↔
      cell.architecture ∈ archs ∧ cell.optimization ∈ levels ∧ cell.function ∈ functions := by
  unfold cells
  simp only [List.mem_flatMap, List.mem_map]
  constructor
  · rintro ⟨a, ha, o, ho, f, hf, rfl⟩
    exact ⟨ha, ho, hf⟩
  · rintro ⟨ha, ho, hf⟩
    exact ⟨_, ha, _, ho, _, hf, rfl⟩

theorem length_cells (archs levels functions : List String) :
    (cells archs levels functions).length = archs.length * levels.length * functions.length := by
  unfold cells
  simp [List.length_flatMap, Nat.mul_assoc]

theorem nodup_cells {archs levels functions : List String} (ha : archs.Nodup) (hl : levels.Nodup)
    (hf : functions.Nodup) : (cells archs levels functions).Nodup := by
  unfold cells
  refine List.nodup_flatMap.mpr ⟨fun a _ => List.nodup_flatMap.mpr ⟨fun o _ => ?_, ?_⟩, ?_⟩
  · exact hf.map fun f g h => (Cell.mk.injEq .. ▸ h).2.2
  · refine hl.imp fun {o p} hne => ?_
    intro cell h h'
    obtain ⟨f, -, rfl⟩ := List.mem_map.mp h
    obtain ⟨g, -, hg⟩ := List.mem_map.mp h'
    exact hne (congrArg Cell.optimization hg).symm
  · refine ha.imp fun {a b} hne => ?_
    intro cell h h'
    obtain ⟨o, -, hc⟩ := List.mem_flatMap.mp h
    obtain ⟨p, -, hc'⟩ := List.mem_flatMap.mp h'
    obtain ⟨f, -, rfl⟩ := List.mem_map.mp hc
    obtain ⟨g, -, hg⟩ := List.mem_map.mp hc'
    exact hne (congrArg Cell.architecture hg).symm

end Compiler

theorem Architecture.notMem_id_of_catalog {id : String} (h : id ∈ catalog.map (·.id)) :
    '_' ∉ id.toList ∧ '/' ∉ id.toList := by
  have hc : ∀ id ∈ catalog.map (·.id), '_' ∉ id.toList ∧ '/' ∉ id.toList := by decide
  exact hc id h

namespace Registry

/-- A probed registry lists a part of the catalog, in its order. -/
theorem sublist_of_probe {accepts : Architecture → Bool} {r : Registry} (h : probe accepts = .ok r) :
    r.available.Sublist Architecture.catalog := by
  unfold probe at h
  simp only [] at h
  split at h
  · cases h
  · cases h
    exact List.filter_sublist

theorem ids_ne_nil {accepts : Architecture → Bool} {r : Registry} (h : probe accepts = .ok r) :
    r.ids ≠ [] := by
  unfold probe at h
  simp only [] at h
  split at h
  · cases h
  · next hne =>
    cases h
    simpa [ids] using hne

theorem nodup_ids {accepts : Architecture → Bool} {r : Registry} (h : probe accepts = .ok r) :
    r.ids.Nodup := by
  have hc : (Architecture.catalog.map (·.id)).Nodup := by decide
  exact hc.sublist ((sublist_of_probe h).map _)

theorem mem_catalog_of_probe {accepts : Architecture → Bool} {r : Registry} (h : probe accepts = .ok r)
    {id : String} (hid : id ∈ r.ids) : id ∈ Architecture.catalog.map (·.id) :=
  ((sublist_of_probe h).map _).subset hid

/-- Ids of architectures hold no separator of file names or paths. -/
theorem notMem_id_of_probe {accepts : Architecture → Bool} {r : Registry} (h : probe accepts = .ok r)
    {id : String} (hid : id ∈ r.ids) : '_' ∉ id.toList ∧ '/' ∉ id.toList :=
  Architecture.notMem_id_of_catalog (mem_catalog_of_probe h hid)

end Registry

end CipherCorpus
