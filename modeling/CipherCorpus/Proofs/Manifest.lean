import CipherCorpus.Manifest
import CipherCorpus.Proofs.OrderedMap
import Mathlib.Data.Finset.Card

/-!
# What a manifest records

The place of an artifact is its library with the key of its cell.  After artifacts have been recorded
one after the other (`Records`), a place holds the entry of the last artifact with that place, and the
manifest has as many entries as there are different places:

    m.size = (artifacts.map place).toFinset.card

So no artifact is lost exactly when the places are pairwise different (`Records.size_eq_iff`).
-/

namespace CipherCorpus

/-- Library and key under which an artifact is recorded. -/
def Artifact.place (a : Artifact) : String × String := (a.library, a.cell.key)

namespace Manifest

/-- The entry of a library under a key. -/
def find? (m : Manifest) (place : String × String) : Option ManifestEntry :=
  (m.libraries.get? place.1).bind (·.get? place.2)

/-- The entries of a manifest are those that a place looks up to. -/
theorem mem_entries_iff {m : Manifest} {library key : String} {e : ManifestEntry} :
    (library, key, e) ∈ m.entries ↔ m.find? (library, key) = some e := by
  unfold entries find?
  rw [List.mem_flatMap, Option.bind_eq_some_iff]
  constructor
  · rintro ⟨⟨name, es⟩, hl, hm⟩
    obtain ⟨⟨k, v⟩, hv, he⟩ := List.mem_map.mp hm
    cases he
    exact ⟨es, (m.libraries.mem_entries_iff _ _).mp hl, (es.mem_entries_iff _ _).mp hv⟩
  · rintro ⟨es, hl, he⟩
    exact ⟨(library, es), (m.libraries.mem_entries_iff _ _).mpr hl,
      List.mem_map.mpr ⟨(key, e), (es.mem_entries_iff _ _).mpr he, rfl⟩⟩

/-! ## One artifact more -/

theorem add_append (m : Manifest) (library : String) (as : List Artifact) (a : Artifact) :
    m.add library (as ++ [a]) = (m.add library as).add library [a] := by
  unfold add
  rw [OrderedMap.get?_insert_self, OrderedMap.insert_insert]
  simp [addAll]

theorem find?_add_nil (m : Manifest) (library : String) (place : String × String) :
    (m.add library []).find? place = m.find? place := by
  unfold find? add addAll
  rw [List.foldl_nil, OrderedMap.get?_insert]
  split
  · next h =>
    rw [h]
    cases m.libraries.get? library with
    | none => rfl
    | some es => rfl
  · rfl

theorem find?_add_singleton (m : Manifest) (a : Artifact) (place : String × String) :
    (m.add a.library [a]).find? place =
      if place = a.place then some (.ofArtifact a) else m.find? place := by
  obtain ⟨library, key⟩ := place
  unfold find? add addAll Artifact.place
  simp only [List.foldl_cons, List.foldl_nil, OrderedMap.get?_insert, Prod.mk.injEq]
  by_cases hl : library = a.library
  · subst hl
    simp only [if_true, Option.bind_some, OrderedMap.get?_insert, true_and]
    split
    · rfl
    · cases m.libraries.get? a.library with
      | none => rfl
      | some es => rfl
  · simp only [hl, false_and, if_false]

theorem size_add (m : Manifest) (library : String) (as : List Artifact) :
    (m.add library as).size + (m.libraries.get? library).elim 0 (·.size) =
      m.size + (addAll ((m.libraries.get? library).getD .empty) as).size :=
  OrderedMap.total_insert OrderedMap.size m.libraries library _

theorem size_add_nil (m : Manifest) (library : String) : (m.add library []).size = m.size := by
  have h := m.size_add library []
  cases hl : m.libraries.get? library with
  | none =>
    rw [hl] at h
    exact h
  | some es =>
    rw [hl] at h
    exact Nat.add_right_cancel h

theorem size_add_singleton (m : Manifest) (a : Artifact) : (m.add a.library [a]).size =
    if (m.find? a.place).isSome then m.size else m.size + 1 := by
  have h := m.size_add a.library [a]
  have hf : m.find? a.place = (m.libraries.get? a.library).bind (·.get? a.cell.key) := rfl
  rw [hf]
  cases hl : m.libraries.get? a.library with
  | none =>
    rw [hl] at h
    simpa [addAll, OrderedMap.size_insert] using h
  | some es =>
    rw [hl] at h
    simp only [addAll, Option.getD_some, List.foldl_cons, List.foldl_nil, OrderedMap.size_insert,
      Option.elim_some] at h
    simp only [Option.bind_some]
    split
    · next hs =>
      rw [if_pos hs] at h
      omega
    · next hs =>
      rw [if_neg hs] at h
      omega

/-! ## Artifacts in a row -/

/-- The manifest `m` records `artifacts`, the later one of two with equal places. -/
structure Records (m : Manifest) (artifacts : List Artifact) : Prop where
  find : ∀ place, m.find? place =
    (artifacts.reverse.find? fun a => a.place = place).map .ofArtifact
  size : m.size = (artifacts.map (·.place)).toFinset.card

theorem Records.empty : Records .empty [] := ⟨fun _ => rfl, rfl⟩

theorem Records.add_nil {m : Manifest} {artifacts : List Artifact} (hm : m.Records artifacts)
    (library : String) : (m.add library []).Records artifacts :=
  ⟨fun place => by rw [find?_add_nil, hm.find], by rw [size_add_nil, hm.size]⟩

theorem Records.find?_isSome {m : Manifest} {artifacts : List Artifact} (hm : m.Records artifacts)
    (place : String × String) : (m.find? place).isSome = true ↔ place ∈ artifacts.map (·.place) := by
  rw [hm.find]
  simp

theorem Records.add_singleton {m : Manifest} {artifacts : List Artifact} (hm : m.Records artifacts)
    (a : Artifact) : (m.add a.library [a]).Records (artifacts ++ [a]) := by
  constructor
  · intro place
    rw [find?_add_singleton, List.reverse_append, List.reverse_singleton, List.singleton_append,
      List.find?_cons]
    by_cases hp : a.place = place
    · simp [hp]
    · rw [if_neg (Ne.symm hp), hm.find]
      simp [hp]
  · rw [size_add_singleton, List.map_append, List.toFinset_append, List.map_singleton]
    have hiff := hm.find?_isSome a.place
    split
    · next hs =>
      have hmem := List.mem_toFinset.mpr (hiff.mp hs)
      rw [hm.size]
      simp [hmem]
    · next hs =>
      have hmem : a.place ∉ (artifacts.map (·.place)).toFinset := fun h =>
        hs (hiff.mpr (List.mem_toFinset.mp h))
      rw [hm.size, Finset.union_comm]
      exact (Finset.card_insert_of_notMem hmem).symm

/-- Recording the artifacts of a library records them after those that are there. -/
theorem Records.add {m : Manifest} {artifacts : List Artifact} (hm : m.Records artifacts)
    (library : String) (more : List Artifact) (hl : ∀ a ∈ more, a.library = library) :
    (m.add library more).Records (artifacts ++ more) := by
  induction more using List.reverseRecOn with
  | nil =>
    rw [List.append_nil]
    exact hm.add_nil library
  | append_singleton as a ih =>
    have ha : a.library = library := hl a (by simp)
    have has := ih fun b hb => hl b (List.mem_append_left _ hb)
    rw [add_append, ← List.append_assoc, ← ha]
    rw [← ha] at has
    exact has.add_singleton a

/-- No artifact is lost exactly when all have their own places. -/
theorem Records.size_eq_iff {m : Manifest} {artifacts : List Artifact} (hm : m.Records artifacts) :
    m.size = artifacts.length ↔ (artifacts.map (·.place)).Nodup := by
  rw [hm.size, ← List.length_map (f := (·.place))]
  constructor
  · intro h
    exact List.dedup_eq_self.mp ((List.dedup_sublist _).eq_of_length h)
  · intro h
    exact List.toFinset_card_of_nodup h

/-- An artifact with a place of its own is found there. -/
theorem Records.find?_place {m : Manifest} {artifacts : List Artifact} (hm : m.Records artifacts)
    (hn : (artifacts.map (·.place)).Nodup) {a : Artifact} (ha : a ∈ artifacts) :
    m.find? a.place = some (.ofArtifact a) := by
  rw [hm.find]
  cases hf : artifacts.reverse.find? fun b => b.place = a.place with
  | none =>
    have := List.find?_eq_none.mp hf a (List.mem_reverse.mpr ha)
    simp at this
  | some b =>
    have hb : b ∈ artifacts := List.mem_reverse.mp (List.mem_of_find?_eq_some hf)
    have hp : b.place = a.place := by simpa using List.find?_some hf
    rw [List.inj_on_of_nodup_map hn hb ha hp]
    rfl

/-- Every entry is that of an artifact, at its place. -/
theorem Records.place_of_mem {m : Manifest} {artifacts : List Artifact} (hm : m.Records artifacts)
    {e : String × String × ManifestEntry} (he : e ∈ m.entries) :
    ∃ a ∈ artifacts, (e.1, e.2.1) = a.place ∧ e.2.2 = .ofArtifact a := by
  have hf := mem_entries_iff.mp he
  rw [hm.find] at hf
  obtain ⟨a, ha, hea⟩ := Option.map_eq_some_iff.mp hf
  have hplace : a.place = (e.1, e.2.1) := by simpa using List.find?_some ha
  exact ⟨a, List.mem_reverse.mp (List.mem_of_find?_eq_some ha), hplace.symm, hea.symm⟩

theorem Records.artifact_of_mem {m : Manifest} {artifacts : List Artifact} (hm : m.Records artifacts)
    {e : String × String × ManifestEntry} (he : e ∈ m.entries) :
    ∃ a ∈ artifacts, e.2.2 = .ofArtifact a := by
  obtain ⟨a, ha, -, hea⟩ := hm.place_of_mem he
  exact ⟨a, ha, hea⟩

/-- No place has two entries. -/
theorem nodup_entries (m : Manifest) : (m.entries.map fun e => (e.1, e.2.1)).Nodup := by
  have hkeys : m.entries.map (fun e => (e.1, e.2.1)) =
      m.libraries.entries.flatMap fun l => l.2.keys.map (l.1, ·) := by
    unfold entries OrderedMap.keys
    rw [List.map_flatMap]
    simp only [List.map_map]
    rfl
  rw [hkeys, List.nodup_flatMap]
  refine ⟨fun l _ => l.2.nodup_keys.map (Prod.mk_right_injective l.1), ?_⟩
  refine (List.pairwise_map.mp m.libraries.nodup_keys).imp fun {x y} hne => ?_
  intro p hx hy
  obtain ⟨k, -, rfl⟩ := List.mem_map.mp hx
  obtain ⟨k', -, he⟩ := List.mem_map.mp hy
  exact hne (Prod.mk.inj he).1.symm

end Manifest

end CipherCorpus
