import CipherCorpus.OrderedMap
import CipherCorpus.Total

/-!
# Sizes of maps

An insertion under a free key adds one entry, an insertion under a key that is taken adds none:

    (m.insert k v).size = if (m.get? k).isSome then m.size else m.size + 1     (size_insert)

More generally a sum over the values changes by the new value and the one it replaces
(`total_insert`).
-/

namespace CipherCorpus.OrderedMap

variable {κ α : Type} [KeyOrder κ]

@[simp] theorem get?_empty (k : κ) : (empty : OrderedMap κ α).get? k = none := rfl

@[simp] theorem size_empty : (empty : OrderedMap κ α).size = 0 := rfl

theorem length_insertEntry (k : κ) (v : α) (es : List (κ × α)) :
    (insertEntry k v es).length =
      if (findEntry k es).isSome then es.length else es.length + 1 := by
  induction es with
  | nil => rfl
  | cons e rest ih =>
    unfold insertEntry findEntry
    split
    · rfl
    · split
      · rw [List.length_cons, ih]
        split
        · rfl
        · rfl
      · rfl

/-- An insertion adds an entry exactly when its key is free. -/
theorem size_insert (m : OrderedMap κ α) (k : κ) (v : α) :
    (m.insert k v).size = if (m.get? k).isSome then m.size else m.size + 1 :=
  length_insertEntry k v m.entries

theorem size_insert_of_free {m : OrderedMap κ α} {k : κ} (h : m.get? k = none) (v : α) :
    (m.insert k v).size = m.size + 1 := by
  rw [size_insert, h]
  rfl

theorem insertEntry_perm {k : κ} (v : α) {es : List (κ × α)} (h : findEntry k es = none) :
    (insertEntry k v es).Perm ((k, v) :: es) := by
  induction es with
  | nil => exact .refl _
  | cons e rest ih =>
    unfold insertEntry
    unfold findEntry at h
    by_cases hk : KeyOrder.before k e.1 = true
    · rw [if_pos hk]
    · rw [if_neg hk] at h ⊢
      by_cases hk' : KeyOrder.before e.1 k = true
      · rw [if_pos hk'] at h ⊢
        exact ((ih h).cons e).trans (.swap _ _ _)
      · rw [if_neg hk'] at h
        cases h

/-- An insertion under a free key adds its entry to those that are there. -/
theorem entries_insert_perm {m : OrderedMap κ α} {k : κ} (h : m.get? k = none) (v : α) :
    (m.insert k v).entries.Perm ((k, v) :: m.entries) :=
  insertEntry_perm v h

theorem total_insertEntry (f : α → Nat) (k : κ) (v : α) (es : List (κ × α)) :
    total ((insertEntry k v es).map (f ·.2)) + (findEntry k es).elim 0 f =
      total (es.map (f ·.2)) + f v := by
  induction es with
  | nil =>
    simp only [insertEntry, findEntry, List.map_cons, List.map_nil, total_cons, total_nil,
      Option.elim_none]
    omega
  | cons e rest ih =>
    unfold insertEntry findEntry
    split
    · simp only [List.map_cons, total_cons, Option.elim_none]
      omega
    · split
      · simp only [List.map_cons, total_cons]
        omega
      · simp only [List.map_cons, total_cons, Option.elim_some]
        omega

/-- An insertion adds the new value to a sum over the values and takes the old one away. -/
theorem total_insert (f : α → Nat) (m : OrderedMap κ α) (k : κ) (v : α) :
    total ((m.insert k v).values.map f) + (m.get? k).elim 0 f = total (m.values.map f) + f v := by
  unfold values
  rw [List.map_map, List.map_map]
  exact total_insertEntry f k v m.entries

theorem insertEntry_insertEntry (k : κ) (v w : α) (es : List (κ × α)) :
    insertEntry k w (insertEntry k v es) = insertEntry k w es := by
  induction es with
  | nil => simp [insertEntry, KeyOrder.irrefl]
  | cons e rest ih =>
    by_cases hk : KeyOrder.before k e.1 = true
    · simp [insertEntry, hk, KeyOrder.irrefl]
    · by_cases hk' : KeyOrder.before e.1 k = true
      · simp [insertEntry, hk, hk', ih]
      · simp [insertEntry, hk, hk', KeyOrder.irrefl]

/-- The later of two insertions under one key counts. -/
@[simp] theorem insert_insert (m : OrderedMap κ α) (k : κ) (v w : α) :
    (m.insert k v).insert k w = m.insert k w :=
  ext (insertEntry_insertEntry k v w m.entries)

/-- The keys of a map are pairwise different. -/
theorem nodup_keys (m : OrderedMap κ α) : m.keys.Nodup := by
  refine List.pairwise_map.mpr (m.ascending.imp fun {a b} h he => ?_)
  rw [he, KeyOrder.irrefl] at h
  cases h

theorem insertEntry_last (k : κ) (v : α) (es : List (κ × α))
    (h : ∀ e ∈ es, KeyOrder.before e.1 k = true) : insertEntry k v es = es ++ [(k, v)] := by
  induction es with
  | nil => rfl
  | cons e rest ih =>
    have he := h e List.mem_cons_self
    unfold insertEntry
    rw [if_neg (by rw [before_asymm he]; decide), if_pos he,
      ih fun x hx => h x (List.mem_cons_of_mem _ hx)]
    rfl

theorem entries_foldl_insert (es : List (κ × α)) : ∀ m : OrderedMap κ α,
    ((m.entries ++ es).Pairwise fun a b => KeyOrder.before a.1 b.1 = true) →
      (es.foldl (fun m e => m.insert e.1 e.2) m).entries = m.entries ++ es := by
  induction es with
  | nil =>
    intro m _
    rw [List.append_nil]
    rfl
  | cons e rest ih =>
    intro m h
    have hlast : (m.insert e.1 e.2).entries = m.entries ++ [e] :=
      insertEntry_last e.1 e.2 m.entries fun x hx =>
        (List.pairwise_append.mp h).2.2 x hx e List.mem_cons_self
    rw [List.foldl_cons, ih, hlast, List.append_assoc, List.singleton_append]
    rw [hlast, List.append_assoc, List.singleton_append]
    exact h

/-- Inserting ascending entries in order gives the map of these entries. -/
theorem entries_ofList {es : List (κ × α)}
    (h : es.Pairwise fun a b => KeyOrder.before a.1 b.1 = true) : (ofList es).entries = es := by
  unfold ofList
  rw [entries_foldl_insert es empty h]
  rfl

theorem mem_keys {m : OrderedMap κ α} {k : κ} : k ∈ m.keys ↔ ∃ v, m.get? k = some v := by
  unfold keys
  simp only [List.mem_map, Prod.exists, mem_entries_iff]
  exact ⟨fun ⟨_, v, hv, he⟩ => ⟨v, he ▸ hv⟩, fun ⟨v, hv⟩ => ⟨k, v, hv, rfl⟩⟩

/-- A value is one that some key looks up to. -/
theorem mem_values {m : OrderedMap κ α} {v : α} : v ∈ m.values ↔ ∃ k, m.get? k = some v := by
  unfold values
  rw [List.mem_map]
  constructor
  · rintro ⟨⟨k, w⟩, hm, rfl⟩
    exact ⟨k, (m.mem_entries_iff k w).mp hm⟩
  · rintro ⟨k, hk⟩
    exact ⟨(k, v), (m.mem_entries_iff k v).mpr hk, rfl⟩

end CipherCorpus.OrderedMap
