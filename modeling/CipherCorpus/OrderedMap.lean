/-!
# Maps in key order

A map is the list of its entries, strictly ascending by key, so the list is the only form of the map
and prints the same way each time. `insert` replaces the value under an equal key.

* `get?_insert`: a look-up after an insertion.
* `mem_entries_iff`: an entry is in the list exactly when its key looks up to its value.
-/

namespace CipherCorpus

/-- A strict total order on keys. -/
class KeyOrder (κ : Type) where
  before : κ → κ → Bool
  irrefl : ∀ a, before a a = false
  trans : ∀ {a b c}, before a b = true → before b c = true → before a c = true
  total : ∀ {a b}, before a b = false → before b a = false → a = b

instance : KeyOrder String where
  before a b := decide (a < b)
  irrefl a := by simp
  trans h h' := by
    simp only [decide_eq_true_eq] at *
    exact String.lt_trans h h'
  total h h' := by
    simp only [decide_eq_false_iff_not, String.not_lt] at *
    exact String.le_antisymm h' h

/-- Entries in strictly ascending key order. -/
structure OrderedMap (κ α : Type) [KeyOrder κ] where
  entries : List (κ × α)
  ascending : entries.Pairwise fun a b => KeyOrder.before a.1 b.1 = true

namespace OrderedMap

variable {κ α : Type} [KeyOrder κ]

def empty : OrderedMap κ α := ⟨[], List.Pairwise.nil⟩

instance : Inhabited (OrderedMap κ α) := ⟨empty⟩

instance [DecidableEq κ] [DecidableEq α] : DecidableEq (OrderedMap κ α)
  | ⟨a, _⟩, ⟨b, _⟩ => if h : a = b then isTrue (by subst h; rfl) else isFalse fun e => h (by cases e; rfl)

theorem ext {a b : OrderedMap κ α} (h : a.entries = b.entries) : a = b := by
  cases a; cases b; cases h; rfl

def size (m : OrderedMap κ α) : Nat := m.entries.length

def keys (m : OrderedMap κ α) : List κ := m.entries.map (·.1)

def values (m : OrderedMap κ α) : List α := m.entries.map (·.2)

/-- Put `v` under `k` in an ascending list. -/
def insertEntry (k : κ) (v : α) : List (κ × α) → List (κ × α)
  | [] => [(k, v)]
  | e :: rest =>
    if KeyOrder.before k e.1 then (k, v) :: e :: rest
    else if KeyOrder.before e.1 k then e :: insertEntry k v rest
    else (k, v) :: rest

/-- The value under `k` in an ascending list. -/
def findEntry (k : κ) : List (κ × α) → Option α
  | [] => none
  | e :: rest =>
    if KeyOrder.before k e.1 then none
    else if KeyOrder.before e.1 k then findEntry k rest
    else some e.2

theorem mem_insertEntry {k : κ} {v : α} {x : κ × α} (es : List (κ × α)) :
    x ∈ insertEntry k v es → x = (k, v) ∨ x ∈ es := by
  induction es with
  | nil => simp [insertEntry]
  | cons e rest ih =>
    unfold insertEntry
    split
    · simp
    · split
      · intro h
        rcases List.mem_cons.mp h with rfl | h
        · simp
        · rcases ih h with h | h
          · exact Or.inl h
          · exact Or.inr (List.mem_cons_of_mem _ h)
      · intro h
        rcases List.mem_cons.mp h with h | h
        · exact Or.inl h
        · exact Or.inr (List.mem_cons_of_mem _ h)

theorem pairwise_insertEntry (k : κ) (v : α) (es : List (κ × α))
    (h : es.Pairwise fun a b => KeyOrder.before a.1 b.1 = true) :
    (insertEntry k v es).Pairwise fun a b => KeyOrder.before a.1 b.1 = true := by
  induction es with
  | nil => simp [insertEntry]
  | cons e rest ih =>
    obtain ⟨he, hr⟩ := List.pairwise_cons.mp h
    unfold insertEntry
    split
    · rename_i hk
      refine List.pairwise_cons.mpr ⟨fun x hx => ?_, h⟩
      rcases List.mem_cons.mp hx with rfl | hx
      · exact hk
      · exact KeyOrder.trans hk (he x hx)
    · rename_i hk
      split
      · rename_i hk'
        refine List.pairwise_cons.mpr ⟨fun x hx => ?_, ih hr⟩
        rcases mem_insertEntry rest hx with rfl | hx
        · exact hk'
        · exact he x hx
      · rename_i hk'
        have hek : k = e.1 := KeyOrder.total (by simpa using hk) (by simpa using hk')
        subst hek
        exact List.pairwise_cons.mpr ⟨he, hr⟩

/-- Put `v` under `k`, in place of what was there. -/
def insert (m : OrderedMap κ α) (k : κ) (v : α) : OrderedMap κ α :=
  ⟨insertEntry k v m.entries, pairwise_insertEntry k v m.entries m.ascending⟩

def get? (m : OrderedMap κ α) (k : κ) : Option α := findEntry k m.entries

/-- Insert entries in order; a later one replaces an earlier one. -/
def ofList (es : List (κ × α)) : OrderedMap κ α := es.foldl (fun m e => m.insert e.1 e.2) empty

theorem before_asymm {a b : κ} (h : KeyOrder.before a b = true) : KeyOrder.before b a = false := by
  cases hb : KeyOrder.before b a with
  | false => rfl
  | true => have := KeyOrder.trans h hb; rw [KeyOrder.irrefl] at this; cases this

theorem findEntry_insertEntry_self (k : κ) (v : α) (es : List (κ × α)) :
    findEntry k (insertEntry k v es) = some v := by
  induction es with
  | nil => simp [insertEntry, findEntry, KeyOrder.irrefl]
  | cons e rest ih =>
    unfold insertEntry
    split
    · simp [findEntry, KeyOrder.irrefl]
    · rename_i hk
      split
      · rename_i hk'
        simp [findEntry, hk, hk', ih]
      · simp [findEntry, KeyOrder.irrefl]

theorem findEntry_insertEntry_ne {k j : κ} (v : α) (hne : j ≠ k) (es : List (κ × α))
    (h : es.Pairwise fun a b => KeyOrder.before a.1 b.1 = true) :
    findEntry j (insertEntry k v es) = findEntry j es := by
  induction es with
  | nil =>
    simp only [insertEntry, findEntry]
    split
    · rfl
    · rename_i h1
      split
      · rfl
      · rename_i h2
        exact absurd (KeyOrder.total (by simpa using h1) (by simpa using h2)) hne
  | cons e rest ih =>
    obtain ⟨he, hr⟩ := List.pairwise_cons.mp h
    unfold insertEntry
    split
    · rename_i hk
      simp only [findEntry]
      split
      · rename_i h1
        rw [if_pos (KeyOrder.trans h1 hk)]
      · rename_i h1
        split
        · rfl
        · rename_i h2
          exact absurd (KeyOrder.total (by simpa using h1) (by simpa using h2)) hne
    · rename_i hk
      split
      · rename_i hk'
        simp only [findEntry]
        rw [ih hr]
      · rename_i hk'
        have hek : k = e.1 := KeyOrder.total (by simpa using hk) (by simpa using hk')
        subst hek
        simp only [findEntry]
        split
        · rfl
        · rename_i h1
          split
          · rfl
          · rename_i h2
            exact absurd (KeyOrder.total (by simpa using h1) (by simpa using h2)) hne

theorem get?_insert_self (m : OrderedMap κ α) (k : κ) (v : α) : (m.insert k v).get? k = some v :=
  findEntry_insertEntry_self k v m.entries

theorem get?_insert_ne (m : OrderedMap κ α) {j k : κ} (v : α) (h : j ≠ k) :
    (m.insert k v).get? j = m.get? j :=
  findEntry_insertEntry_ne v h m.entries m.ascending

/-- A look-up after an insertion. -/
theorem get?_insert [DecidableEq κ] (m : OrderedMap κ α) (j k : κ) (v : α) :
    (m.insert k v).get? j = if j = k then some v else m.get? j := by
  split
  · rename_i h; subst h; exact m.get?_insert_self j v
  · rename_i h; exact m.get?_insert_ne v h

theorem findEntry_eq_some_iff (k : κ) (v : α) (es : List (κ × α))
    (h : es.Pairwise fun a b => KeyOrder.before a.1 b.1 = true) :
    findEntry k es = some v ↔ (k, v) ∈ es := by
  induction es with
  | nil => simp [findEntry]
  | cons e rest ih =>
    obtain ⟨he, hr⟩ := List.pairwise_cons.mp h
    unfold findEntry
    rw [List.mem_cons]
    split
    · rename_i hk
      constructor
      · intro h; cases h
      · rintro (rfl | hm)
        · rw [KeyOrder.irrefl] at hk; cases hk
        · have := KeyOrder.trans hk (he _ hm); rw [KeyOrder.irrefl] at this; cases this
    · rename_i hk
      split
      · rename_i hk'
        rw [ih hr]
        constructor
        · exact Or.inr
        · rintro (rfl | hm)
          · rw [KeyOrder.irrefl] at hk'; cases hk'
          · exact hm
      · rename_i hk'
        have hek : k = e.1 := KeyOrder.total (by simpa using hk) (by simpa using hk')
        subst hek
        constructor
        · intro h
          exact Or.inl (by cases h; rfl)
        · rintro (hv | hm)
          · rw [← hv]
          · have := he _ hm; rw [KeyOrder.irrefl] at this; cases this

/-- An entry is in the list exactly when its key looks up to its value. -/
theorem mem_entries_iff (m : OrderedMap κ α) (k : κ) (v : α) :
    (k, v) ∈ m.entries ↔ m.get? k = some v :=
  (findEntry_eq_some_iff k v m.entries m.ascending).symm

end OrderedMap

end CipherCorpus
