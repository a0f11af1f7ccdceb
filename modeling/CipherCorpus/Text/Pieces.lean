/-!
# Cutting, joining and searching text

* `splitOn sep s` has one more piece than `s` has separators (`length_splitOn`), no piece holds a
  separator, and `joinWith` puts the pieces together again (`joinWith_splitOn`).
* `occursIn p s` holds when `p` is a contiguous part of `s` (`occursIn_iff`).
-/

namespace CipherCorpus.Text

/-- Cut at every `sep`; `k` separators give `k + 1` pieces. -/
def splitOn (sep : Char) : List Char → List (List Char)
  | [] => [[]]
  | c :: rest =>
    if c = sep then [] :: splitOn sep rest
    else
      match splitOn sep rest with
      | [] => [[c]]
      | piece :: more => (c :: piece) :: more

def joinWith (sep : Char) : List (List Char) → List Char
  | [] => []
  | [piece] => piece
  | piece :: more => piece ++ sep :: joinWith sep more

theorem splitOn_ne_nil (sep : Char) (s : List Char) : splitOn sep s ≠ [] := by
  cases s with
  | nil => simp [splitOn]
  | cons c rest =>
    unfold splitOn
    split
    · simp
    · split <;> simp

theorem joinWith_splitOn (sep : Char) (s : List Char) : joinWith sep (splitOn sep s) = s := by
  induction s with
  | nil => rfl
  | cons c rest ih =>
    unfold splitOn
    have hne := splitOn_ne_nil sep rest
    split
    · rename_i h
      subst h
      cases hs : splitOn c rest with
      | nil => exact absurd hs hne
      | cons p more => rw [← ih, hs]; simp [joinWith]
    · cases hs : splitOn sep rest with
      | nil => exact absurd hs hne
      | cons p more =>
        rw [hs] at ih
        rw [← ih]
        cases more <;> simp [joinWith]

theorem length_splitOn (sep : Char) (s : List Char) :
    (splitOn sep s).length = s.count sep + 1 := by
  induction s with
  | nil => rfl
  | cons c rest ih =>
    unfold splitOn
    split
    · rename_i h; subst h; simp [ih]
    · rename_i h
      cases hs : splitOn sep rest with
      | nil => exact absurd hs (splitOn_ne_nil sep rest)
      | cons p more => rw [hs] at ih; simp_all

/-- Whether `p` is a contiguous part of `s`. -/
def occursIn (p : List Char) : List Char → Bool
  | [] => p.isEmpty
  | c :: rest => p.isPrefixOf (c :: rest) || occursIn p rest

theorem occursIn_iff (p s : List Char) : occursIn p s = true ↔ ∃ a b, s = a ++ p ++ b := by
  induction s with
  | nil =>
    simp only [occursIn, List.isEmpty_iff]
    constructor
    · rintro rfl; exact ⟨[], [], rfl⟩
    · rintro ⟨a, b, h⟩
      simp only [List.append_assoc, List.nil_eq, List.append_eq_nil_iff] at h
      exact h.2.1
  | cons c rest ih =>
    simp only [occursIn, Bool.or_eq_true, List.isPrefixOf_iff_prefix, ih]
    constructor
    · rintro (⟨t, ht⟩ | ⟨a, b, rfl⟩)
      · exact ⟨[], t, by simp [ht]⟩
      · exact ⟨c :: a, b, by simp⟩
    · rintro ⟨a, b, h⟩
      cases a with
      | nil => exact Or.inl ⟨b, by simpa using h.symm⟩
      | cons x a =>
        simp only [List.cons_append, List.cons.injEq] at h
        exact Or.inr ⟨a, b, h.2⟩

/-- Every `old` becomes `new`. -/
def replaceChar (old new : Char) (s : List Char) : List Char :=
  s.map fun c => if c = old then new else c

/-- The text after `start`, when `s` begins with it. -/
def afterStart? (start s : List Char) : Option (List Char) :=
  if start.isPrefixOf s then some (s.drop start.length) else none

/-- The text before `ending`, when `s` ends with it. -/
def beforeEnd? (ending s : List Char) : Option (List Char) :=
  if ending.isSuffixOf s then some (s.take (s.length - ending.length)) else none

end CipherCorpus.Text
