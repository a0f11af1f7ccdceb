import CipherCorpus.Text.Pieces

/-!
# Pieces of joined texts

A separator between two texts separates their pieces (`splitOn_append_sep`), and a field without
separators in front of one is determined by the whole (`append_sep_inj`).
-/

namespace CipherCorpus.Text

theorem splitOn_of_notMem {sep : Char} {s : List Char} (h : sep ∉ s) : splitOn sep s = [s] := by
  induction s with
  | nil => rfl
  | cons c rest ih =>
    have hc : c ≠ sep := fun e => h (e ▸ List.mem_cons_self)
    rw [splitOn, if_neg hc, ih fun hm => h (List.mem_cons_of_mem _ hm)]

theorem splitOn_append_sep (sep : Char) (s t : List Char) :
    splitOn sep (s ++ sep :: t) = splitOn sep s ++ splitOn sep t := by
  induction s with
  | nil => simp [splitOn]
  | cons c rest ih =>
    rw [List.cons_append, splitOn, splitOn]
    by_cases hc : c = sep
    · rw [if_pos hc, if_pos hc, ih]
      rfl
    · rw [if_neg hc, if_neg hc, ih]
      cases hs : splitOn sep rest with
      | nil => exact absurd hs (splitOn_ne_nil sep rest)
      | cons piece more => rfl

theorem notMem_of_mem_splitOn {sep : Char} {s piece : List Char} (h : piece ∈ splitOn sep s) :
    sep ∉ piece := by
  induction s generalizing piece with
  | nil =>
    rw [List.mem_singleton.mp h]
    exact List.not_mem_nil
  | cons c rest ih =>
    rw [splitOn] at h
    by_cases hc : c = sep
    · rw [if_pos hc] at h
      rcases List.mem_cons.mp h with rfl | h
      · exact List.not_mem_nil
      · exact ih h
    · rw [if_neg hc] at h
      cases hs : splitOn sep rest with
      | nil => exact absurd hs (splitOn_ne_nil sep rest)
      | cons first more =>
        rw [hs] at h ih
        rcases List.mem_cons.mp h with rfl | h
        · rw [List.mem_cons, not_or]
          exact ⟨Ne.symm hc, ih List.mem_cons_self⟩
        · exact ih (List.mem_cons_of_mem _ h)

theorem mem_of_mem_splitOn {sep c : Char} {s piece : List Char} (hp : piece ∈ splitOn sep s)
    (hc : c ∈ piece) : c ∈ s := by
  induction s generalizing piece with
  | nil =>
    rw [List.mem_singleton.mp hp] at hc
    cases hc
  | cons x rest ih =>
    rw [splitOn] at hp
    by_cases hx : x = sep
    · rw [if_pos hx] at hp
      rcases List.mem_cons.mp hp with rfl | hp
      · cases hc
      · exact List.mem_cons_of_mem _ (ih hp hc)
    · rw [if_neg hx] at hp
      cases hs : splitOn sep rest with
      | nil => exact absurd hs (splitOn_ne_nil sep rest)
      | cons first more =>
        rw [hs] at hp ih
        rcases List.mem_cons.mp hp with rfl | hp
        · rcases List.mem_cons.mp hc with rfl | hc
          · exact List.mem_cons_self
          · exact List.mem_cons_of_mem _ (ih List.mem_cons_self hc)
        · exact List.mem_cons_of_mem _ (ih (List.mem_cons_of_mem _ hp) hc)

theorem mem_of_mem_joinWith {sep x : Char} {l : List (List Char)} (h : x ∈ joinWith sep l) :
    x = sep ∨ ∃ piece ∈ l, x ∈ piece := by
  induction l with
  | nil => cases h
  | cons piece more ih =>
    cases more with
    | nil => exact Or.inr ⟨piece, List.mem_cons_self, h⟩
    | cons next more =>
      rw [joinWith, List.mem_append, List.mem_cons] at h
      · rcases h with h | h | h
        · exact Or.inr ⟨piece, List.mem_cons_self, h⟩
        · exact Or.inl h
        · rcases ih h with h | ⟨q, hq, hx⟩
          · exact Or.inl h
          · exact Or.inr ⟨q, List.mem_cons_of_mem _ hq, hx⟩
      · exact fun he => by cases he

/-- Pieces without separators are the pieces of the text that they are joined to. -/
theorem splitOn_joinWith {sep : Char} : ∀ {pieces : List (List Char)}, pieces ≠ [] →
    (∀ piece ∈ pieces, sep ∉ piece) → splitOn sep (joinWith sep pieces) = pieces := by
  intro pieces
  induction pieces with
  | nil => exact fun h => absurd rfl h
  | cons piece more ih =>
    intro _ h
    cases more with
    | nil => exact splitOn_of_notMem (h piece List.mem_cons_self)
    | cons next more =>
      rw [joinWith, splitOn_append_sep, splitOn_of_notMem (h piece List.mem_cons_self),
        ih (by simp) fun p hp => h p (List.mem_cons_of_mem _ hp)]
      · rfl
      · simp

/-- The field in front of the first separator and what follows it are determined by the whole. -/
theorem append_sep_inj {sep : Char} {a b s t : List Char} (ha : sep ∉ a) (hb : sep ∉ b) :
    a ++ sep :: s = b ++ sep :: t ↔ a = b ∧ s = t := by
  constructor
  · intro h
    rcases List.append_eq_append_iff.mp h with ⟨w, hw, hs⟩ | ⟨w, hw, hs⟩
    · cases w with
      | nil =>
        simp only [List.nil_append, List.cons.injEq, true_and] at hs
        exact ⟨by simpa using hw.symm, hs⟩
      | cons x w =>
        simp only [List.cons_append, List.cons.injEq] at hs
        exact absurd (hw ▸ List.mem_append_right a (hs.1 ▸ List.mem_cons_self)) hb
    · cases w with
      | nil =>
        simp only [List.nil_append, List.cons.injEq, true_and] at hs
        exact ⟨by simpa using hw, hs.symm⟩
      | cons x w =>
        simp only [List.cons_append, List.cons.injEq] at hs
        exact absurd (hw ▸ List.mem_append_right b (hs.1 ▸ List.mem_cons_self)) ha
  · rintro ⟨rfl, rfl⟩
    rfl

theorem mem_of_mem_replaceChar {old new c : Char} {s : List Char} (h : c ∈ replaceChar old new s) :
    c = new ∨ c ∈ s := by
  obtain ⟨d, hd, rfl⟩ := List.mem_map.mp h
  by_cases he : d = old
  · left
    rw [if_pos he]
  · right
    rw [if_neg he]
    exact hd

end CipherCorpus.Text
