import CipherCorpus.Text.Lowercase

/-!
# What lower-casing can bring into a text

Lower-casing maps capitals to characters above `_`, so a character up to `_` that stands in the
lower-case form stood in the text before (`mem_of_mem_lower`).  Separators such as `_`, `/` and `.`
are never made by lower-casing.

A text is its own lower-case form exactly when each of its characters is (`lowerFrom_eq_iff`): the one
character whose form depends on what stands around it, the capital sigma, is changed everywhere.
-/

namespace CipherCorpus.Text

/-- Every run of the case table moves its characters above `_`. -/
theorem lowerRuns_high : ∀ r ∈ lowerRuns, 95 < (r.first : Int) + r.shift := by
  have h : lowerRuns.all (fun r => decide (95 < (r.first : Int) + r.shift)) = true := by
    decide +kernel
  intro r hr
  exact of_decide_eq_true (List.all_eq_true.mp h r hr)

theorem toNat_ofNat_le (n : Nat) (h : (Char.ofNat n).toNat ≤ 95) (hn : 95 < n) :
    (Char.ofNat n).toNat = 0 := by
  by_cases hv : n.isValidChar
  · rw [Char.ofNat, dif_pos hv] at h
    exact absurd hn (Nat.not_lt.mpr h)
  · rw [Char.ofNat, dif_neg hv]
    rfl

/-- A character up to `_` other than the zero character is lower-cased from itself alone. -/
theorem eq_of_mem_lowerChar {c d : Char} (hd : d.toNat ≤ 95) (h0 : d.toNat ≠ 0)
    (h : d ∈ lowerChar c) : d = c := by
  unfold lowerChar at h
  simp only [] at h
  split at h
  · rw [List.mem_singleton] at h
    unfold Char.toLower at h
    split at h
    · next hc =>
      -- a capital letter goes to 97 or above
      have hlow : 65 ≤ c.val.toNat := by
        simpa [UInt32.le_iff_toNat_le] using hc.1
      have hval : d.toNat = (c.val + 32).toNat := by rw [h]; rfl
      have hhigh : c.val.toNat ≤ 90 := by
        simpa [UInt32.le_iff_toNat_le] using hc.2
      have hc' : (32 : UInt32).toNat = 32 := rfl
      rw [UInt32.toNat_add, hc'] at hval
      omega
    · exact h
  · split at h
    · rcases List.mem_cons.mp h with rfl | h
      · exact absurd hd (by decide)
      · rw [List.mem_singleton] at h
        subst h
        exact absurd hd (by decide)
    · split at h
      · next r hr =>
        have hmem := List.mem_of_find?_eq_some hr
        have hhold := List.find?_some hr
        simp only [LowerRun.holds, Bool.and_eq_true, decide_eq_true_eq] at hhold
        have hhigh := lowerRuns_high r hmem
        rw [List.mem_singleton] at h
        subst h
        exact absurd (toNat_ofNat_le _ hd (by omega)) h0
      · exact List.mem_singleton.mp h

theorem mem_of_mem_lowerFrom {d : Char} (hd : d.toNat ≤ 95) (h0 : d.toNat ≠ 0) (s before : List Char)
    (h : d ∈ lowerFrom before s) : d ∈ s := by
  induction s generalizing before with
  | nil => simp [lowerFrom] at h
  | cons c rest ih =>
    unfold lowerFrom at h
    rcases List.mem_append.mp h with h | h
    · split at h
      · rw [List.mem_singleton] at h
        subst h
        exact absurd hd (by split <;> decide)
      · rw [eq_of_mem_lowerChar hd h0 h]
        exact List.mem_cons_self
    · exact List.mem_cons_of_mem _ (ih _ h)

/-- Lower-casing makes no character up to `_`. -/
theorem mem_of_mem_lower {d : Char} (hd : d.toNat ≤ 95) (h0 : d.toNat ≠ 0) {s : List Char}
    (h : d ∈ lower s) : d ∈ s :=
  mem_of_mem_lowerFrom hd h0 s [] h

/-! ## Texts in lower case -/

/-- Characters that lower-casing keeps. -/
def IsLower (c : Char) : Prop := lowerChar c = [c]

instance (c : Char) : Decidable (IsLower c) := inferInstanceAs (Decidable (_ = _))

theorem not_isLower_sigma {c : Char} (h : c.toNat = 0x3a3) : ¬ IsLower c := by
  have hc : c = Char.ofNat 0x3a3 := by rw [← h, Char.ofNat_toNat]
  rw [hc]
  decide +kernel

/-- A character goes to one character, but for the dotted capital that goes to a plain letter and a
dot. -/
theorem lowerChar_cases (c : Char) :
    (∃ d, lowerChar c = [d]) ∨ ∃ d more, lowerChar c = d :: more ∧ d ≠ c := by
  unfold lowerChar
  simp only []
  split
  · exact Or.inl ⟨_, rfl⟩
  · split
    · next hc =>
      refine Or.inr ⟨_, _, rfl, fun h => ?_⟩
      rw [← h] at hc
      exact absurd hc (by decide)
    · split <;> exact Or.inl ⟨_, rfl⟩

theorem lowerChar_append_eq_iff {c : Char} {s t : List Char} :
    lowerChar c ++ s = c :: t ↔ IsLower c ∧ s = t := by
  unfold IsLower
  rcases lowerChar_cases c with ⟨d, hd⟩ | ⟨d, more, hd, hne⟩
  · rw [hd, List.singleton_append, List.cons.injEq, List.singleton_inj]
  · rw [hd, List.cons_append, List.cons.injEq, List.cons.injEq]
    simp only [hne, false_and]

theorem lowerFrom_eq_iff {s : List Char} (before : List Char) :
    lowerFrom before s = s ↔ ∀ c ∈ s, IsLower c := by
  induction s generalizing before with
  | nil => simp [lowerFrom]
  | cons c rest ih =>
    rw [lowerFrom, List.forall_mem_cons, ← ih (c :: before)]
    by_cases hs : c.toNat = 0x3a3
    · simp only [if_pos hs, List.singleton_append, List.cons.injEq, not_isLower_sigma hs, false_and,
        iff_false, not_and]
      intro h
      refine absurd (congrArg Char.toNat h) ?_
      rw [hs]
      split <;> decide
    · simp only [if_neg hs]
      exact lowerChar_append_eq_iff

end CipherCorpus.Text
