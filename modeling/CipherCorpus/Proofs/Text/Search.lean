import CipherCorpus.Text.Lowercase
import CipherCorpus.Text.Pieces

/-!
# Searching lower-cased text

What stands around a character decides how it is lower-cased in one case only: a capital sigma at the end
of a word goes to the final sigma.  With both small sigmas counted as one, lower-casing goes character by
character (`map_evenSigma_lower`), and for an ASCII text it makes no difference which of the two forms is
searched (`occursIn_lower_iff`):

    occursIn p (lower s)  ↔  occursIn p (s.flatMap evenLower)

So an ASCII text that occurs in the lower-case form of `s` occurs in that of every text around `s`, and
the case of the ASCII letters of `s` plays no part.
-/

namespace CipherCorpus.Text

variable {p s t : List Char}

/-- Only ASCII characters. -/
def IsAscii (s : List Char) : Prop := ∀ c ∈ s, c.toNat < 128

-- over the characters of the text, not over all characters
instance (s : List Char) : Decidable (IsAscii s) := List.decidableBAll (fun c : Char => c.toNat < 128) s

/-- The texts differ at most in the case of ASCII letters. -/
def SameButCase (s t : List Char) : Prop := s.map Char.toLower = t.map Char.toLower

instance (s t : List Char) : Decidable (SameButCase s t) := inferInstanceAs (Decidable (_ = _))

/-- The final sigma as any other small sigma. -/
def evenSigma (c : Char) : Char := if c.toNat = 0x3c2 then Char.ofNat 0x3c3 else c

/-- Lower-case form of a character wherever it stands, with the small sigmas counted as one. -/
def evenLower (c : Char) : List Char :=
  if c.toNat = 0x3a3 then [Char.ofNat 0x3c3] else (lowerChar c).map evenSigma

theorem evenSigma_of_ascii {c : Char} (h : c.toNat < 128) : evenSigma c = c :=
  if_neg fun hc => absurd h (by rw [hc]; decide)

theorem evenSigma_eq_of_ascii {c : Char} (h : (evenSigma c).toNat < 128) : evenSigma c = c := by
  by_cases hc : c.toNat = 0x3c2
  · rw [evenSigma, if_pos hc] at h
    exact absurd h (by decide)
  · exact if_neg hc

theorem map_evenSigma_lowerFrom (before s : List Char) :
    (lowerFrom before s).map evenSigma = s.flatMap evenLower := by
  induction s generalizing before with
  | nil => rfl
  | cons c rest ih =>
    rw [lowerFrom, List.map_append, ih, List.flatMap_cons]
    congr 1
    unfold evenLower
    by_cases hc : c.toNat = 0x3a3
    · rw [if_pos hc, if_pos hc]
      -- a capital sigma goes to one of the two small ones
      split <;> rfl
    · rw [if_neg hc, if_neg hc]

theorem map_evenSigma_lower (s : List Char) : (lower s).map evenSigma = s.flatMap evenLower :=
  map_evenSigma_lowerFrom [] s

/-- What occurs in a part occurs in the whole. -/
theorem occursIn_append (h : occursIn p s = true) (a b : List Char) : occursIn p (a ++ s ++ b) = true := by
  obtain ⟨x, y, rfl⟩ := (occursIn_iff p s).mp h
  exact (occursIn_iff p _).mpr ⟨a ++ x, y ++ b, by simp only [List.append_assoc]⟩

theorem map_evenSigma_of_ascii (hp : IsAscii p) : p.map evenSigma = p := by
  rw [List.map_congr_left fun c hc => evenSigma_of_ascii (hp c hc), List.map_id']

theorem eq_of_map_evenSigma (hp : IsAscii p) (h : s.map evenSigma = p) : s = p := by
  have hs : ∀ c ∈ s, evenSigma c = c := fun c hc =>
    evenSigma_eq_of_ascii (hp _ (h ▸ List.mem_map_of_mem hc))
  rw [← h, List.map_congr_left hs, List.map_id']

/-- An ASCII text holds no sigma, so it occurs where it occurs with the sigmas counted as one. -/
theorem occursIn_map_evenSigma (hp : IsAscii p) :
    occursIn p (s.map evenSigma) = true ↔ occursIn p s = true := by
  rw [occursIn_iff, occursIn_iff]
  constructor
  · rintro ⟨a, b, h⟩
    obtain ⟨front, b', rfl, hfront, -⟩ := List.map_eq_append_iff.mp h
    obtain ⟨a', p', rfl, -, hp'⟩ := List.map_eq_append_iff.mp hfront
    exact ⟨a', b', by rw [eq_of_map_evenSigma hp hp']⟩
  · rintro ⟨a, b, rfl⟩
    refine ⟨a.map evenSigma, b.map evenSigma, ?_⟩
    rw [List.map_append, List.map_append, map_evenSigma_of_ascii hp]

/-- An ASCII text is found in the lower-case form as in the form made character by character. -/
theorem occursIn_lower_iff (hp : IsAscii p) :
    occursIn p (lower s) = true ↔ occursIn p (s.flatMap evenLower) = true := by
  rw [← map_evenSigma_lower, occursIn_map_evenSigma hp]

theorem occursIn_lower_append (hp : IsAscii p) (h : occursIn p (lower s) = true) (a b : List Char) :
    occursIn p (lower (a ++ s ++ b)) = true := by
  rw [occursIn_lower_iff hp] at h ⊢
  rw [List.flatMap_append, List.flatMap_append]
  exact occursIn_append h _ _

theorem evenLower_toLower_ascii : ∀ n, n < 128 →
    evenLower (Char.ofNat n).toLower = evenLower (Char.ofNat n) := by
  decide +kernel

theorem toLower_of_not_ascii {c : Char} (h : ¬ c.toNat < 128) : c.toLower = c := by
  unfold Char.toLower
  refine dif_neg fun hc => h ?_
  have hle : c.val.toNat ≤ 90 := by simpa [UInt32.le_iff_toNat_le] using hc.2
  exact Nat.lt_of_le_of_lt hle (by decide)

theorem evenLower_toLower (c : Char) : evenLower c.toLower = evenLower c := by
  by_cases hc : c.toNat < 128
  · have h := evenLower_toLower_ascii c.toNat hc
    rwa [Char.ofNat_toNat] at h
  · rw [toLower_of_not_ascii hc]

theorem SameButCase.occursIn_lower_iff (h : SameButCase s t) (hp : IsAscii p) :
    occursIn p (lower s) = true ↔ occursIn p (lower t) = true := by
  have hlower : ∀ x : List Char, x.flatMap evenLower = (x.map Char.toLower).flatMap evenLower := by
    intro x
    rw [List.flatMap_map]
    exact congrArg x.flatMap (funext fun c => (evenLower_toLower c).symm)
  rw [Text.occursIn_lower_iff hp, Text.occursIn_lower_iff hp, hlower s, hlower t, h]

end CipherCorpus.Text
