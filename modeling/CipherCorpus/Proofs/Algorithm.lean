import CipherCorpus.Algorithm
import CipherCorpus.Proofs.Text.Search
import Mathlib.Data.List.Basic

/-!
# Which keyword decides a name

Of the keywords that occur in the lower-cased name the one declared first decides (`deciding?_eq_some_iff`).
A name has the keywords of each of its parts, so text around it can only bring the decision forward
(`deciding?_around`), and keywords are ASCII texts, so the case of letters plays no part.

What a name is not taken for can be read off the order of the catalog: where a keyword occurs, the entries
declared after it decide nothing (`ofName_ne_of_declared_before`).
-/

namespace CipherCorpus.Algorithm

open Text (occursIn lower SameButCase)

variable {name : String} {e f : String × String}

/-- The keyword occurs in the lower-cased name. -/
def Occurs (keyword name : String) : Prop := occursIn keyword.toList (lower name.toList) = true

instance (keyword name : String) : Decidable (Occurs keyword name) := inferInstanceAs (Decidable (_ = _))

/-- Where an entry stands in the catalog. -/
def rank (e : String × String) : Nat := catalog.idxOf e

/-- The keywords of the key derivations. -/
def derivationKeywords : List String := ["pbkdf2", "hkdf", "scrypt"]

/-- The keywords of the hash families. -/
def hashKeywords : List String :=
  ["sha1", "sha224", "sha256", "sha384", "sha512", "sha3", "md5", "blake"]

/-! ## The catalog -/

theorem catalog_isAscii : ∀ e ∈ catalog, Text.IsAscii e.1.toList := by decide +kernel

theorem catalog_names_algorithms : ∀ e ∈ catalog, e.2 ≠ noAlgorithm := by decide +kernel

/-- A keyword inside another one stands for the same algorithm, or all entries of its algorithm are
declared after the longer one. -/
theorem catalog_longer_first : ∀ e ∈ catalog, ∀ f ∈ catalog, e.2 ≠ f.2 →
    occursIn f.1.toList e.1.toList = true → ∀ g ∈ catalog, g.2 = f.2 → rank e < rank g := by
  decide +kernel

/-- Hashes and key derivations are declared before message codes. -/
theorem catalog_hashes_first : ∀ k ∈ hashKeywords ++ derivationKeywords,
    ∃ e ∈ catalog, e.1 = k ∧ ∀ g ∈ catalog, g.2 = "HMAC" → rank e < rank g := by
  decide +kernel

theorem eq_of_rank_eq (he : e ∈ catalog) (h : rank e = rank f) : e = f := (List.idxOf_inj he).mp h

/-! ## The entry that decides -/

theorem deciding?_eq (name : String) :
    deciding? name = catalog.find? fun e => occursIn e.1.toList (lower name.toList) := rfl

/-- The entry that decides is the first one whose keyword occurs. -/
theorem first_of_deciding? (h : deciding? name = some e) :
    e ∈ catalog ∧ Occurs e.1 name ∧ ∀ f ∈ catalog, Occurs f.1 name → rank e ≤ rank f := by
  rw [deciding?_eq] at h
  have hmem : e ∈ catalog := List.mem_of_find?_eq_some h
  obtain ⟨he, before, after, hcatalog, hbefore⟩ := List.find?_eq_some_iff_append.mp h
  -- none of the entries in front of it occurs, so an entry that occurs stands behind them
  have hrank : ∀ f, Occurs f.1 name → rank f = before.length + (e :: after).idxOf f := by
    intro f hf
    rw [rank, hcatalog, List.idxOf_append_of_notMem]
    intro hm
    have hnot := hbefore f hm
    rw [show occursIn f.1.toList (lower name.toList) = true from hf] at hnot
    cases hnot
  refine ⟨hmem, he, fun f _ hf => ?_⟩
  rw [hrank e he, hrank f hf, List.idxOf_cons_self]
  omega

theorem exists_deciding? (he : e ∈ catalog) (ho : Occurs e.1 name) : ∃ f, deciding? name = some f := by
  refine Option.isSome_iff_exists.mp (List.find?_isSome.mpr ⟨e, he, ho⟩)

theorem deciding?_eq_some_iff : deciding? name = some e ↔
    e ∈ catalog ∧ Occurs e.1 name ∧ ∀ f ∈ catalog, Occurs f.1 name → rank e ≤ rank f := by
  refine ⟨first_of_deciding?, fun ⟨he, ho, hfirst⟩ => ?_⟩
  obtain ⟨f, hf⟩ := exists_deciding? he ho
  obtain ⟨hmem, hocc, hmin⟩ := first_of_deciding? hf
  rw [hf, eq_of_rank_eq hmem (Nat.le_antisymm (hmin e he ho) (hfirst f hmem hocc))]

theorem ofName_of_deciding? (h : deciding? name = some e) : ofName name = e.2 := by
  rw [ofName, h]
  rfl

/-- A name stands for no algorithm exactly when no keyword occurs in it. -/
theorem ofName_eq_noAlgorithm_iff : ofName name = noAlgorithm ↔ ∀ e ∈ catalog, ¬ Occurs e.1 name := by
  constructor
  · intro h e he ho
    obtain ⟨f, hf⟩ := exists_deciding? he ho
    exact catalog_names_algorithms f (first_of_deciding? hf).1 (ofName_of_deciding? hf ▸ h)
  · intro h
    have hnone : deciding? name = none := List.find?_eq_none.mpr h
    rw [ofName, hnone]
    rfl

/-- What a keyword that occurs leaves to decide: no entry declared after it. -/
theorem ofName_ne_of_declared_before {algorithm : String} (he : e ∈ catalog) (ho : Occurs e.1 name)
    (hlater : ∀ g ∈ catalog, g.2 = algorithm → rank e < rank g) : ofName name ≠ algorithm := by
  obtain ⟨f, hf⟩ := exists_deciding? he ho
  obtain ⟨hmem, -, hmin⟩ := first_of_deciding? hf
  intro h
  have hlt := hlater f hmem (ofName_of_deciding? hf ▸ h)
  have hle := hmin e he ho
  omega

/-! ## Names inside names, and the case of letters -/

theorem Occurs.around (he : e ∈ catalog) (ho : Occurs e.1 name) (front back : String) :
    Occurs e.1 (front ++ name ++ back) := by
  unfold Occurs
  rw [String.toList_append, String.toList_append]
  exact Text.occursIn_lower_append (catalog_isAscii e he) ho _ _

/-- Text around a name brings the decision forward or leaves it. -/
theorem deciding?_around (h : deciding? name = some e) (front back : String) :
    ∃ f, deciding? (front ++ name ++ back) = some f ∧ rank f ≤ rank e := by
  obtain ⟨he, ho, -⟩ := first_of_deciding? h
  have ho' := ho.around he front back
  obtain ⟨f, hf⟩ := exists_deciding? he ho'
  exact ⟨f, hf, (first_of_deciding? hf).2.2 e he ho'⟩

theorem deciding?_of_sameButCase {name' : String} (h : SameButCase name.toList name'.toList) :
    deciding? name = deciding? name' := by
  have hiff : ∀ e ∈ catalog, (Occurs e.1 name ↔ Occurs e.1 name') := fun e he =>
    h.occursIn_lower_iff (catalog_isAscii e he)
  cases hd : deciding? name with
  | none =>
    refine (List.find?_eq_none.mpr fun e he ho => ?_).symm
    exact List.find?_eq_none.mp hd e he ((hiff e he).mpr ho)
  | some e =>
    obtain ⟨he, ho, hmin⟩ := first_of_deciding? hd
    refine (deciding?_eq_some_iff.mpr ⟨he, (hiff e he).mp ho, fun f hf hof => ?_⟩).symm
    exact hmin f hf ((hiff f hf).mpr hof)

/-! ## Main result -/

/-- **The first keyword of the catalog that occurs in a name decides.**  A name stands for no algorithm
exactly when no keyword occurs in it; otherwise it stands for that of an entry declared no later than any
whose keyword occurs.  Text around the name brings the decision forward or leaves it, the case of ASCII
letters plays no part, a name with a keyword is not taken for the algorithm of another keyword inside that
one, and a name with the keyword of a hash or of a key derivation is not taken for an HMAC. -/
theorem first_keyword_decides (name : String) :
    (ofName name = noAlgorithm ↔ ∀ e ∈ catalog, ¬ Occurs e.1 name) ∧
    ((∃ e ∈ catalog, Occurs e.1 name) → ∃ e, deciding? name = some e ∧ ofName name = e.2 ∧ e ∈ catalog ∧
      Occurs e.1 name ∧ ∀ f ∈ catalog, Occurs f.1 name → rank e ≤ rank f) ∧
    (∀ e, deciding? name = some e → ∀ front back, ∃ f,
      deciding? (front ++ name ++ back) = some f ∧ rank f ≤ rank e) ∧
    (∀ name', SameButCase name.toList name'.toList → ofName name' = ofName name) ∧
    (∀ e ∈ catalog, ∀ f ∈ catalog, e.2 ≠ f.2 → occursIn f.1.toList e.1.toList = true →
      Occurs e.1 name → ofName name ≠ f.2) ∧
    (∀ k ∈ hashKeywords ++ derivationKeywords, Occurs k name → ofName name ≠ "HMAC") := by
  refine ⟨ofName_eq_noAlgorithm_iff, ?_, fun e h => deciding?_around h, ?_, ?_, ?_⟩
  · rintro ⟨e, he, ho⟩
    obtain ⟨f, hf⟩ := exists_deciding? he ho
    exact ⟨f, hf, ofName_of_deciding? hf, first_of_deciding? hf⟩
  · intro name' h
    rw [ofName, ofName, deciding?_of_sameButCase h]
  · intro e he f hf hne hin ho
    exact ofName_ne_of_declared_before he ho (catalog_longer_first e he f hf hne hin)
  · intro k hk ho
    obtain ⟨e, he, rfl, hlater⟩ := catalog_hashes_first k hk
    exact ofName_ne_of_declared_before he ho hlater

/-- Three keywords occur in the name, in capitals; its last letter is a sigma that the text around it
changes. -/
theorem sha384_in_rsa_name :
    let name := "HMAC_SHA384_ΑΣ"
    let entry := ("sha384", "SHA-384")
    deciding? name = some entry ∧ Occurs "sha3" name ∧ Occurs "hmac" name ∧
      SameButCase name.toList "hmac_Sha384_ΑΣ".toList ∧ ofName "hmac_Sha384_ΑΣ" = ofName name ∧
      ofName name ≠ "SHA-3" ∧ ofName name ≠ "HMAC" ∧
      lower name.toList ++ ['α'] ≠ lower (name ++ "Α").toList ∧
      ∃ f, deciding? ("RSA_" ++ name ++ "Α") = some f ∧ rank f ≤ rank entry := by
  intro name entry
  have hd : deciding? name = some entry := by decide +kernel
  have hcase : SameButCase name.toList "hmac_Sha384_ΑΣ".toList := by decide +kernel
  have ho : Occurs "sha384" name := by decide +kernel
  obtain ⟨-, -, haround, hsame, hinside, hhash⟩ := first_keyword_decides name
  refine ⟨hd, by decide +kernel, by decide +kernel, hcase, hsame _ hcase, ?_, ?_, by decide +kernel,
    haround entry hd "RSA_" "Α"⟩
  · exact hinside entry (by decide) ("sha3", "SHA-3") (by decide) (by decide) (by decide) ho
  · exact hhash "sha384" (by decide) ho

end CipherCorpus.Algorithm
