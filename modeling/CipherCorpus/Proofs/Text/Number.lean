import CipherCorpus.Text.Number
import Mathlib.Data.List.Forall2
import Mathlib.Data.Nat.Digits.Defs
import Mathlib.Tactic.IntervalCases
import Mathlib.Tactic.Ring

/-!
# Numerals

A numeral is a non-empty row of digits, in either case of letters and with any zeros in front.  A text is
read as a number exactly when it is the numeral of one below 2⁶⁴, with or without a plus sign in front
(`readNat_eq_ok_iff`).
-/

namespace CipherCorpus.Text

variable {base : ℕ} {c : Char} {d n value : ℕ} {token : List Char}

/-- A digit of a base up to sixteen, in either case. -/
def IsDigit (base : ℕ) (c : Char) (d : ℕ) : Prop :=
  d < base ∧ (c = d.digitChar ∨ c = d.digitChar.toUpper)

/-- A row of digits, the first one counting most. -/
def Numeral (base : ℕ) (token : List Char) (n : ℕ) : Prop :=
  ∃ digits, token ≠ [] ∧ List.Forall₂ (IsDigit base) token digits ∧ n = Nat.ofDigits base digits.reverse

/-- A numeral that may have a plus sign in front. -/
def SignedNumeral (base : ℕ) (token : List Char) (n : ℕ) : Prop :=
  ∃ digits, (token = digits ∨ token = '+' :: digits) ∧ Numeral base digits n

theorem digitValue?_eq_some_iff (hbase : base ≤ 16) : digitValue? base c = some d ↔ IsDigit base c d := by
  unfold digitValue? IsDigit
  constructor
  · intro h
    obtain ⟨hv, hd⟩ := Option.filter_eq_some_iff.mp h
    have hd : d < base := by simpa using hd
    refine ⟨hd, ?_⟩
    have hletters : ∀ d < 16, d.digitChar.toNat = (if d < 10 then 48 else 87) + d ∧
        (10 ≤ d → d.digitChar.toUpper.toNat = 55 + d) := by decide
    obtain ⟨hsmall, hcapital⟩ := hletters d (by omega)
    split at hv
    · next hrange =>
      have hn : c.toNat - 48 = d := Option.some.inj hv
      simp only [Bool.and_eq_true, decide_eq_true_eq] at hrange
      rw [if_pos (by omega)] at hsmall
      exact Or.inl (Char.toNat_inj.mp (by omega))
    · split at hv
      · next hrange =>
        have hn : c.toNat - 87 = d := Option.some.inj hv
        simp only [Bool.and_eq_true, decide_eq_true_eq] at hrange
        rw [if_neg (by omega)] at hsmall
        exact Or.inl (Char.toNat_inj.mp (by omega))
      · split at hv
        · next hrange =>
          have hn : c.toNat - 55 = d := Option.some.inj hv
          simp only [Bool.and_eq_true, decide_eq_true_eq] at hrange
          have hcapital := hcapital (by omega)
          exact Or.inr (Char.toNat_inj.mp (by omega))
        · cases hv
  · rintro ⟨hd, hc⟩
    have hlt : d < 16 := by omega
    refine Option.filter_eq_some_iff.mpr ⟨?_, by simpa using hd⟩
    clear hd
    rcases hc with rfl | rfl
    · interval_cases d <;> rfl
    · interval_cases d <;> rfl

/-- Digits after a value are read as a whole that fits. -/
theorem readDigits_eq_ok_iff (hpos : 0 < base) (hbase : base ≤ 16) : ∀ {value : ℕ}, value < wordLimit →
    (readDigits base value token = .ok n ↔ n < wordLimit ∧ ∃ digits,
      List.Forall₂ (IsDigit base) token digits ∧
        n = value * base ^ digits.length + Nat.ofDigits base digits.reverse) := by
  induction token with
  | nil =>
    intro value hvalue
    simp only [readDigits, Except.ok.injEq, List.forall₂_nil_left_iff, exists_eq_left, List.length_nil,
      pow_zero, mul_one, List.reverse_nil, Nat.ofDigits_nil, add_zero]
    constructor
    · rintro rfl
      exact ⟨hvalue, rfl⟩
    · rintro ⟨-, rfl⟩
      rfl
  | cons c token ih =>
    intro value hvalue
    have hsum : ∀ (d : ℕ) (digits : List ℕ), value * base ^ (d :: digits).length +
        Nat.ofDigits base (d :: digits).reverse =
        (value * base + d) * base ^ digits.length + Nat.ofDigits base digits.reverse := by
      intro d digits
      rw [List.reverse_cons, Nat.ofDigits_append, List.length_cons, List.length_reverse, Nat.ofDigits_singleton]
      ring
    rw [readDigits]
    cases hdigit : digitValue? base c with
    | none =>
      dsimp only
      refine iff_of_false (by simp) ?_
      rintro ⟨-, digits, hall, -⟩
      cases hall with
      | cons hd _ =>
        rw [(digitValue?_eq_some_iff hbase).mpr hd] at hdigit
        cases hdigit
    | some d =>
      dsimp only
      have hd := (digitValue?_eq_some_iff hbase).mp hdigit
      -- the digit is determined by its letter
      have hcons : (∃ digits, List.Forall₂ (IsDigit base) (c :: token) digits ∧
          n = value * base ^ digits.length + Nat.ofDigits base digits.reverse) ↔
          ∃ digits, List.Forall₂ (IsDigit base) token digits ∧
            n = (value * base + d) * base ^ digits.length + Nat.ofDigits base digits.reverse := by
        constructor
        · rintro ⟨digits, hall, hn⟩
          cases hall with
          | @cons _ e _ digits he hall =>
            obtain rfl := Option.some.inj (hdigit.symm.trans ((digitValue?_eq_some_iff hbase).mpr he))
            exact ⟨digits, hall, by rw [hn, hsum]⟩
        · rintro ⟨digits, hall, hn⟩
          exact ⟨d :: digits, .cons hd hall, by rw [hn, hsum]⟩
      rw [hcons]
      by_cases hlarge : wordLimit ≤ value * base + d
      · rw [if_pos hlarge]
        refine iff_of_false (by simp) ?_
        rintro ⟨hlt, digits, -, hn⟩
        have hone : value * base + d ≤ (value * base + d) * base ^ digits.length :=
          Nat.le_mul_of_pos_right _ (Nat.pow_pos hpos)
        omega
      · rw [if_neg hlarge, ih (Nat.lt_of_not_le hlarge)]

theorem readDigits_zero_eq_ok_iff (hpos : 0 < base) (hbase : base ≤ 16) (htoken : token ≠ []) :
    readDigits base 0 token = .ok n ↔ n < wordLimit ∧ Numeral base token n := by
  rw [readDigits_eq_ok_iff hpos hbase (by decide)]
  simp [Numeral, htoken]

theorem IsDigit.unique {e : ℕ} (hbase : base ≤ 16) (hd : IsDigit base c d) (he : IsDigit base c e) : d = e :=
  Option.some.inj (((digitValue?_eq_some_iff hbase).mpr hd).symm.trans ((digitValue?_eq_some_iff hbase).mpr he))

/-- A row of digits is the numeral of one number. -/
theorem Numeral.unique {k : ℕ} (hbase : base ≤ 16) (hn : Numeral base token n) (hk : Numeral base token k) :
    n = k := by
  obtain ⟨ds, -, hds, rfl⟩ := hn
  obtain ⟨es, -, hes, rfl⟩ := hk
  have hsame : ds = es := List.right_unique_forall₂' (fun _ _ _ hd he => hd.unique hbase he) hds hes
  rw [hsame]

/-- The digits of a number are a numeral of it. -/
theorem numeral_toDigits (hpos : 1 < base) (hbase : base ≤ 16) (n : ℕ) : Numeral base (Nat.toDigits base n) n := by
  induction n using Nat.strongRecOn with
  | ind n ih =>
    by_cases hn : n < base
    · rw [Nat.toDigits_of_lt_base hn]
      exact ⟨[n], by simp, .cons ⟨hn, Or.inl rfl⟩ .nil, by simp⟩
    · have hle := Nat.le_of_not_lt hn
      obtain ⟨ds, -, hds, hvalue⟩ := ih (n / base) (Nat.div_lt_self (by omega) hpos)
      rw [Nat.toDigits_of_base_le hpos hle]
      refine ⟨ds ++ [n % base], by simp, List.rel_append hds (.cons ⟨Nat.mod_lt n (by omega), Or.inl rfl⟩ .nil), ?_⟩
      rw [List.reverse_append, List.reverse_singleton, List.singleton_append, Nat.ofDigits_cons, ← hvalue]
      exact (Nat.mod_add_div n base).symm

theorem Numeral.ne_plus (hbase : base ≤ 16) (h : Numeral base token n) : token ≠ [] ∧ token.head? ≠ some '+' := by
  obtain ⟨digits, hne, hall, -⟩ := h
  refine ⟨hne, fun hplus => ?_⟩
  cases hall with
  | nil => exact hne rfl
  | cons hd _ =>
    obtain rfl := Option.some.inj hplus
    cases (digitValue?_eq_some_iff hbase).mpr hd

/-- **What is read as a number.** -/
theorem readNat_eq_ok_iff (hpos : 0 < base) (hbase : base ≤ 16) :
    readNat base token = .ok n ↔ n < wordLimit ∧ SignedNumeral base token n := by
  unfold readNat
  split
  · refine iff_of_false (by simp) ?_
    rintro ⟨-, digits, rfl | he, hn⟩
    · exact (hn.ne_plus hbase).1 rfl
    · cases he
  · refine iff_of_false (by simp) ?_
    rintro ⟨-, digits, rfl | he, hn⟩
    · exact (hn.ne_plus hbase).2 rfl
    · cases he
      exact (hn.ne_plus hbase).1 rfl
  · next digits hne =>
    rw [readDigits_zero_eq_ok_iff hpos hbase fun h => hne (by rw [h])]
    refine and_congr_right fun _ => ⟨fun hn => ⟨digits, Or.inr rfl, hn⟩, ?_⟩
    rintro ⟨other, rfl | he, hn⟩
    · exact absurd rfl (hn.ne_plus hbase).2
    · cases he
      exact hn
  · next hnil _ hplus =>
    rw [readDigits_zero_eq_ok_iff hpos hbase hnil]
    refine and_congr_right fun _ => ⟨fun hn => ⟨token, Or.inl rfl, hn⟩, ?_⟩
    rintro ⟨digits, rfl | rfl, hn⟩
    · exact hn
    · exact absurd rfl (hplus digits)

end CipherCorpus.Text
