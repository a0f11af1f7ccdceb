import CipherCorpus.Proofs.Config.Override
import CipherCorpus.Proofs.Text.Number

/-!
# Limits from the environment

A variable with a value that can be read takes the place of its setting in a configuration that is loaded,
as long as the check allows the value (`load_setVariable`).  The check does not look at the time limits, so
every 64-bit number of seconds is accepted (`load_every_limit`).
-/

namespace CipherCorpus

namespace Text

theorem trim_of_no_blank {s : List Char} (h : ∀ c ∈ s, isBlank c = false) : trim s = s := by
  have hkeep : ∀ l : List Char, (∀ c ∈ l, isBlank c = false) → l.dropWhile isBlank = l := by
    intro l hl
    cases l with
    | nil => rfl
    | cons c rest => exact List.dropWhile_cons_of_neg (by simp [hl c List.mem_cons_self])
  unfold trim trimEnd trimStart
  rw [hkeep s h, hkeep s.reverse fun c hc => h c (List.mem_reverse.mp hc), List.reverse_reverse]

theorem isBlank_of_isDigit {c : Char} (h : c.isDigit = true) : isBlank c = false := by
  obtain ⟨hlow, hhigh⟩ : 48 ≤ c.toNat ∧ c.toNat ≤ 57 := Char.isDigit_iff_toNat.mp h
  have hall : ∀ n < 58, 48 ≤ n → isBlank (Char.ofNat n) = false := by decide
  have := hall c.toNat (by omega) (by omega)
  rwa [Char.ofNat_toNat] at this

/-- The digits of a 64-bit number are read as the number. -/
theorem readNat_toDigits {n : ℕ} (hn : n < wordLimit) : readNat 10 (Nat.toDigits 10 n) = .ok n :=
  (readNat_eq_ok_iff (by decide) (by decide)).mpr
    ⟨hn, _, Or.inl rfl, numeral_toDigits (by decide) (by decide) n⟩

end Text

namespace Config

open Setting

variable {h : Host} {p : Path} {c c0 c' : Config} {s t : Setting} {value : String}

/-- A number as it is written is read as the number. -/
theorem readNumber_toString (name : String) (n : UInt64) : readNumber name (toString n) = .ok n := by
  have hdigits : (toString n).toList = Nat.toDigits 10 n.toNat := String.toList_ofList
  have hblank : ∀ c ∈ Nat.toDigits 10 n.toNat, Text.isBlank c = false := fun c hc =>
    Text.isBlank_of_isDigit (Nat.isDigit_of_mem_toDigits (by decide) (by decide) hc)
  unfold readNumber
  rw [hdigits, Text.trim_of_no_blank hblank, Text.readNat_toDigits n.toNat_lt]
  dsimp only
  rw [UInt64.ofNat_toNat]

/-- A configuration is loaded from a file, overridden and checked. -/
theorem load_eq_ok_iff : load h p = .ok c ↔
    ∃ c0, ofFile h p = .ok c0 ∧ c0.overridden h.environmentValue? = (.ok (), c) ∧ c.validate = .ok () := by
  cases hfile : ofFile h p with
  | error e =>
    refine iff_of_false (fun hl => ?_) (by rintro ⟨_, hc0, -⟩; cases hc0)
    unfold load at hl
    rw [hfile] at hl
    cases hl
  | ok c0 =>
    rw [load_of_ofFile hfile]
    constructor
    · intro hl
      split at hl
      · cases hl
      · next c1 ho =>
        cases hv : c1.validate with
        | error e =>
          rw [hv] at hl
          cases hl
        | ok u =>
          rw [hv] at hl
          cases hl
          exact ⟨c0, rfl, ho, hv⟩
    · rintro ⟨_, hc0, ho, hv⟩
      cases hc0
      rw [ho]
      dsimp only
      rw [hv]
      rfl

theorem variableName_injective : Function.Injective variableName := by
  intro s t h
  cases s <;> cases t <;> first | rfl | exact absurd h (by decide +kernel)

/-- A variable that is set has its value, and the others keep theirs. -/
theorem environmentValue?_setVariable (h : Host) (name value other : String) :
    (h.setVariable name value).environmentValue? other =
      if other = name then some value else h.environmentValue? other := by
  unfold Host.setVariable Host.environmentValue?
  dsimp only
  by_cases ho : other = name
  · rw [if_pos ho, ho, List.lookup_cons_self]
  · rw [if_neg ho, List.lookup_cons, beq_false_of_ne ho]
    dsimp only
    induction h.environment with
    | nil => rfl
    | cons entry rest ih =>
      obtain ⟨key, text⟩ := entry
      by_cases hk : key = name
      · rw [List.filter_cons_of_neg (by simp [hk]), ih, List.lookup_cons, hk, beq_false_of_ne ho]
      · rw [List.filter_cons_of_pos (by simpa using hk), List.lookup_cons, List.lookup_cons, ih]

theorem overrides_of_overridden {lookup : String → Option String} (ho : c0.overridden lookup = (.ok (), c)) :
    Overrides lookup Setting.all c0 c := by
  rcases overridden_cases lookup c0 with ⟨d, hd, hall⟩ | ⟨_, _, _, _, _, d, -, hd, -, -⟩
  · cases hd.symm.trans ho
    exact hall
  · cases hd.symm.trans ho

theorem Setting.Follows.unique {lookup : String → Option String} (hf : s.Follows lookup c0 c)
    (hf' : s.Follows lookup c0 c') : s.get c = s.get c' := by
  unfold Follows at hf hf'
  cases hv : lookup s.variableName with
  | none =>
    rw [hv] at hf hf'
    exact hf.trans hf'.symm
  | some v =>
    rw [hv] at hf hf'
    exact Except.ok.inj (hf.symm.trans hf')

/-- A variable with a value that can be read, in the environment of a configuration that is loaded, decides
its setting. -/
theorem load_setVariable {x : s.Value} (hl : load h p = .ok c) (hread : s.read value = .ok x)
    (hvalid : (s.put c x).validate = .ok ()) :
    load (h.setVariable s.variableName value) p = .ok (s.put c x) := by
  obtain ⟨c0, hfile, ho, -⟩ := load_eq_ok_iff.mp hl
  have hbefore := overrides_of_overridden ho
  have hself : (h.setVariable s.variableName value).environmentValue? s.variableName = some value := by
    rw [environmentValue?_setVariable, if_pos rfl]
  have hother : ∀ t : Setting, t ≠ s →
      (h.setVariable s.variableName value).environmentValue? t.variableName =
        h.environmentValue? t.variableName := by
    intro t ht
    rw [environmentValue?_setVariable, if_neg fun he => ht (variableName_injective he)]
  refine load_eq_ok_iff.mpr ⟨c0, hfile, ?_, hvalid⟩
  rcases overridden_cases (h.setVariable s.variableName value).environmentValue? c0 with
    ⟨d, hd, hall⟩ | ⟨_, t, _, v, e, d, -, -, -, hpresent, hunreadable⟩
  · have hlibraries : d.libraries = (s.put c x).libraries := by
      rw [hall.libraries, libraries_put, hbefore.libraries]
    rw [hd, config_ext hlibraries fun t => ?_]
    have hf := hall.follows t (mem_all t)
    by_cases ht : t = s
    · subst ht
      rw [Follows, hself] at hf
      rw [get_put_self]
      exact Except.ok.inj (hf.symm.trans hread)
    · rw [Follows, hother t ht] at hf
      rw [get_put_ne ht]
      have hf' : t.Follows h.environmentValue? c0 d := hf
      exact hf'.unique (hbefore.follows t (mem_all t))
  · by_cases ht : t = s
    · subst ht
      cases hself.symm.trans hpresent
      cases hread.symm.trans hunreadable
    · rw [hother t ht] at hpresent
      exact absurd ⟨hpresent, hunreadable⟩ (not_stops_of_follows (hbefore.follows t (mem_all t)))

/-- **Every 64-bit number of seconds is accepted as a limit**, from the variable of the limit. -/
theorem load_every_limit (hl : load h p = .ok c) (n : UInt64) :
    load (h.setVariable Setting.compileSeconds.variableName (toString n)) p =
      .ok { c with compileSeconds := n } ∧
    load (h.setVariable Setting.symbolSeconds.variableName (toString n)) p =
      .ok { c with symbolSeconds := n } := by
  obtain ⟨-, -, -, hvalid⟩ := load_eq_ok_iff.mp hl
  exact ⟨load_setVariable (s := .compileSeconds) (x := n) hl (readNumber_toString _ n) hvalid,
    load_setVariable (s := .symbolSeconds) (x := n) hl (readNumber_toString _ n) hvalid⟩

end Config

end CipherCorpus
