import CipherCorpus.Function
import CipherCorpus.Text.Quoted

/-!
# Functions guessed from their prologues

Without symbols, every place where the bytes `55 89 e5` stand counts as the start of a function. The
guess knows one calling convention only and takes data for code when the bytes agree.

`mem_offsets_iff`: exactly the offsets at which the pattern stands are reported.
-/

namespace CipherCorpus.Prologue

/-- The frame set-up of 32-bit x86 code. -/
def pattern : List UInt8 := [0x55, 0x89, 0xe5]

/-- The offsets of the pattern, counted from `start`. -/
def offsetsFrom (start : Nat) : List UInt8 → List Nat
  | [] => []
  | b :: rest =>
    if pattern.isPrefixOf (b :: rest) then start :: offsetsFrom (start + 1) rest
    else offsetsFrom (start + 1) rest

/-- The offsets of the pattern in ascending order. -/
def offsets (data : List UInt8) : List Nat := offsetsFrom 0 data

theorem mem_offsetsFrom_iff (start i : Nat) (data : List UInt8) :
    i ∈ offsetsFrom start data ↔ ∃ k, i = start + k ∧ pattern <+: data.drop k := by
  induction data generalizing start with
  | nil => simp [offsetsFrom, pattern]
  | cons b rest ih =>
    have step : (∃ k, i = start + k ∧ pattern <+: (b :: rest).drop k) ↔
        (i = start ∧ pattern <+: b :: rest) ∨
          ∃ k, i = start + 1 + k ∧ pattern <+: rest.drop k := by
      constructor
      · rintro ⟨k, rfl, h⟩
        cases k with
        | zero => exact Or.inl ⟨rfl, by simpa using h⟩
        | succ k => exact Or.inr ⟨k, by omega, by simpa using h⟩
      · rintro (⟨rfl, h⟩ | ⟨k, rfl, h⟩)
        · exact ⟨0, rfl, by simpa using h⟩
        · exact ⟨k + 1, by omega, by simpa using h⟩
    rw [step, ← ih]
    rw [offsetsFrom]
    split
    · rename_i h
      rw [ List.isPrefixOf_iff_prefix] at h
      simp [h]
    · rename_i h
      rw [ List.isPrefixOf_iff_prefix] at h
      simp [h]

/-- Exactly the offsets at which the pattern stands are reported. -/
theorem mem_offsets_iff (i : Nat) (data : List UInt8) :
    i ∈ offsets data ↔ pattern <+: data.drop i := by
  simp [offsets, mem_offsetsFrom_iff]

/-- The name of a function that only has an address. -/
def nameAt (offset : Nat) : String := "sub_" ++ String.ofList (Text.hex offset)

/-- The functions that start with the pattern. -/
def functions (data : List UInt8) (binary : Path) : List FoundFunction :=
  (offsets data).map fun i => ⟨binary, UInt64.ofNat i, none, nameAt i, .heuristic⟩

end CipherCorpus.Prologue
