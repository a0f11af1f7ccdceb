import CipherCorpus.Proofs.Text.Number
import CipherCorpus.Symbols.Prologue
import Mathlib.Data.List.Sort

/-!
# Every prologue is found once

A prologue is three bytes in a row (`mem_offsets_iff_bytes`), and the offsets at which it stands are listed in
ascending order (`pairwise_offsets`).  So the list is determined by its members, and data that is cut in two has the
prologues of the first part, those that lie across the cut, and those of the second part behind the first:

    offsets (a ++ b) = offsets a ++ across a b ++ (offsets b).map (a.length + ·)          (offsets_append)

Only the first byte of a prologue begins one, so two prologues never share a byte and at most one lies across a cut
(`length_across_le_one`).  A guessed function is named for its offset, and the name tells the offset
(`nameAt_injective`).
-/

namespace CipherCorpus.Prologue

variable {a b data : List UInt8} {i j : ℕ}

/-! ## Where prologues stand -/

theorem pattern_prefix_iff (s : List UInt8) :
    pattern <+: s ↔ s[0]? = some 0x55 ∧ s[1]? = some 0x89 ∧ s[2]? = some 0xe5 := by
  match s with
  | [] => simp [pattern]
  | [x] => simp [pattern]
  | [x, y] => simp [pattern]
  | x :: y :: z :: rest => simp [pattern, eq_comm]

/-- The offsets are those at which the three bytes stand. -/
theorem mem_offsets_iff_bytes :
    i ∈ offsets data ↔ data[i]? = some 0x55 ∧ data[i + 1]? = some 0x89 ∧ data[i + 2]? = some 0xe5 := by
  rw [mem_offsets_iff, pattern_prefix_iff]
  simp only [List.getElem?_drop, Nat.add_zero]

theorem add_le_of_mem_offsets (hi : i ∈ offsets data) : i + pattern.length ≤ data.length :=
  (List.getElem?_eq_some_iff.mp (mem_offsets_iff_bytes.mp hi).2.2).1

theorem lt_of_mem_offsets (hi : i ∈ offsets data) : i < data.length :=
  Nat.lt_of_lt_of_le (Nat.lt_add_of_pos_right (by decide)) (add_le_of_mem_offsets hi)

theorem pairwise_offsetsFrom (start : ℕ) (data : List UInt8) : (offsetsFrom start data).Pairwise (· < ·) := by
  induction data generalizing start with
  | nil => exact List.Pairwise.nil
  | cons x rest ih =>
    rw [offsetsFrom]
    split
    · refine List.pairwise_cons.mpr ⟨fun i hi => ?_, ih (start + 1)⟩
      obtain ⟨k, rfl, -⟩ := (mem_offsetsFrom_iff (start + 1) i rest).mp hi
      omega
    · exact ih (start + 1)

/-- The offsets ascend. -/
theorem pairwise_offsets (data : List UInt8) : (offsets data).Pairwise (· < ·) := pairwise_offsetsFrom 0 data

/-- The pattern is found once at each offset. -/
theorem nodup_offsets (data : List UInt8) : (offsets data).Nodup := (pairwise_offsets data).imp Nat.ne_of_lt

/-! ## Data that is cut in two -/

/-- Offsets of the prologues that begin in front of the cut and end behind it. -/
def across (a b : List UInt8) : List ℕ :=
  (offsets (a ++ b)).filter fun i => i < a.length && a.length < i + pattern.length

theorem mem_across : i ∈ across a b ↔ i ∈ offsets (a ++ b) ∧ i < a.length ∧ a.length < i + pattern.length := by
  simp [across]

theorem mem_offsets_append_left (h : i + pattern.length ≤ a.length) : i ∈ offsets (a ++ b) ↔ i ∈ offsets a := by
  change i + 3 ≤ a.length at h
  simp only [mem_offsets_iff_bytes]
  rw [List.getElem?_append_left (by omega), List.getElem?_append_left (by omega),
    List.getElem?_append_left (by omega)]

theorem mem_offsets_append_right : a.length + i ∈ offsets (a ++ b) ↔ i ∈ offsets b := by
  simp only [mem_offsets_iff_bytes, Nat.add_assoc, List.getElem?_append_right (Nat.le_add_right ..),
    Nat.add_sub_cancel_left]

theorem mem_offsets_append : i ∈ offsets (a ++ b) ↔
    i ∈ offsets a ∨ i ∈ across a b ∨ ∃ j ∈ offsets b, a.length + j = i := by
  rw [mem_across]
  constructor
  · intro h
    by_cases hleft : i + pattern.length ≤ a.length
    · exact Or.inl ((mem_offsets_append_left hleft).mp h)
    by_cases hright : a.length ≤ i
    · obtain ⟨j, rfl⟩ := Nat.exists_eq_add_of_le hright
      exact Or.inr (Or.inr ⟨j, mem_offsets_append_right.mp h, rfl⟩)
    · exact Or.inr (Or.inl ⟨h, Nat.lt_of_not_le hright, Nat.lt_of_not_le hleft⟩)
  · rintro (h | ⟨h, -, -⟩ | ⟨j, hj, rfl⟩)
    · exact (mem_offsets_append_left (add_le_of_mem_offsets h)).mpr h
    · exact h
    · exact mem_offsets_append_right.mpr hj

/-- The prologues of joined data are those of its parts and those across the cut. -/
theorem offsets_append (a b : List UInt8) :
    offsets (a ++ b) = offsets a ++ across a b ++ (offsets b).map (a.length + ·) := by
  -- both sides ascend, so it is enough that they have the same members
  refine (pairwise_offsets _).eq_of_mem_iff ?_ fun i => ?_
  · refine List.pairwise_append.mpr ⟨List.pairwise_append.mpr
      ⟨pairwise_offsets a, (pairwise_offsets _).filter _, fun i hi j hj => ?_⟩, ?_, fun i hi j hj => ?_⟩
    · have hend := add_le_of_mem_offsets hi
      have hacross := (mem_across.mp hj).2.2
      omega
    · exact (pairwise_offsets b).map _ fun i j h => Nat.add_lt_add_left h _
    · obtain ⟨k, -, rfl⟩ := List.mem_map.mp hj
      rcases List.mem_append.mp hi with hi | hi
      · exact Nat.lt_add_right k (lt_of_mem_offsets hi)
      · exact Nat.lt_add_right k (mem_across.mp hi).2.1
  · rw [mem_offsets_append, List.mem_append, List.mem_append, List.mem_map, or_assoc]

/-- A prologue does not begin within another one. -/
theorem add_le_of_lt (hi : i ∈ offsets data) (hj : j ∈ offsets data) (h : i < j) : i + pattern.length ≤ j := by
  change i + 3 ≤ j
  obtain ⟨-, hsecond, hthird⟩ := mem_offsets_iff_bytes.mp hi
  obtain ⟨hfirst, -, -⟩ := mem_offsets_iff_bytes.mp hj
  by_contra hlt
  obtain rfl | rfl : j = i + 1 ∨ j = i + 2 := by omega
  · exact absurd (hfirst.symm.trans hsecond) (by decide)
  · exact absurd (hfirst.symm.trans hthird) (by decide)

/-- At most one prologue lies across a cut. -/
theorem length_across_le_one (a b : List UInt8) : (across a b).length ≤ 1 := by
  have hascending : (across a b).Pairwise (· < ·) := (pairwise_offsets _).filter _
  match h : across a b with
  | [] => exact Nat.zero_le 1
  | [i] => exact Nat.le_refl 1
  | i :: j :: more =>
    rw [h] at hascending
    have hlt : i < j := (List.pairwise_cons.mp hascending).1 j List.mem_cons_self
    obtain ⟨hi, -, hcut⟩ := mem_across.mp (h ▸ List.mem_cons_self : i ∈ across a b)
    obtain ⟨hj, hbefore, -⟩ := mem_across.mp (h ▸ List.mem_cons_of_mem i List.mem_cons_self : j ∈ across a b)
    have hapart := add_le_of_lt hi hj hlt
    omega

/-! ## Functions at prologues -/

/-- The name tells the offset. -/
theorem nameAt_injective : Function.Injective nameAt := by
  intro i j h
  have hdigits : Nat.toDigits 16 i = Nat.toDigits 16 j := by
    have htext := congrArg String.toList h
    simpa [nameAt, Text.hex] using htext
  exact (Text.numeral_toDigits (by decide) (by decide) i).unique (by decide)
    (hdigits ▸ Text.numeral_toDigits (by decide) (by decide) j)

/-- The function that is guessed at an offset. -/
def guess (binary : Path) (offset : ℕ) : FoundFunction :=
  ⟨binary, UInt64.ofNat offset, none, nameAt offset, .heuristic⟩

theorem functions_eq_map (data : List UInt8) (binary : Path) :
    functions data binary = (offsets data).map (guess binary) := rfl

theorem nodup_names (data : List UInt8) (binary : Path) : ((functions data binary).map (·.name)).Nodup := by
  rw [functions_eq_map, List.map_map]
  exact (nodup_offsets data).map nameAt_injective

/-- Addresses are offsets, where data is no longer than addresses reach. -/
theorem addresses_eq_offsets (hlen : data.length ≤ UInt64.size) (binary : Path) :
    (functions data binary).map (·.address.toNat) = offsets data := by
  rw [functions_eq_map, List.map_map]
  refine (List.map_congr_left fun i hi => ?_).trans (List.map_id _)
  exact UInt64.toNat_ofNat_of_lt' (Nat.lt_of_lt_of_le (lt_of_mem_offsets hi) hlen)

/-- The functions of joined data are those of its parts and those across the cut. -/
theorem functions_append (a b : List UInt8) (binary : Path) : functions (a ++ b) binary =
    functions a binary ++ (across a b).map (guess binary) ++
      (offsets b).map fun i => guess binary (a.length + i) := by
  simp only [functions_eq_map, offsets_append, List.map_append, List.map_map]
  rfl

/-- **Functions at every prologue.**  The functions that are guessed from some data stand at the offsets of the
three bytes and nowhere else, once at each and in ascending order, under different names; their addresses are these
offsets.  Joined data has the functions of the first part, at most one that lies across the cut, and those of the
second part, moved by the length of the first. -/
theorem functions_at_every_prologue (binary : Path) :
    (∀ data : List UInt8, functions data binary = (offsets data).map (guess binary) ∧
      (offsets data).Pairwise (· < ·) ∧
      (∀ i, i ∈ offsets data ↔
        data[i]? = some 0x55 ∧ data[i + 1]? = some 0x89 ∧ data[i + 2]? = some 0xe5) ∧
      ((functions data binary).map (·.name)).Nodup ∧
      (data.length ≤ UInt64.size → (functions data binary).map (·.address.toNat) = offsets data)) ∧
    ∀ a b : List UInt8, functions (a ++ b) binary =
        functions a binary ++ (across a b).map (guess binary) ++
          (offsets b).map (fun i => guess binary (a.length + i)) ∧
      (across a b).length ≤ 1 ∧
      ∀ i, i ∈ across a b ↔ i ∈ offsets (a ++ b) ∧ i < a.length ∧ a.length < i + pattern.length :=
  ⟨fun data => ⟨functions_eq_map data binary, pairwise_offsets data, fun _ => mem_offsets_iff_bytes,
      nodup_names data binary, fun hlen => addresses_eq_offsets hlen binary⟩,
    fun a b => ⟨functions_append a b binary, length_across_le_one a b, fun _ => mem_across⟩⟩

/-- A cut inside the second of three prologues. -/
theorem cut_inside_a_prologue :
    let a : List UInt8 := [0x55, 0x89, 0xe5, 0x90, 0x55]
    let b : List UInt8 := [0x89, 0xe5, 0x55, 0x89, 0xe5, 0x55, 0x89]
    (a ++ b).length ≤ UInt64.size ∧ (functions (a ++ b) ⟨"/b"⟩).map (·.address.toNat) = [0, 4, 7] ∧
      across a b = [4] ∧ offsets b = [2] := by
  intro a b
  have hlen : (a ++ b).length ≤ UInt64.size := by decide
  exact ⟨hlen, ((functions_at_every_prologue ⟨"/b"⟩).1 (a ++ b)).2.2.2.2 hlen, by decide, by decide⟩

end CipherCorpus.Prologue
