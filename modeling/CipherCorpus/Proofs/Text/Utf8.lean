import CipherCorpus.Text.Utf8

/-!
# Encoded text is read back

The bytes of a character are one well-formed piece (`firstPiece_encodeChar`), so the pieces of encoded
text are its characters:

    pieces (encode s) = s.map some        decode? (encode s) = some s
-/

namespace CipherCorpus.Text

/-! ## Bytes by their numbers -/

theorem isContinuation_ofNat : ∀ m < 256,
    isContinuation (UInt8.ofNat m) = decide (0x80 ≤ m ∧ m ≤ 0xbf) := by
  decide +kernel

theorem leadOf_ofNat : ∀ m < 256, leadOf (UInt8.ofNat m) =
    if 0xc2 ≤ m ∧ m ≤ 0xdf then some (1, 0x80, 0xbf)
    else if m = 0xe0 then some (2, 0xa0, 0xbf)
    else if m = 0xed then some (2, 0x80, 0x9f)
    else if 0xe1 ≤ m ∧ m ≤ 0xef then some (2, 0x80, 0xbf)
    else if m = 0xf0 then some (3, 0x90, 0xbf)
    else if 0xf1 ≤ m ∧ m ≤ 0xf3 then some (3, 0x80, 0xbf)
    else if m = 0xf4 then some (3, 0x80, 0x8f)
    else none := by
  decide +kernel

theorem toNat_byte {m : Nat} (h : m < 256) : (UInt8.ofNat m).toNat = m := by
  rw [UInt8.toNat_ofNat', Nat.mod_eq_of_lt h]

/-! ## Pieces of more than one byte -/

/-- The number that continuation bytes add to the bits of a lead byte. -/
def extend (bits : Nat) (tail : List UInt8) : Nat := tail.foldl (fun v x => v * 64 + x.toNat % 64) bits

/-- The bytes in range after a lead byte: the first of them in its own range, the others continue. -/
theorem followed_cons {m : Nat} {low high : UInt8} {tail rest : List UInt8} (hm : m < 256)
    (hl : low.toNat ≤ m) (hh : m ≤ high.toNat) (ht : ∀ b ∈ tail, isContinuation b = true) :
    followed (tail.length + 1) low high (UInt8.ofNat m :: (tail ++ rest)) = tail.length + 1 := by
  have hin : (decide (low ≤ UInt8.ofNat m) && decide (UInt8.ofNat m ≤ high)) = true := by
    rw [Bool.and_eq_true, decide_eq_true_eq, decide_eq_true_eq, UInt8.le_iff_toNat_le,
      UInt8.le_iff_toNat_le, toNat_byte hm]
    exact ⟨hl, hh⟩
  show (if (decide (low ≤ UInt8.ofNat m) && decide (UInt8.ofNat m ≤ high)) = true then
    1 + (((tail ++ rest).take (tail.length + 1 - 1)).takeWhile isContinuation).length else 0) = _
  have htake : tail.takeWhile isContinuation = tail := by
    have h : (tail ++ []).takeWhile isContinuation = tail ++ [].takeWhile isContinuation :=
      List.takeWhile_append_of_pos ht
    simpa using h
  rw [if_pos hin, Nat.add_sub_cancel, List.take_left, htake]
  omega

/-- A lead byte with as many bytes in range as it announces is one character. -/
theorem firstPiece_of_lead {lead m : Nat} {low high : UInt8} (tail : List UInt8) (hlead : lead < 256)
    (hascii : 0x80 ≤ lead) (hof : leadOf (UInt8.ofNat lead) = some (tail.length + 1, low, high))
    (hm : m < 256) (hl : low.toNat ≤ m) (hh : m ≤ high.toNat)
    (ht : ∀ b ∈ tail, isContinuation b = true) (rest : List UInt8) :
    firstPiece (UInt8.ofNat lead) (UInt8.ofNat m :: (tail ++ rest)) =
      (some (Char.ofNat (extend (lead % (1 <<< (5 - tail.length))) (UInt8.ofNat m :: tail))),
        tail.length + 1) := by
  have hnot : ¬ UInt8.ofNat lead < 0x80 := by
    rw [UInt8.lt_iff_toNat_lt, toNat_byte hlead]
    show ¬ lead < 128
    omega
  unfold firstPiece
  rw [if_neg hnot, hof]
  simp only [followed_cons hm hl hh ht, if_true, toNat_byte hlead]
  have htake : (UInt8.ofNat m :: (tail ++ rest)).take (tail.length + 1) = UInt8.ofNat m :: tail := by
    rw [List.take_succ_cons, List.take_left]
  rw [htake, show 6 - (tail.length + 1) = 5 - tail.length by omega]
  rfl

theorem firstPiece_two {n : Nat} (hl : 0x80 ≤ n) (hh : n ≤ 0x7ff) (rest : List UInt8) :
    firstPiece (UInt8.ofNat (n / 64 % 32 + 192)) (UInt8.ofNat (n % 64 + 128) :: rest) =
      (some (Char.ofNat n), 1) := by
  have hlead : n / 64 % 32 + 192 < 256 := by omega
  have hof : leadOf (UInt8.ofNat (n / 64 % 32 + 192)) = some (1, 0x80, 0xbf) := by
    rw [leadOf_ofNat _ hlead, if_pos (by omega)]
  have h := firstPiece_of_lead [] hlead (by omega) hof (m := n % 64 + 128) (by omega)
    (by show 128 ≤ _; omega) (by show _ ≤ 191; omega) (by simp) rest
  rw [List.nil_append] at h
  rw [h]
  simp only [extend, List.foldl_cons, List.foldl_nil, List.length_nil,
    toNat_byte (show n % 64 + 128 < 256 by omega)]
  have hn : (n / 64 % 32 + 192) % (1 <<< (5 - 0)) * 64 + (n % 64 + 128) % 64 = n := by
    show (n / 64 % 32 + 192) % 32 * 64 + (n % 64 + 128) % 64 = n
    omega
  rw [hn]

theorem firstPiece_three {n : Nat} (hl : 0x800 ≤ n) (hh : n ≤ 0xffff)
    (hs : n < 0xd800 ∨ 0xdfff < n) (rest : List UInt8) :
    firstPiece (UInt8.ofNat (n / 4096 % 16 + 224))
        (UInt8.ofNat (n / 64 % 64 + 128) :: UInt8.ofNat (n % 64 + 128) :: rest) =
      (some (Char.ofNat n), 2) := by
  have hlead : n / 4096 % 16 + 224 < 256 := by omega
  have htail : ∀ b ∈ [UInt8.ofNat (n % 64 + 128)], isContinuation b = true := by
    intro b hb
    rw [List.mem_singleton.mp hb, isContinuation_ofNat _ (by omega), decide_eq_true_eq]
    omega
  obtain ⟨low, high, hof, hlow, hhigh⟩ : ∃ low high : UInt8,
      leadOf (UInt8.ofNat (n / 4096 % 16 + 224)) = some (2, low, high) ∧
        low.toNat ≤ n / 64 % 64 + 128 ∧ n / 64 % 64 + 128 ≤ high.toNat := by
    rw [leadOf_ofNat _ hlead, if_neg (by omega)]
    by_cases h0 : n / 4096 % 16 + 224 = 0xe0
    · refine ⟨0xa0, 0xbf, by rw [if_pos h0], ?_, ?_⟩
      · show 160 ≤ _
        omega
      · show _ ≤ 191
        omega
    · rw [if_neg h0]
      by_cases hd : n / 4096 % 16 + 224 = 0xed
      · refine ⟨0x80, 0x9f, by rw [if_pos hd], ?_, ?_⟩
        · show 128 ≤ _
          omega
        · show _ ≤ 159
          omega
      · rw [if_neg hd, if_pos (by omega)]
        refine ⟨0x80, 0xbf, rfl, ?_, ?_⟩
        · show 128 ≤ _
          omega
        · show _ ≤ 191
          omega
  have h := firstPiece_of_lead [UInt8.ofNat (n % 64 + 128)] hlead (by omega) hof
    (m := n / 64 % 64 + 128) (by omega) hlow hhigh htail rest
  rw [List.singleton_append] at h
  rw [h]
  simp only [extend, List.foldl_cons, List.foldl_nil, List.length_singleton,
    toNat_byte (show n / 64 % 64 + 128 < 256 by omega), toNat_byte (show n % 64 + 128 < 256 by omega)]
  have hn : ((n / 4096 % 16 + 224) % (1 <<< (5 - 1)) * 64 + (n / 64 % 64 + 128) % 64) * 64 +
      (n % 64 + 128) % 64 = n := by
    show ((n / 4096 % 16 + 224) % 16 * 64 + (n / 64 % 64 + 128) % 64) * 64 + (n % 64 + 128) % 64 = n
    omega
  rw [hn]

theorem firstPiece_four {n : Nat} (hl : 0x10000 ≤ n) (hh : n < 0x110000) (rest : List UInt8) :
    firstPiece (UInt8.ofNat (n / 262144 % 8 + 240)) (UInt8.ofNat (n / 4096 % 64 + 128) ::
        UInt8.ofNat (n / 64 % 64 + 128) :: UInt8.ofNat (n % 64 + 128) :: rest) =
      (some (Char.ofNat n), 3) := by
  have hlead : n / 262144 % 8 + 240 < 256 := by omega
  have htail : ∀ b ∈ [UInt8.ofNat (n / 64 % 64 + 128), UInt8.ofNat (n % 64 + 128)],
      isContinuation b = true := by
    intro b hb
    rw [List.mem_cons, List.mem_singleton] at hb
    rcases hb with rfl | rfl
    · rw [isContinuation_ofNat _ (by omega), decide_eq_true_eq]
      omega
    · rw [isContinuation_ofNat _ (by omega), decide_eq_true_eq]
      omega
  obtain ⟨low, high, hof, hlow, hhigh⟩ : ∃ low high : UInt8,
      leadOf (UInt8.ofNat (n / 262144 % 8 + 240)) = some (3, low, high) ∧
        low.toNat ≤ n / 4096 % 64 + 128 ∧ n / 4096 % 64 + 128 ≤ high.toNat := by
    rw [leadOf_ofNat _ hlead, if_neg (by omega), if_neg (by omega), if_neg (by omega),
      if_neg (by omega)]
    by_cases h0 : n / 262144 % 8 + 240 = 0xf0
    · refine ⟨0x90, 0xbf, by rw [if_pos h0], ?_, ?_⟩
      · show 144 ≤ _
        omega
      · show _ ≤ 191
        omega
    · rw [if_neg h0]
      by_cases h4 : n / 262144 % 8 + 240 = 0xf4
      · refine ⟨0x80, 0x8f, by rw [if_neg (by omega), if_pos h4], ?_, ?_⟩
        · show 128 ≤ _
          omega
        · show _ ≤ 143
          omega
      · rw [if_pos (by omega)]
        refine ⟨0x80, 0xbf, rfl, ?_, ?_⟩
        · show 128 ≤ _
          omega
        · show _ ≤ 191
          omega
  have h := firstPiece_of_lead [UInt8.ofNat (n / 64 % 64 + 128), UInt8.ofNat (n % 64 + 128)] hlead
    (by omega) hof (m := n / 4096 % 64 + 128) (by omega) hlow hhigh htail rest
  rw [List.cons_append, List.singleton_append] at h
  rw [h]
  simp only [extend, List.foldl_cons, List.foldl_nil, List.length_cons, List.length_nil,
    toNat_byte (show n / 4096 % 64 + 128 < 256 by omega),
    toNat_byte (show n / 64 % 64 + 128 < 256 by omega), toNat_byte (show n % 64 + 128 < 256 by omega)]
  have hn : (((n / 262144 % 8 + 240) % (1 <<< (5 - (0 + 1 + 1))) * 64 +
      (n / 4096 % 64 + 128) % 64) * 64 + (n / 64 % 64 + 128) % 64) * 64 + (n % 64 + 128) % 64 = n := by
    show (((n / 262144 % 8 + 240) % 8 * 64 + (n / 4096 % 64 + 128) % 64) * 64 +
      (n / 64 % 64 + 128) % 64) * 64 + (n % 64 + 128) % 64 = n
    omega
  rw [hn]

/-! ## Characters -/

/-- The numbers of characters leave out the surrogates. -/
theorem toNat_bounds (c : Char) : c.toNat < 0xd800 ∨ 0xdfff < c.toNat ∧ c.toNat < 0x110000 := c.valid

/-- The bytes of a character are one piece. -/
theorem firstPiece_encodeChar (c : Char) : ∃ b more, String.utf8EncodeChar c = b :: more ∧
    ∀ rest, firstPiece b (more ++ rest) = (some c, more.length) := by
  have hb := toNat_bounds c
  have hc : Char.ofNat c.toNat = c := Char.ofNat_toNat c
  unfold String.utf8EncodeChar
  have hv : c.val.toNat = c.toNat := rfl
  simp only [hv]
  by_cases h1 : c.toNat ≤ 0x7f
  · refine ⟨_, [], by rw [if_pos h1], fun rest => ?_⟩
    have hlt : UInt8.ofNat c.toNat < 0x80 := by
      rw [UInt8.lt_iff_toNat_lt, toNat_byte (by omega)]
      show c.toNat < 128
      omega
    unfold firstPiece
    rw [if_pos hlt, toNat_byte (by omega), hc]
    rfl
  · rw [if_neg h1]
    by_cases h2 : c.toNat ≤ 0x7ff
    · refine ⟨_, [_], by rw [if_pos h2], fun rest => ?_⟩
      have h := firstPiece_two (n := c.toNat) (by omega) h2 rest
      rw [hc] at h
      exact h
    · rw [if_neg h2]
      by_cases h3 : c.toNat ≤ 0xffff
      · refine ⟨_, [_, _], by rw [if_pos h3], fun rest => ?_⟩
        have h := firstPiece_three (n := c.toNat) (by omega) h3 (by omega) rest
        rw [hc] at h
        exact h
      · refine ⟨_, [_, _, _], by rw [if_neg h3], fun rest => ?_⟩
        have h := firstPiece_four (n := c.toNat) (by omega) (by omega) rest
        rw [hc] at h
        exact h

/-! ## Texts -/

theorem piecesFrom_encode (s : List Char) :
    ∀ done : List (Option Char), piecesFrom done (encode s) = done.reverse ++ s.map some := by
  induction s with
  | nil =>
    intro done
    show piecesFrom done [] = _
    rw [piecesFrom]
    simp
  | cons c rest ih =>
    intro done
    obtain ⟨b, more, henc, hp⟩ := firstPiece_encodeChar c
    have hbytes : encode (c :: rest) = b :: (more ++ encode rest) := by
      show String.utf8EncodeChar c ++ encode rest = _
      rw [henc]
      rfl
    rw [hbytes, piecesFrom, hp, List.drop_left, ih]
    simp

theorem pieces_encode (s : List Char) : pieces (encode s) = s.map some := by
  unfold pieces
  rw [piecesFrom_encode]
  rfl

/-- Encoded text is read back. -/
theorem decode?_encode (s : List Char) : decode? (encode s) = some s := by
  unfold decode?
  rw [pieces_encode]
  simp [Function.comp_def]

theorem decode?_bytesOf (s : String) : decode? (bytesOf s) = some s.toList := decode?_encode s.toList

end CipherCorpus.Text
