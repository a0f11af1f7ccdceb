import CipherCorpus.Json.Scan

/-!
# Written texts and numbers are read back

A text between quotes is read as the text, whatever characters it holds (`readText_textChars`), and the
digits of a number below 2⁶⁴ are read as the number (`readNumber_toDigits`), as long as nothing follows
that would go on with the number (`Ends`).
-/

namespace CipherCorpus.Json

open Text

@[simp] theorem ofChars_nil : Input.ofChars [] = [] := rfl

@[simp] theorem ofChars_cons (c : Char) (s : List Char) :
    Input.ofChars (c :: s) = some c :: Input.ofChars s := rfl

@[simp] theorem ofChars_append (s t : List Char) :
    Input.ofChars (s ++ t) = Input.ofChars s ++ Input.ofChars t := List.map_append

/-! ## Texts -/

theorem digitValue?_hexDigit : ∀ n < 16, digitValue? 16 (hexDigit n) = some n := by
  decide +kernel

theorem utf8Size_hexDigit : ∀ n < 16, (hexDigit n).utf8Size = 1 := by
  decide +kernel

/-- Four digits of a number below 256. -/
theorem readHex4_byte {n : Nat} (h : n < 256) (rest : Input) :
    readHex4 (some '0' :: some '0' :: some (hexDigit (n / 16)) :: some (hexDigit (n % 16)) :: rest) =
      .ok n := by
  have hh := digitValue?_hexDigit (n / 16) (by omega)
  have hl := digitValue?_hexDigit (n % 16) (by omega)
  have h0 : digitValue? 16 '0' = some 0 := by decide
  have hsh := utf8Size_hexDigit (n / 16) (by omega)
  have hsl := utf8Size_hexDigit (n % 16) (by omega)
  have hs0 : ('0' : Char).utf8Size = 1 := by decide
  have hn : ((0 * 16 + 0) * 16 + n / 16) * 16 + n % 16 = n := by omega
  unfold readHex4
  simp [byteCount, hh, hl, h0, hsh, hsl, hs0]
  omega

theorem readEscape_control {n : Nat} (h : n < 32) (rest : Input) :
    readEscape (some 'u' :: some '0' :: some '0' :: some (hexDigit (n / 16)) ::
      some (hexDigit (n % 16)) :: rest) = .ok (Char.ofNat n, 5) := by
  have hlow : isLowSurrogate n = false := by
    unfold isLowSurrogate
    rw [Bool.and_eq_false_iff]
    left
    rw [decide_eq_false_iff_not]
    omega
  have hhigh : isHighSurrogate n = false := by
    unfold isHighSurrogate
    rw [Bool.and_eq_false_iff]
    left
    rw [decide_eq_false_iff_not]
    omega
  unfold readEscape
  dsimp only
  rw [if_pos rfl, readHex4_byte (by omega)]
  simp [bind, Except.bind, hlow, hhigh, pure, Except.pure]

/-- One more character in front of the pieces that are read. -/
def consPiece (c : Char) (r : Except Fault (List (Option Char) × Input)) :
    Except Fault (List (Option Char) × Input) :=
  r.map fun p => (some c :: p.1, p.2)

theorem readPieces_escape {s : Input} {c : Char} {used : Nat} (h : readEscape s = .ok (c, used)) :
    readPieces (some '\\' :: s) = consPiece c (readPieces (s.drop used)) := by
  rw [readPieces, if_neg (by decide), if_pos rfl, h]
  dsimp only
  cases readPieces (s.drop used) with
  | error f => rfl
  | ok p => rfl

theorem readPieces_plain {c : Char} (hq : c ≠ '"') (hb : c ≠ '\\') (hc : ¬ c.toNat < 32) (s : Input) :
    readPieces (some c :: s) = consPiece c (readPieces s) := by
  have hq' : ¬ (some c = some '"') := fun h => hq (Option.some.inj h)
  have hb' : ¬ (some c = some '\\') := fun h => hb (Option.some.inj h)
  rw [readPieces, if_neg hq', if_neg hb', if_neg (by simpa using hc)]
  cases readPieces s with
  | error f => rfl
  | ok p => rfl

theorem readPieces_short {c e : Char} (h : shortEscape? (some e) = some c) (hu : e ≠ 'u') (s : Input) :
    readPieces (some '\\' :: some e :: s) = consPiece c (readPieces s) := by
  have hr : readEscape (some e :: s) = .ok (c, 1) := by
    unfold readEscape
    dsimp only
    rw [if_neg fun he => hu (Option.some.inj he), h]
  exact readPieces_escape hr

/-- A written character is read back, whatever way it is written. -/
theorem readPieces_escapeChar (c : Char) (s : Input) :
    readPieces (Input.ofChars (escapeChar c) ++ s) = consPiece c (readPieces s) := by
  have hof : ∀ n, c.toNat = n → Char.ofNat n = c := by
    rintro n rfl
    exact Char.ofNat_toNat c
  unfold escapeChar
  dsimp only
  by_cases hq : c = '"'
  · rw [if_pos hq]
    subst hq
    exact readPieces_short (by decide) (by decide) s
  rw [if_neg hq]
  by_cases hb : c = '\\'
  · rw [if_pos hb]
    subst hb
    exact readPieces_short (by decide) (by decide) s
  rw [if_neg hb]
  by_cases h8 : c.toNat = 8
  · rw [if_pos h8, ← hof 8 h8]
    exact readPieces_short (by decide) (by decide) s
  rw [if_neg h8]
  by_cases h9 : c.toNat = 9
  · rw [if_pos h9, ← hof 9 h9]
    exact readPieces_short (by decide) (by decide) s
  rw [if_neg h9]
  by_cases h10 : c.toNat = 10
  · rw [if_pos h10, ← hof 10 h10]
    exact readPieces_short (by decide) (by decide) s
  rw [if_neg h10]
  by_cases h12 : c.toNat = 12
  · rw [if_pos h12, ← hof 12 h12]
    exact readPieces_short (by decide) (by decide) s
  rw [if_neg h12]
  by_cases h13 : c.toNat = 13
  · rw [if_pos h13, ← hof 13 h13]
    exact readPieces_short (by decide) (by decide) s
  rw [if_neg h13]
  by_cases hc : c.toNat < 32
  · rw [if_pos hc]
    have h := readEscape_control hc s
    rw [Char.ofNat_toNat] at h
    exact readPieces_escape h
  · rw [if_neg hc]
    exact readPieces_plain hq hb hc s

theorem readPieces_text (s : List Char) (rest : Input) :
    readPieces (Input.ofChars (s.flatMap escapeChar) ++ some '"' :: rest) =
      .ok (s.map some, rest) := by
  induction s with
  | nil =>
    show readPieces (some '"' :: rest) = _
    rw [readPieces, if_pos rfl]
    rfl
  | cons c s ih =>
    rw [List.flatMap_cons, ofChars_append, List.append_assoc, readPieces_escapeChar, ih]
    rfl

theorem mapM_id_map_some (s : List Char) : (s.map some).mapM id = some s := by
  induction s with
  | nil => rfl
  | cons c s ih =>
    rw [List.map_cons, List.mapM_cons, ih]
    rfl

/-- A written text is read back, from after its opening quote. -/
theorem readText_textChars (s : String) (rest : Input) :
    readText (Input.ofChars (s.toList.flatMap escapeChar) ++ some '"' :: rest) = .ok (s, rest) := by
  unfold readText
  rw [readPieces_text]
  dsimp only [bind, Except.bind]
  rw [mapM_id_map_some]
  dsimp only
  rw [String.ofList_toList]
  rfl

/-! ## Numbers -/

/-- Nothing comes next that goes on with a number. -/
def Ends (rest : Input) : Prop :=
  ∀ x ∈ rest.head?, isDigit x = false ∧ x ≠ some '.' ∧ isExponentMark x = false

theorem isDigit_of_mem_toDigits {n : Nat} {c : Char} (h : c ∈ Nat.toDigits 10 n) :
    isDigit (some c) = true := by
  have hd := Char.isDigit_iff_toNat.mp (Nat.isDigit_of_mem_toDigits (by decide) (by decide) h)
  show (decide ('0' ≤ c) && decide (c ≤ '9')) = true
  rw [Bool.and_eq_true, decide_eq_true_eq, decide_eq_true_eq]
  exact hd

/-- The first digit of a number. -/
theorem exists_toDigits_eq (n : Nat) : ∃ c more, Nat.toDigits 10 n = c :: more ∧ isDigit (some c) = true := by
  obtain ⟨c, more, hd⟩ := List.exists_cons_of_ne_nil (Nat.toDigits_ne_nil : Nat.toDigits 10 n ≠ [])
  exact ⟨c, more, hd, isDigit_of_mem_toDigits (hd ▸ List.mem_cons_self)⟩

theorem ne_of_isDigit {c x : Char} (hc : isDigit (some c) = true) (hx : isDigit (some x) = false) : c ≠ x := by
  rintro rfl
  rw [hc] at hx
  cases hx

theorem natOfDigits_map (s : List Char) : ∀ n : Nat,
    (s.map fun c => c.toNat - 48).foldl (fun n d => n * 10 + d) n = Nat.ofDigitChars 10 s n := by
  induction s with
  | nil =>
    intro n
    exact Nat.ofDigitChars_nil.symm
  | cons c s ih =>
    intro n
    rw [List.map_cons, List.foldl_cons, ih, Nat.ofDigitChars_cons, Nat.mul_comm]
    rfl

theorem natOfDigits_toDigits (n : Nat) :
    natOfDigits ((Nat.toDigits 10 n).map fun c => c.toNat - 48) = n := by
  unfold natOfDigits
  rw [natOfDigits_map, Nat.ofDigitChars_ten_toDigits]

theorem cutDigits_append {s : List Char} (hs : ∀ c ∈ s, isDigit (some c) = true) {rest : Input}
    (hr : Ends rest) :
    cutDigits (Input.ofChars s ++ rest) = (s.map fun c => c.toNat - 48, rest) := by
  have hall : ∀ x ∈ Input.ofChars s, isDigit x = true := by
    intro x hx
    obtain ⟨c, hc, rfl⟩ := List.mem_map.mp hx
    exact hs c hc
  have hstop : rest.takeWhile isDigit = [] ∧ rest.dropWhile isDigit = rest := by
    cases rest with
    | nil => exact ⟨rfl, rfl⟩
    | cons x rest =>
      have hx := (hr x rfl).1
      exact ⟨by rw [List.takeWhile_cons, hx]; rfl, by rw [List.dropWhile_cons, hx]; rfl⟩
  unfold cutDigits
  rw [List.takeWhile_append_of_pos hall, List.dropWhile_append_of_pos hall, hstop.1, hstop.2,
    List.append_nil]
  simp [Input.ofChars, List.filterMap_map, Function.comp_def]

theorem digitChar_ne_zero : ∀ n < 10, 0 < n → Nat.digitChar n ≠ '0' := by
  decide

/-- Only the number zero begins with a zero. -/
theorem toDigits_head {n : Nat} (hn : 0 < n) :
    ∃ c more, Nat.toDigits 10 n = c :: more ∧ c ≠ '0' := by
  induction n using Nat.strongRecOn with
  | ind n ih =>
    rw [Nat.toDigits_eq_if (by decide)]
    by_cases h : n < 10
    · rw [if_pos h]
      exact ⟨_, [], rfl, digitChar_ne_zero n h hn⟩
    · rw [if_neg h]
      obtain ⟨c, more, hm, hc⟩ := ih (n / 10) (by omega) (by omega)
      exact ⟨c, more ++ [Nat.digitChar (n % 10)], by rw [hm, List.cons_append], hc⟩

theorem readWhole_toDigits (n : Nat) {rest : Input} (hr : Ends rest) :
    readWhole (Input.ofChars (Nat.toDigits 10 n) ++ rest) =
      .ok ((Nat.toDigits 10 n).map fun c => c.toNat - 48, rest) := by
  unfold readWhole
  by_cases hn : 0 < n
  · obtain ⟨c, more, hm, hc⟩ := toDigits_head hn
    have hcut := cutDigits_append (fun c hc => isDigit_of_mem_toDigits (n := n) hc) hr
    have hd : isDigit (some c) = true :=
      isDigit_of_mem_toDigits (n := n) (hm ▸ List.mem_cons_self)
    rw [hm] at hcut ⊢
    rw [ofChars_cons, List.cons_append] at hcut ⊢
    dsimp only
    rw [if_neg fun h => hc (Option.some.inj h), if_pos hd, hcut]
  · have hn : n = 0 := by omega
    subst hn
    have hd : rest.head?.any isDigit = false := by
      cases rest with
      | nil => rfl
      | cons x rest => exact (hr x rfl).1
    show (if (some '0' : Option Char) = some '0' then
      if rest.head?.any isDigit then Except.error Fault.malformed else .ok ([0], rest)
      else _) = _
    rw [if_pos rfl, hd]
    rfl

/-- The digits of a 64-bit number are read back. -/
theorem readNumber_toDigits {n : Nat} (hn : n < Text.wordLimit) {rest : Input} (hr : Ends rest) :
    readNumber (Input.ofChars (Nat.toDigits 10 n) ++ rest) =
      .ok (⟨false, (Nat.toDigits 10 n).map fun c => c.toNat - 48, [], false, 0⟩, rest) := by
  have hsign : ((Input.ofChars (Nat.toDigits 10 n) ++ rest).head? == some (some '-')) = false := by
    obtain ⟨c, more, hd, hc⟩ := exists_toDigits_eq n
    have hne : c ≠ '-' := ne_of_isDigit hc (by decide)
    rw [hd]
    simpa using hne
  have hfraction : readFraction rest = .ok (none, rest) := by
    unfold readFraction
    split
    · exact absurd rfl (hr _ rfl).2.1
    · rfl
  have hexponent : rest.head?.any isExponentMark = false := by
    cases rest with
    | nil => rfl
    | cons x rest => exact (hr x rfl).2.2
  have hnumeral : readNumeral (Input.ofChars (Nat.toDigits 10 n) ++ rest) =
      .ok (⟨false, (Nat.toDigits 10 n).map fun c => c.toNat - 48, [], false, 0⟩, rest) := by
    unfold readNumeral
    simp only [hsign, Bool.false_eq_true, if_false, readWhole_toDigits n hr, bind, Except.bind,
      hfraction, hexponent]
    rfl
  unfold readNumber
  rw [hnumeral]
  have hfits : ¬ Text.wordLimit ≤ n := by omega
  simp [bind, Except.bind, natOfDigits_toDigits, hfits, pure, Except.pure]

theorem toWord?_toDigits {n : Nat} (hn : n < Text.wordLimit) :
    (⟨false, (Nat.toDigits 10 n).map fun c => c.toNat - 48, [], false, 0⟩ : Numeral).toWord? =
      some n := by
  have hfits : ¬ Text.wordLimit ≤ n := by omega
  simp [Numeral.toWord?, natOfDigits_toDigits, hfits]

end CipherCorpus.Json
