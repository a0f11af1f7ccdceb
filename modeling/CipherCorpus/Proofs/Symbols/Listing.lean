import CipherCorpus.Proofs.Text.Number
import CipherCorpus.Proofs.Text.Words
import CipherCorpus.Symbols.Listing

/-!
# Reading a symbol listing back

A listing tells functions in rows `Num: Value Size FUNC Bind Vis Ndx Name`, with any blanks between the
words and maybe versions in parentheses behind the name.  Any other lines may stand between the rows
(`Listing`).  Reading it gives back what it tells:

    Listing items text → ofListing text binary = the functions of items,
      each address and name once and in order                              (ofListing_eq_of_listing)

Each line is read by itself (`readRow?_of_isRow`, `readRow?_of_isJunk`), and the rows that came before
are looked up by address and name only (`distinctRows_eq`).
-/

namespace CipherCorpus.Symbols

open Text

/-! ## What a listing tells -/

/-- A function as a listing tells it. -/
structure Listed where
  address : UInt64
  size : UInt64
  name : String

def Listed.toRow (f : Listed) : Row := ⟨f.address.toNat, f.size.toNat, f.name⟩

/-- A size in decimal, or in hexadecimal after `0x`. -/
def IsSize (token : List Char) (n : ℕ) : Prop :=
  Numeral 10 token n ∨ ∃ digits, token = '0' :: 'x' :: digits ∧ Numeral 16 digits n

/-- What is read as a size: digits may have a plus sign in front. -/
def IsSignedSize (token : List Char) (n : ℕ) : Prop :=
  SignedNumeral 10 token n ∨ ∃ digits, token = '0' :: 'x' :: digits ∧ SignedNumeral 16 digits n

/-- The line is the row of a function. -/
def IsRow (f : Listed) (line : List Char) : Prop :=
  ∃ number value size bind visibility place versions,
    Spaced (number :: value :: size :: "FUNC".toList :: bind :: visibility :: place :: f.name.toList :: versions)
      line ∧
    Numeral 16 value f.address.toNat ∧ IsSize size f.size.toNat ∧
    f.name.toList.head? ≠ some '(' ∧ ∀ v ∈ versions, v.head? = some '('

/-- The words are no row of a function. -/
inductive IsJunk (ws : List (List Char)) : Prop where
  | short : ws.length < 8 → IsJunk ws
  | kind : ws[3]? ≠ some "FUNC".toList → IsJunk ws
  | value : (∀ token n, ws[1]? = some token → SignedNumeral 16 token n → UInt64.size ≤ n) → IsJunk ws
  | size : (∀ token n, ws[2]? = some token → IsSignedSize token n → UInt64.size ≤ n) → IsJunk ws
  | nameless : (∀ w ∈ ws.drop 7, w.head? = some '(') → IsJunk ws

/-- The line is the row of a given function, or no row. -/
def IsLine : Option Listed → List Char → Prop
  | some f, line => IsRow f line
  | none, line => ∃ ws, Spaced ws line ∧ IsJunk ws

/-- The lines of a text, each with what it tells; the last one may lack its line feed. -/
inductive Listing : List (Option Listed) → List Char → Prop where
  | nil : Listing [] []
  | last {item : Option Listed} {line : List Char} : '\n' ∉ line → IsLine item line → Listing [item] line
  | line {item : Option Listed} {items : List (Option Listed)} {line text : List Char} : '\n' ∉ line →
      IsLine item line → Listing items text → Listing (item :: items) (line ++ '\n' :: text)

variable {f : Listed} {line : List Char} {ws : List (List Char)} {token : List Char} {n : ℕ}

/-! ## Sizes and names -/

theorem readSize_eq_ok_iff : readSize token = .ok n ↔ n < wordLimit ∧ IsSignedSize token n := by
  unfold readSize IsSignedSize
  split
  · next digits =>
    rw [readNat_eq_ok_iff (by decide) (by decide)]
    refine and_congr_right fun _ => ⟨fun hn => Or.inr ⟨digits, rfl, hn⟩, ?_⟩
    rintro (⟨other, rfl | he, ds, -, hall, -⟩ | ⟨other, he, hn⟩)
    · -- the letter after the zero is no decimal digit
      obtain ⟨-, rest, -, hrest, -⟩ := List.forall₂_cons_left_iff.mp hall
      obtain ⟨d, -, hx, -, -⟩ := List.forall₂_cons_left_iff.mp hrest
      cases (digitValue?_eq_some_iff (by decide)).mpr hx
    · cases he
    · cases he
      exact hn
  · next hplain =>
    rw [readNat_eq_ok_iff (by decide) (by decide)]
    refine and_congr_right fun _ => ⟨Or.inl, ?_⟩
    rintro (hn | ⟨digits, rfl, -⟩)
    · exact hn
    · exact absurd rfl (hplain digits)

theorem IsSize.signed (h : IsSize token n) : IsSignedSize token n :=
  h.imp (fun hn => ⟨token, Or.inl rfl, hn⟩) fun ⟨digits, he, hn⟩ => ⟨digits, he, digits, Or.inl rfl, hn⟩

theorem nameOf?_eq_none_iff : nameOf? ws = none ↔ ∀ w ∈ ws, w.head? = some '(' := by
  simp [nameOf?]

/-- The name in front of the versions. -/
theorem nameOf?_cons {name : List Char} {versions : List (List Char)} (hname : name.head? ≠ some '(')
    (hversions : ∀ v ∈ versions, v.head? = some '(') : nameOf? (name :: versions) = some name := by
  have hnone : versions.reverse.find? (·.head? != some '(') = none := nameOf?_eq_none_iff.mpr hversions
  unfold nameOf?
  rw [List.reverse_cons, List.find?_append, hnone, Option.none_or, List.find?_singleton, if_pos (by simpa using hname)]

/-! ## Lines -/

/-- The row of a function is read as that function. -/
theorem readRow?_of_isRow (h : IsRow f line) : readRow? line = some f.toRow := by
  obtain ⟨number, value, size, bind, visibility, place, versions, hline, hvalue, hsize, hname, hversions⟩ := h
  have haddress : readNat 16 value = .ok f.address.toNat :=
    (readNat_eq_ok_iff (by decide) (by decide)).mpr ⟨f.address.toNat_lt_size, value, Or.inl rfl, hvalue⟩
  have hsize : readSize size = .ok f.size.toNat := readSize_eq_ok_iff.mpr ⟨f.size.toNat_lt_size, hsize.signed⟩
  unfold readRow?
  rw [words_of_spaced hline]
  dsimp only
  rw [if_neg (by simp), haddress, hsize, nameOf?_cons hname hversions]
  simp [Listed.toRow]

/-- A line of other words is no row. -/
theorem readRow?_of_isJunk (hline : Spaced ws line) (h : IsJunk ws) : readRow? line = none := by
  unfold readRow?
  rw [words_of_spaced hline]
  split
  · next number value size kind bind visibility place name more =>
    split
    · rfl
    · next hkind =>
      split
      · next address bytes name hvalue hsize hname =>
        obtain ⟨hlimit, hvalue⟩ := (readNat_eq_ok_iff (by decide) (by decide)).mp hvalue
        obtain ⟨hlimit', hsize⟩ := readSize_eq_ok_iff.mp hsize
        exfalso
        cases h with
        | short hlen =>
          simp only [List.length_cons] at hlen
          omega
        | kind hne => exact hkind fun he => hne (by rw [he]; rfl)
        | value hlarge => exact absurd hlimit (Nat.not_lt.mpr (hlarge value address rfl hvalue))
        | size hlarge => exact absurd hlimit' (Nat.not_lt.mpr (hlarge size bytes rfl hsize))
        | nameless hall => cases hname.symm.trans (nameOf?_eq_none_iff.mpr hall)
      · rfl
  · rfl

theorem readRow?_of_isLine {item : Option Listed} (h : IsLine item line) :
    readRow? line = item.map Listed.toRow := by
  cases item with
  | some f => exact readRow?_of_isRow h
  | none =>
    obtain ⟨ws, hline, hjunk⟩ := h
    exact readRow?_of_isJunk hline hjunk

/-- The rows of a listing are those of the functions that it tells. -/
theorem filterMap_lines {items : List (Option Listed)} {text : List Char} (h : Listing items text) :
    (lines text).filterMap readRow? = (items.filterMap id).map Listed.toRow := by
  induction h with
  | nil => rfl
  | @last item line hfeed hline =>
    have hrow := readRow?_of_isLine hline
    rw [lines_of_notMem hfeed]
    split
    · next hnil =>
      rw [hnil] at hrow
      cases item with
      | none => rfl
      | some f => cases hrow
    · rw [List.filterMap_cons, hrow]
      cases item <;> rfl
  | @line item items line text hfeed hline _ ih =>
    obtain ⟨kept, hlines, hwords⟩ := lines_append_feed hfeed text
    have hkept : readRow? kept = item.map Listed.toRow := by
      rw [← readRow?_of_isLine hline, readRow?, readRow?, hwords]
    rw [hlines, List.filterMap_cons, hkept, ih]
    cases item <;> rfl

/-! ## Repeated rows -/

/-- Rows are taken once for each address and name. -/
theorem distinctRows_eq (rows : List Row) : distinctRows rows =
    rows.eraseDupsBy fun r s => s.address == r.address && s.name == r.name := by
  have hfrom : ∀ (rows kept : List Row), rows.foldl (fun kept r =>
      if kept.any (fun k => k.address == r.address && k.name == r.name) then kept else kept ++ [r]) kept =
      kept ++ (rows.filter fun r => !kept.any fun k => k.address == r.address && k.name == r.name).eraseDupsBy
        fun r s => s.address == r.address && s.name == r.name := by
    intro rows
    induction rows with
    | nil => simp
    | cons r rows ih =>
      intro kept
      rw [List.foldl_cons, ih]
      by_cases hr : (kept.any fun k => k.address == r.address && k.name == r.name) = true
      · rw [if_pos hr, List.filter_cons_of_neg (by rw [hr]; simp)]
      · rw [if_neg hr, List.filter_cons_of_pos (by simpa using hr), List.eraseDupsBy_cons, List.append_assoc,
          List.filter_filter]
        refine congrArg (fun l => kept ++ r :: List.eraseDupsBy _ l) (List.filter_congr fun s _ => ?_)
        rw [List.any_append, Bool.not_or, Bool.and_comm, List.any_cons, List.any_nil, Bool.or_false,
          Bool.decide_eq_false]
  have h := hfrom rows []
  simpa [distinctRows] using h

/-- Repetitions can be dropped before or after what is compared is converted. -/
theorem eraseDupsBy_map {α β : Type} (g : α → β) (r : β → β → Bool) : ∀ l : List α,
    (l.map g).eraseDupsBy r = (l.eraseDupsBy fun a b => r (g a) (g b)).map g
  | [] => rfl
  | a :: l => by
    rw [List.map_cons, List.eraseDupsBy_cons, List.eraseDupsBy_cons, List.map_cons, List.filter_map,
      eraseDupsBy_map g r (l.filter _)]
    rfl
termination_by l => l.length
decreasing_by exact Nat.lt_succ_of_le (List.length_filter_le _ _)

theorem eraseDupsBy_sublist {α : Type} (r : α → α → Bool) : ∀ l : List α, (l.eraseDupsBy r).Sublist l
  | [] => List.Sublist.refl _
  | a :: l => by
    rw [List.eraseDupsBy_cons]
    exact ((eraseDupsBy_sublist r (l.filter _)).trans List.filter_sublist).cons_cons a
termination_by l => l.length
decreasing_by exact Nat.lt_succ_of_le (List.length_filter_le _ _)

/-- Nothing is left that repeats what stands before it. -/
theorem pairwise_eraseDupsBy {α : Type} (r : α → α → Bool) : ∀ l : List α,
    (l.eraseDupsBy r).Pairwise fun a b => r b a = false
  | [] => List.Pairwise.nil
  | a :: l => by
    rw [List.eraseDupsBy_cons]
    refine List.Pairwise.cons (fun b hb => ?_) (pairwise_eraseDupsBy r (l.filter _))
    simpa using (List.mem_filter.mp ((eraseDupsBy_sublist r _).subset hb)).2
termination_by l => l.length
decreasing_by exact Nat.lt_succ_of_le (List.length_filter_le _ _)

theorem address_lt_of_readRow? {r : Row} (h : readRow? line = some r) : r.address < wordLimit := by
  unfold readRow? at h
  split at h
  · split at h
    · cases h
    · split at h
      · next hvalue _ _ =>
        cases h
        exact ((readNat_eq_ok_iff (by decide) (by decide)).mp hvalue).1
      · cases h
  · cases h

/-- No address and name is read twice from a listing. -/
theorem nodup_ofListing (text : List Char) (binary : Path) :
    ((ofListing text binary).map fun f => (f.address, f.name)).Nodup := by
  unfold ofListing
  rw [distinctRows_eq, List.map_map, List.Nodup, List.pairwise_map]
  refine (pairwise_eraseDupsBy _ _).imp_of_mem fun {r s} hr hs hne he => ?_
  have haddress : ∀ {r : Row}, r ∈ ((lines text).filterMap readRow?).eraseDupsBy
      (fun r s => s.address == r.address && s.name == r.name) → r.address < wordLimit := by
    intro r hr
    obtain ⟨line, -, hrow⟩ := List.mem_filterMap.mp ((eraseDupsBy_sublist _ _).subset hr)
    exact address_lt_of_readRow? hrow
  obtain ⟨hvalue, hname⟩ := Prod.mk.inj he
  have hsame : r.address = s.address := by
    rw [← UInt64.toNat_ofNat_of_lt' (haddress hr), ← UInt64.toNat_ofNat_of_lt' (haddress hs)]
    exact congrArg UInt64.toNat hvalue
  rw [hsame, show r.name = s.name from hname] at hne
  simp at hne

/-! ## Main result -/

/-- **A listing is read as the functions that it tells.** -/
theorem ofListing_eq_of_listing {items : List (Option Listed)} {text : List Char} (h : Listing items text)
    (binary : Path) : ofListing text binary =
      ((items.filterMap id).eraseDupsBy fun f g => f.address == g.address && f.name == g.name).map fun f =>
        ⟨binary, f.address, some f.size, f.name, .symbol⟩ := by
  unfold ofListing
  have hsame : (fun f g : Listed => g.toRow.address == f.toRow.address && g.toRow.name == f.toRow.name) =
      fun f g => f.address == g.address && f.name == g.name := by
    funext f g
    rw [Bool.eq_iff_iff]
    simp only [Bool.and_eq_true, beq_iff_eq, Listed.toRow, UInt64.toNat_inj]
    exact and_congr eq_comm eq_comm
  rw [filterMap_lines h, distinctRows_eq, eraseDupsBy_map, hsame, List.map_map]
  refine List.map_congr_left fun f _ => ?_
  simp [Row.toFunction, Listed.toRow]

/-- A heading, a row with a version, a row without a readable address, and the first one's address and
name again, in other digits and with another size. -/
theorem ofListing_of_four_lines :
    Listing [none, some ⟨10, 16, "f@V"⟩, none, some ⟨10, 32, "f@V"⟩]
      ("Num: Value".toList ++ '\n' :: ("  1: 000A  16 FUNC GLOBAL DEFAULT 1 f@V (3)\r".toList ++ '\n' ::
        ("2: zz 8 FUNC GLOBAL DEFAULT 1 g".toList ++ '\n' :: "3: a 0x20\tFUNC LOCAL HIDDEN 1 f@V".toList))) ∧
    ofListing
      ("Num: Value".toList ++ '\n' :: ("  1: 000A  16 FUNC GLOBAL DEFAULT 1 f@V (3)\r".toList ++ '\n' ::
        ("2: zz 8 FUNC GLOBAL DEFAULT 1 g".toList ++ '\n' :: "3: a 0x20\tFUNC LOCAL HIDDEN 1 f@V".toList))) ⟨"b"⟩ =
      [⟨⟨"b"⟩, 10, some 16, "f@V", .symbol⟩] := by
  have hnumeral : ∀ {base n : ℕ} {token : List Char}, 0 < base → base ≤ 16 → token ≠ [] →
      readDigits base 0 token = .ok n → Numeral base token n := fun hpos hbase hne h =>
    ((readDigits_zero_eq_ok_iff hpos hbase hne).mp h).2
  have hlisting : Listing [none, some ⟨10, 16, "f@V"⟩, none, some ⟨10, 32, "f@V"⟩]
      ("Num: Value".toList ++ '\n' :: ("  1: 000A  16 FUNC GLOBAL DEFAULT 1 f@V (3)\r".toList ++ '\n' ::
        ("2: zz 8 FUNC GLOBAL DEFAULT 1 g".toList ++ '\n' :: "3: a 0x20\tFUNC LOCAL HIDDEN 1 f@V".toList))) := by
    refine .line (by decide) ⟨_, spaced_words _, .short (by decide)⟩ (.line (by decide) ?_ (.line (by decide)
      ⟨_, spaced_words _, .value ?_⟩ (.last (by decide) ?_)))
    · exact ⟨"1:".toList, "000A".toList, "16".toList, "GLOBAL".toList, "DEFAULT".toList, "1".toList, ["(3)".toList],
        words_eq_iff.mp (by decide), hnumeral (by decide) (by decide) (by decide) (by decide),
        Or.inl (hnumeral (by decide) (by decide) (by decide) (by decide)), by decide, by decide⟩
    · intro token n htoken hn
      by_contra hlt
      have hread := (readNat_eq_ok_iff (by decide) (by decide)).mpr ⟨Nat.lt_of_not_le hlt, hn⟩
      obtain rfl : "zz".toList = token := Option.some.inj (htoken ▸ (by decide :
        (words "2: zz 8 FUNC GLOBAL DEFAULT 1 g".toList)[1]? = some "zz".toList)).symm
      cases hread
    · exact ⟨"3:".toList, "a".toList, "0x20".toList, "LOCAL".toList, "HIDDEN".toList, "1".toList, [],
        words_eq_iff.mp (by decide), hnumeral (by decide) (by decide) (by decide) (by decide),
        Or.inr ⟨"20".toList, rfl, hnumeral (by decide) (by decide) (by decide) (by decide)⟩, by decide, by decide⟩
  exact ⟨hlisting, (ofListing_eq_of_listing hlisting ⟨"b"⟩).trans (by decide)⟩

end CipherCorpus.Symbols
