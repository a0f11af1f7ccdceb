import CipherCorpus.Json.Decode
import CipherCorpus.Proofs.Json.Layout
import CipherCorpus.Proofs.OrderedMap
import Mathlib.Data.List.Nodup

/-!
# Decoders read what is written

`Reads d depth v` says that the decoder `d` reads the value `v` from its text in any layout, with gaps in
front and anything behind that does not go on with it.  There is one lemma for each kind of decoder; for
records and tables the fields are read one after the other (`readNamed_written`,
`readEntries_written`).  A whole document is read back by `decode_written`:

    Reads d depthLimit v  →  decode d (written g depth v) = v
-/

namespace CipherCorpus.Json

/-- The decoder `d` reads `v` from its text. -/
def Reads (d : Decoder) (depth : Nat) (v : Value) : Prop :=
  ∀ (g : GapLayout) (ind : Nat) (gap : List Char) (rest : Input), Gap gap → Ends rest →
    d depth (Input.ofChars gap ++ (Input.ofChars (written g ind v) ++ rest)) = .ok (v, rest)

/-! ## Tokens -/

theorem next_of_gap {gap : List Char} (hg : Gap gap) {c : Char} (hc : isGap (some c) = false)
    (rest : Input) : next (Input.ofChars gap ++ some c :: rest) = .ok (some c, rest) := by
  have hall : ∀ x ∈ Input.ofChars gap, isGap x = true := by
    intro x hx
    obtain ⟨d, hd, rfl⟩ := List.mem_map.mp hx
    exact hg d hd
  unfold next skipGap
  rw [List.dropWhile_append_of_pos hall, List.dropWhile_cons, hc]
  rfl

theorem next_char {c : Char} (hc : isGap (some c) = false) (rest : Input) :
    next (some c :: rest) = .ok (some c, rest) :=
  next_of_gap Gap.nil hc rest

theorem ends_char {c : Char} (hd : isDigit (some c) = false) (hp : c ≠ '.')
    (he : isExponentMark (some c) = false) (rest : Input) : Ends (some c :: rest) := by
  intro x hx
  obtain rfl := Option.some.inj hx
  exact ⟨hd, fun h => hp (Option.some.inj h), he⟩

theorem ends_nil : Ends [] := fun x hx => by cases hx

/-- A digit is no gap. -/
theorem isGap_of_isDigit {c : Char} (hc : isDigit (some c) = true) : isGap (some c) = false := by
  cases hg : isGap (some c) with
  | false => rfl
  | true =>
    have hc' : c = ' ' ∨ c = '\n' ∨ c = '\t' ∨ c = '\r' := by
      simpa [isGap, or_assoc] using hg
    rcases hc' with rfl | rfl | rfl | rfl
    · exact absurd hc (by decide)
    · exact absurd hc (by decide)
    · exact absurd hc (by decide)
    · exact absurd hc (by decide)

/-- Gaps end a number, and so does what ends it after the gaps. -/
theorem ends_of_gap {gap : List Char} (hg : Gap gap) {rest : Input} (hr : Ends rest) :
    Ends (Input.ofChars gap ++ rest) := by
  cases gap with
  | nil => exact hr
  | cons c gap =>
    intro x hx
    obtain rfl := Option.some.inj hx
    have hc := hg c List.mem_cons_self
    have hc : c = ' ' ∨ c = '\n' ∨ c = '\t' ∨ c = '\r' := by
      simpa [isGap, or_assoc] using hc
    rcases hc with rfl | rfl | rfl | rfl
    · exact ⟨by decide, by decide, by decide⟩
    · exact ⟨by decide, by decide, by decide⟩
    · exact ⟨by decide, by decide, by decide⟩
    · exact ⟨by decide, by decide, by decide⟩

theorem ofChars_textChars (s : String) (rest : Input) : Input.ofChars (textChars s) ++ rest =
    some '"' :: (Input.ofChars (s.toList.flatMap escapeChar) ++ some '"' :: rest) := by
  unfold textChars
  simp [Input.ofChars]

theorem closeWith_of_gap {gap : List Char} (hg : Gap gap) {c : Char} (hc : isGap (some c) = false)
    (rest : Input) : closeWith c (Input.ofChars gap ++ some c :: rest) = .ok rest := by
  unfold closeWith
  rw [next_of_gap hg hc]
  simp [bind, Except.bind, pure, Except.pure]

theorem colon_char (rest : Input) : colon (some ':' :: rest) = .ok rest :=
  closeWith_of_gap Gap.nil (by decide) rest

/-! ## Keys -/

theorem nextKey_first {gap : List Char} (hg : Gap gap) (k : String) (rest : Input) :
    nextKey true (Input.ofChars gap ++ (Input.ofChars (textChars k) ++ rest)) =
      .ok (some (k, rest)) := by
  unfold nextKey
  rw [ofChars_textChars, next_of_gap hg (by decide)]
  have hclose : ¬ (some '"' : Option Char) = some closeBrace := by decide
  simp [bind, Except.bind, hclose, readText_textChars, Except.map]

theorem nextKey_more {gap : List Char} (hg : Gap gap) (k : String) (rest : Input) :
    nextKey false (some ',' :: (Input.ofChars gap ++ (Input.ofChars (textChars k) ++ rest))) =
      .ok (some (k, rest)) := by
  unfold nextKey
  rw [ofChars_textChars, next_char (by decide)]
  have hclose : ¬ (some ',' : Option Char) = some closeBrace := by decide
  simp [bind, Except.bind, hclose, next_of_gap hg (c := '"') (by decide), readText_textChars, Except.map]

theorem nextKey_close {gap : List Char} (hg : Gap gap) (first : Bool) (rest : Input) :
    nextKey first (Input.ofChars gap ++ some closeBrace :: rest) = .ok none := by
  unfold nextKey
  rw [next_of_gap hg (by decide)]
  simp [bind, Except.bind, pure, Except.pure]

/-! ## Values without parts -/

theorem reads_text (depth : Nat) (s : String) : Reads text depth (.text s) := by
  intro g ind gap rest hg _
  unfold text
  rw [written, ofChars_textChars, next_of_gap hg (by decide)]
  simp [bind, Except.bind, readText_textChars, pure, Except.pure]

theorem startsNumber_of_isDigit {c : Char} (hc : isDigit (some c) = true) : startsNumber (some c) = true := by
  unfold startsNumber
  rw [hc, Bool.or_true]

theorem reads_count (depth : Nat) {n : Nat} (hn : n < Text.wordLimit) :
    Reads count depth (.count n) := by
  intro g ind gap rest hg hr
  have hread := readNumber_toDigits hn hr
  rw [written]
  obtain ⟨c, more, hd, hc⟩ := exists_toDigits_eq n
  have hstart := startsNumber_of_isDigit hc
  have hword := toWord?_toDigits hn
  rw [hd] at hread hword ⊢
  rw [ofChars_cons, List.cons_append] at hread
  unfold count
  rw [ofChars_cons, List.cons_append, next_of_gap hg (isGap_of_isDigit hc)]
  simp only [bind, Except.bind, hstart, if_true, hread, hword]
  rfl

/-! ## Fields one after the other -/

/-- What follows a field ends it. -/
theorem ends_fields (g : GapLayout) (ind : Nat) (fields : List (String × Value)) {gap : List Char}
    (hg : Gap gap) (rest : Input) :
    Ends (Input.ofChars (writtenFields g ind fields) ++ (Input.ofChars gap ++ some closeBrace :: rest)) := by
  cases fields with
  | nil =>
    rw [writtenFields, ofChars_nil, List.nil_append]
    exact ends_of_gap hg (ends_char (by decide) (by decide) (by decide) rest)
  | cons f fields =>
    rw [writtenFields]
    exact ends_char (by decide) (by decide) (by decide) _

/-- The text of more fields, cut at the tokens. -/
theorem ofChars_writtenFields (g : GapLayout) (ind : Nat) (k : String) (v : Value)
    (fields : List (String × Value)) (rest : Input) :
    Input.ofChars (writtenFields g ind ((k, v) :: fields)) ++ rest =
      some ',' :: (Input.ofChars (g.line ind) ++ (Input.ofChars (textChars k) ++ some ':' ::
        (Input.ofChars g.colon ++ (Input.ofChars (written g ind v) ++
          (Input.ofChars (writtenFields g ind fields) ++ rest))))) := by
  rw [writtenFields]
  simp [Input.ofChars]

section

variable {d : Decoder} {depth : Nat} {g : GapLayout} {ind : Nat}

theorem readEntries_field {first : Bool} {s more : Input} {k : String} {v : Value} {fuel : Nat}
    (hk : nextKey first s = .ok (some (k, some ':' ::
      (Input.ofChars g.colon ++ (Input.ofChars (written g ind v) ++ more)))))
    (hv : Reads d depth v) (hm : Ends more) {found : List (String × Value)} {rest : Input}
    (hrest : readEntries (d depth) fuel false more = .ok (found, rest)) :
    readEntries (d depth) (fuel + 1) first s = .ok ((k, v) :: found, rest) := by
  have hread := hv g ind g.colon more g.gap_colon hm
  rw [readEntries]
  simp only [bind, Except.bind, hk, colon_char, hread, hrest]
  rfl

theorem readEntries_written {gap : List Char} (hgap : Gap gap) (fields : List (String × Value)) :
    ∀ (fuel : Nat) (rest : Input), (∀ e ∈ fields, Reads d depth e.2) → fields.length < fuel →
      readEntries (d depth) fuel false (Input.ofChars (writtenFields g ind fields) ++
        (Input.ofChars gap ++ some closeBrace :: rest)) = .ok (fields, rest) := by
  induction fields with
  | nil =>
    intro fuel rest _ hf
    obtain ⟨fuel, rfl⟩ : ∃ n, fuel = n + 1 := ⟨fuel - 1, by simp at hf; omega⟩
    rw [writtenFields, ofChars_nil, List.nil_append, readEntries, nextKey_close hgap]
    simp [bind, Except.bind, closeWith_of_gap hgap (c := closeBrace) (by decide), pure, Except.pure]
  | cons f fields ih =>
    intro fuel rest hd hf
    obtain ⟨k, v⟩ := f
    obtain ⟨fuel, rfl⟩ : ∃ n, fuel = n + 1 := ⟨fuel - 1, by simp at hf; omega⟩
    rw [ofChars_writtenFields]
    refine readEntries_field (nextKey_more (g.gap_line ind) k _) (hd _ List.mem_cons_self)
      (ends_fields g ind fields hgap rest) ?_
    refine ih fuel rest (fun e he => hd e (List.mem_cons_of_mem _ he)) ?_
    simp at hf
    omega

end

/-! ## Records and tables -/

/-- The text of a record that is not empty, cut at the tokens. -/
theorem ofChars_written_record (g : GapLayout) (ind : Nat) (k : String) (v : Value)
    (fields : List (String × Value)) (rest : Input) :
    Input.ofChars (written g ind (.record ((k, v) :: fields))) ++ rest =
      some openBrace :: (Input.ofChars (g.line (ind + 1)) ++ (Input.ofChars (textChars k) ++ some ':' ::
        (Input.ofChars g.colon ++ (Input.ofChars (written g (ind + 1) v) ++
          (Input.ofChars (writtenFields g (ind + 1) fields) ++
            (Input.ofChars (g.line ind) ++ some closeBrace :: rest)))))) := by
  rw [written]
  simp [Input.ofChars]

theorem length_le_writtenFields (g : GapLayout) (ind : Nat) (fields : List (String × Value)) :
    fields.length ≤ (writtenFields g ind fields).length := by
  induction fields with
  | nil => exact Nat.zero_le _
  | cons f fields ih =>
    obtain ⟨k, v⟩ := f
    rw [writtenFields]
    simp only [List.cons_append, List.length_cons, List.length_append]
    omega

/-- A table is read when each of its values is and its keys ascend. -/
theorem reads_table {d : Decoder} {depth : Nat} {fields : List (String × Value)}
    (hd : ∀ e ∈ fields, Reads d depth e.2)
    (hk : fields.Pairwise fun a b => KeyOrder.before a.1 b.1 = true) :
    Reads (table d) (depth + 1) (.record fields) := by
  intro g ind gap rest hg hr
  unfold table
  cases fields with
  | nil =>
    have hread : ∀ n, readEntries (d depth) (n + 1) true (some closeBrace :: rest) = .ok ([], rest) := by
      intro n
      have hclose := nextKey_close Gap.nil true rest
      have hend := closeWith_of_gap Gap.nil (c := closeBrace) (by decide) rest
      rw [ofChars_nil, List.nil_append] at hclose hend
      rw [readEntries]
      simp [bind, Except.bind, hclose, hend, pure, Except.pure]
    rw [written, ofChars_cons, ofChars_cons, ofChars_nil, List.cons_append, List.cons_append,
      List.nil_append, next_of_gap hg (by decide)]
    simp only [bind, Except.bind, if_true, descend, hread]
    rfl
  | cons f fields =>
    obtain ⟨k, v⟩ := f
    have hlen := length_le_writtenFields g (ind + 1) fields
    rw [ofChars_written_record, next_of_gap hg (by decide)]
    have hread : ∀ n, fields.length < n → readEntries (d depth) (n + 1) true
        (Input.ofChars (g.line (ind + 1)) ++ (Input.ofChars (textChars k) ++ some ':' ::
        (Input.ofChars g.colon ++ (Input.ofChars (written g (ind + 1) v) ++
          (Input.ofChars (writtenFields g (ind + 1) fields) ++
            (Input.ofChars (g.line ind) ++ some closeBrace :: rest)))))) =
          .ok ((k, v) :: fields, rest) := fun n hn =>
      readEntries_field (nextKey_first (g.gap_line (ind + 1)) k _) (hd _ List.mem_cons_self)
        (ends_fields g (ind + 1) fields (g.gap_line ind) rest)
        (readEntries_written (g.gap_line ind) fields n rest
          (fun e he => hd e (List.mem_cons_of_mem _ he)) hn)
    simp only [bind, Except.bind, if_true, descend]
    rw [hread]
    · show Except.ok (Value.record (OrderedMap.ofList ((k, v) :: fields)).entries, rest) = _
      rw [OrderedMap.entries_ofList hk]
    · simp only [List.length_append, List.length_cons, Input.ofChars, List.length_map]
      omega

/-- The values `vs` are what the fields `fs` read, in their order; a field that need not be there may be
left out. -/
inductive Fits (depth : Nat) : List Field → List (String × Value) → Prop where
  | nil : Fits depth [] []
  | cons {f : Field} {fs : List Field} {v : Value} {vs : List (String × Value)} :
      Reads f.decoder depth v → Fits depth fs vs → Fits depth (f :: fs) ((f.name, v) :: vs)
  | skip {f : Field} {fs : List Field} {vs : List (String × Value)} :
      f.presence ≠ .required → Fits depth fs vs → Fits depth (f :: fs) vs

theorem Fits.field {depth : Nat} {fs : List Field} {vs : List (String × Value)} (h : Fits depth fs vs) :
    ∀ e ∈ vs, ∃ f ∈ fs, f.name = e.1 ∧ Reads f.decoder depth e.2 := by
  induction h with
  | nil =>
    intro e he
    cases he
  | @cons f fs v vs hv _ ih =>
    intro e he
    rcases List.mem_cons.mp he with rfl | he
    · exact ⟨f, List.mem_cons_self, rfl, hv⟩
    · obtain ⟨f', hf', h⟩ := ih e he
      exact ⟨f', List.mem_cons_of_mem _ hf', h⟩
  | @skip f fs vs _ _ ih =>
    intro e he
    obtain ⟨f', hf', h⟩ := ih e he
    exact ⟨f', List.mem_cons_of_mem _ hf', h⟩

theorem Fits.keys_sublist {depth : Nat} {fs : List Field} {vs : List (String × Value)}
    (h : Fits depth fs vs) : (vs.map (·.1)).Sublist (fs.map (·.name)) := by
  induction h with
  | nil => exact List.Sublist.slnil
  | cons _ _ ih => exact ih.cons_cons _
  | skip _ _ ih => exact ih.cons _

theorem beq_eq_false_of_notMem {j k : String} {names : List String} (hj : j ∈ names) (hk : k ∉ names) :
    (j == k) = false := by
  have hne : j ≠ k := by
    rintro rfl
    exact hk hj
  simpa using hne

theorem lookup_none_of_notMem {k : String} {vs : List (String × Value)} (h : k ∉ vs.map (·.1)) :
    vs.lookup k = none :=
  List.lookup_eq_none_iff.mpr fun e he => by
    simpa using fun hk : k = e.1 => h (hk ▸ List.mem_map_of_mem he)

theorem lookup_reverse {k : String} {vs : List (String × Value)} (hn : (vs.map (·.1)).Nodup) :
    vs.reverse.lookup k = vs.lookup k := by
  induction vs with
  | nil => rfl
  | cons e vs ih =>
    obtain ⟨j, v⟩ := e
    obtain ⟨hnew, hn⟩ := List.nodup_cons.mp hn
    rw [List.reverse_cons, List.lookup_append, ih hn, List.lookup_cons, List.lookup_cons]
    by_cases hk : k = j
    · subst hk
      rw [lookup_none_of_notMem hnew]
      simp
    · have hk' : (k == j) = false := by simpa using hk
      simp [hk']

theorem arrange_of_fits {depth : Nat} {fs : List Field} {vs : List (String × Value)}
    (h : Fits depth fs vs) (hn : (fs.map (·.name)).Nodup) {found : List (String × Value)}
    (hl : ∀ f ∈ fs, found.lookup f.name = vs.lookup f.name) : arrange fs found = .ok vs := by
  induction h with
  | nil => rfl
  | @cons f fs v vs _ _ ih =>
    obtain ⟨hnew, hn⟩ := List.nodup_cons.mp hn
    have hf : found.lookup f.name = some v := by
      rw [hl f List.mem_cons_self]
      simp
    have hrest : arrange fs found = .ok vs := by
      refine ih hn fun f' hf' => ?_
      have hne : (f'.name == f.name) = false :=
        beq_eq_false_of_notMem (List.mem_map.mpr ⟨f', hf', rfl⟩) hnew
      rw [hl f' (List.mem_cons_of_mem _ hf'), List.lookup_cons, hne]
    rw [arrange, hf, hrest]
    rfl
  | @skip f fs vs hp hfits ih =>
    obtain ⟨hnew, hn⟩ := List.nodup_cons.mp hn
    have hf : found.lookup f.name = none := by
      rw [hl f List.mem_cons_self]
      exact lookup_none_of_notMem fun hm => hnew (hfits.keys_sublist.subset hm)
    rw [arrange, hf]
    dsimp only
    rw [if_neg hp]
    exact ih hn fun f' hf' => hl f' (List.mem_cons_of_mem _ hf')

theorem find?_field {fs : List Field} (hn : (fs.map (·.name)).Nodup) {f : Field} (hf : f ∈ fs) :
    fs.find? (·.name == f.name) = some f := by
  cases h : fs.find? (·.name == f.name) with
  | none =>
    have := List.find?_eq_none.mp h f hf
    simp at this
  | some f' =>
    have hf' := List.mem_of_find?_eq_some h
    have hname : f'.name = f.name := by simpa using List.find?_some h
    rw [List.inj_on_of_nodup_map hn hf' hf hname]

/-- One known field that has not been seen yet. -/
theorem readNamed_field {fs : List Field} {depth : Nat} {g : GapLayout} {ind fuel : Nat} {first : Bool}
    {s more : Input} {f : Field} {v : Value} (hk : nextKey first s = .ok (some (f.name, some ':' ::
      (Input.ofChars g.colon ++ (Input.ofChars (written g ind v) ++ more)))))
    (hf : fs.find? (·.name == f.name) = some f) (hv : Reads f.decoder depth v) (hm : Ends more)
    {found : List (String × Value)} (hnew : found.lookup f.name = none) :
    readNamed fs depth (fuel + 1) first found s =
      readNamed fs depth fuel false ((f.name, v) :: found) more := by
  have hread := hv g ind g.colon more g.gap_colon hm
  rw [readNamed]
  simp only [bind, Except.bind, hk, hf, hnew, colon_char, hread]
  rfl

theorem readNamed_written {fs : List Field} {depth : Nat} {g : GapLayout} {ind : Nat}
    (hn : (fs.map (·.name)).Nodup) {gap : List Char} (hgap : Gap gap) (vs : List (String × Value)) :
    ∀ (found : List (String × Value)) (fuel : Nat) (rest : Input),
      (∀ e ∈ vs, ∃ f ∈ fs, f.name = e.1 ∧ Reads f.decoder depth e.2) → (vs.map (·.1)).Nodup →
      (∀ e ∈ vs, found.lookup e.1 = none) → vs.length < fuel →
      readNamed fs depth fuel false found (Input.ofChars (writtenFields g ind vs) ++
        (Input.ofChars gap ++ some closeBrace :: rest)) =
          (arrange fs (vs.reverse ++ found)).map (·, rest) := by
  induction vs with
  | nil =>
    intro found fuel rest _ _ _ hf
    obtain ⟨fuel, rfl⟩ : ∃ n, fuel = n + 1 := ⟨fuel - 1, by simp at hf; omega⟩
    rw [writtenFields, ofChars_nil, List.nil_append, readNamed, nextKey_close hgap]
    simp only [bind, Except.bind, closeWith_of_gap hgap (c := closeBrace) (by decide), List.reverse_nil,
      List.nil_append]
    cases arrange fs found with
    | error e => rfl
    | ok a => rfl
  | cons e vs ih =>
    intro found fuel rest hd hkeys hfound hf
    obtain ⟨k, v⟩ := e
    obtain ⟨f, hmem, rfl, hv⟩ := hd _ List.mem_cons_self
    obtain ⟨hnew, hkeys⟩ := List.nodup_cons.mp hkeys
    obtain ⟨fuel, rfl⟩ : ∃ n, fuel = n + 1 := ⟨fuel - 1, by simp at hf; omega⟩
    rw [ofChars_writtenFields, readNamed_field (nextKey_more (g.gap_line ind) f.name _)
      (find?_field hn hmem) hv (ends_fields g ind vs hgap rest) (hfound _ List.mem_cons_self)]
    have hfound' : ∀ e ∈ vs, ((f.name, v) :: found).lookup e.1 = none := by
      intro e he
      have hne : (e.1 == f.name) = false :=
        beq_eq_false_of_notMem (List.mem_map.mpr ⟨e, he, rfl⟩) hnew
      rw [List.lookup_cons, hne]
      exact hfound e (List.mem_cons_of_mem _ he)
    rw [ih _ fuel rest (fun e he => hd e (List.mem_cons_of_mem _ he)) hkeys hfound'
      (by simp at hf; omega)]
    simp

/-- A record is read when its values fit its fields. -/
theorem reads_record {fs : List Field} {depth : Nat} {vs : List (String × Value)}
    (hn : (fs.map (·.name)).Nodup) (h : Fits depth fs vs) :
    Reads (record fs) (depth + 1) (.record vs) := by
  intro g ind gap rest hg hr
  have hkeys : (vs.map (·.1)).Nodup := hn.sublist h.keys_sublist
  have harrange : arrange fs vs.reverse = .ok vs :=
    arrange_of_fits h hn fun f _ => lookup_reverse hkeys
  unfold record
  cases vs with
  | nil =>
    have hread : ∀ n, readNamed fs depth (n + 1) true [] (some closeBrace :: rest) = .ok ([], rest) := by
      intro n
      have hclose := nextKey_close Gap.nil true rest
      have hend := closeWith_of_gap Gap.nil (c := closeBrace) (by decide) rest
      rw [ofChars_nil, List.nil_append] at hclose hend
      rw [List.reverse_nil] at harrange
      rw [readNamed]
      simp [bind, Except.bind, hclose, hend, harrange, pure, Except.pure]
    rw [written, ofChars_cons, ofChars_cons, ofChars_nil, List.cons_append, List.cons_append,
      List.nil_append, next_of_gap hg (by decide)]
    simp only [bind, Except.bind, if_true, descend, hread]
    rfl
  | cons e vs =>
    obtain ⟨k, v⟩ := e
    have hfields := h.field
    obtain ⟨f, hmem, rfl, hv⟩ := hfields _ List.mem_cons_self
    obtain ⟨hnew, hkeys⟩ := List.nodup_cons.mp hkeys
    have hlen := length_le_writtenFields g (ind + 1) vs
    rw [ofChars_written_record, next_of_gap hg (by decide)]
    simp only [bind, Except.bind, if_true, descend]
    rw [readNamed_field (nextKey_first (g.gap_line (ind + 1)) f.name _) (find?_field hn hmem) hv
      (ends_fields g (ind + 1) vs (g.gap_line ind) rest) rfl, readNamed_written hn (g.gap_line ind) vs _ _
      rest (fun e he => hfields e (List.mem_cons_of_mem _ he)) hkeys]
    · rw [List.reverse_cons] at harrange
      rw [harrange]
      rfl
    · intro e he
      have hne : (e.1 == f.name) = false :=
        beq_eq_false_of_notMem (List.mem_map.mpr ⟨e, he, rfl⟩) hnew
      rw [List.lookup_cons, hne]
      rfl
    · simp only [List.length_append, List.length_cons, Input.ofChars, List.length_map]
      omega

/-! ## Documents -/

/-- A written value is read back as a document. -/
theorem decode_written {d : Decoder} {v : Value} (h : Reads d depthLimit v) (g : GapLayout)
    (ind : Nat) : decode d (Input.ofChars (written g ind v)) = .ok v := by
  have hread := h g ind [] [] Gap.nil ends_nil
  rw [ofChars_nil, List.nil_append, List.append_nil] at hread
  unfold decode
  rw [hread]
  rfl

end CipherCorpus.Json
