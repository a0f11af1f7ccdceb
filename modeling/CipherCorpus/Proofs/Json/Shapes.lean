import CipherCorpus.Proofs.Json.Decode

/-!
# Nulls, lists, words and flattened records are read

The lemmas `reads_…` for the decoders that are put together from others: a value or null, a list, a pair, a
word of a fixed choice and a record that holds the fields of another.  A flattened record is read in two
passes.  The first keeps the place of every value that it passes over (`Passes`), the second reads the known
fields from their places, as they would be read from a record of their own:

    readMixed = (places of the fields, value of the kept field)         (readMixed_written)
    readSaved (places of the fields) = arrange fields values            (readSaved_places)
-/

namespace CipherCorpus.Json

/-! ## How a value begins -/

/-- No value begins with a gap or a closing bracket, and only null with its first letter. -/
theorem written_head (g : GapLayout) (ind : Nat) (v : Value) : ∃ c more, written g ind v = c :: more ∧
    isGap (some c) = false ∧ c ≠ ']' ∧ (v ≠ .null → c ≠ 'n') := by
  cases v with
  | null => exact ⟨'n', "ull".toList, by rw [written]; rfl, by decide, by decide, fun h => absurd rfl h⟩
  | truth b =>
    rw [written]
    cases b with
    | true => exact ⟨'t', "rue".toList, rfl, by decide, by decide, fun _ => by decide⟩
    | false => exact ⟨'f', "alse".toList, rfl, by decide, by decide, fun _ => by decide⟩
  | count n =>
    obtain ⟨c, more, hd, hc⟩ := exists_toDigits_eq n
    rw [written, hd]
    exact ⟨c, more, rfl, isGap_of_isDigit hc, ne_of_isDigit hc (by decide), fun _ => ne_of_isDigit hc (by decide)⟩
  | text s => exact ⟨'"', _, by rw [written]; rfl, by decide, by decide, fun _ => by decide⟩
  | list items =>
    cases items with
    | nil => exact ⟨'[', _, by rw [written], by decide, by decide, fun _ => by decide⟩
    | cons v rest => exact ⟨'[', _, by rw [written]; rfl, by decide, by decide, fun _ => by decide⟩
  | record fields =>
    cases fields with
    | nil => exact ⟨openBrace, _, by rw [written], by decide, by decide, fun _ => by decide⟩
    | cons f rest => exact ⟨openBrace, _, by rw [written]; rfl, by decide, by decide, fun _ => by decide⟩

theorem readWord_self (word : List Char) (rest : Input) :
    readWord word (Input.ofChars word ++ rest) = .ok rest := by
  induction word with
  | nil => rfl
  | cons c word ih =>
    rw [ofChars_cons, List.cons_append, readWord, if_pos rfl]
    exact ih

/-! ## Truth values, words and nulls -/

theorem reads_truth (depth : Nat) (b : Bool) : Reads truth depth (.truth b) := by
  intro g ind gap rest hg _
  rw [written]
  unfold truth
  cases b with
  | true =>
    show (next (Input.ofChars gap ++ some 't' :: (Input.ofChars "rue".toList ++ rest)) >>= _) = _
    rw [next_of_gap hg (by decide)]
    simp only [bind, Except.bind, if_true, readWord_self]
    rfl
  | false =>
    have hne : ¬ (some 'f' : Option Char) = some 't' := by decide
    show (next (Input.ofChars gap ++ some 'f' :: (Input.ofChars "alse".toList ++ rest)) >>= _) = _
    rw [next_of_gap hg (by decide)]
    simp only [bind, Except.bind, hne, if_false, if_true, readWord_self]
    rfl

/-- A word of a choice is read whatever a word written as a key would hold. -/
theorem reads_oneOfWith {content : Input → Except Fault Input} {names : List String} (depth : Nat) {s : String}
    (hs : s ∈ names) : Reads (oneOfWith content names) depth (.text s) := by
  intro g ind gap rest hg _
  have hopen : ¬ (some '"' : Option Char) = some openBrace := by decide
  unfold oneOfWith
  rw [written, ofChars_textChars, next_of_gap hg (by decide)]
  simp [bind, Except.bind, hopen, readText_textChars, hs, pure, Except.pure]

theorem reads_null (d : Decoder) (depth : Nat) : Reads (nullable d) depth .null := by
  intro g ind gap rest hg _
  rw [written]
  show nullable d depth (Input.ofChars gap ++ some 'n' :: (Input.ofChars "ull".toList ++ rest)) = _
  unfold nullable
  rw [next_of_gap hg (by decide)]
  simp only [bind, Except.bind, if_true, readWord_self]
  rfl

theorem reads_nullable {d : Decoder} {depth : Nat} {v : Value} (h : Reads d depth v) (hv : v ≠ .null) :
    Reads (nullable d) depth v := by
  intro g ind gap rest hg hr
  have hread := h g ind gap rest hg hr
  obtain ⟨c, more, he, hgap, -, hn⟩ := written_head g ind v
  have hc : ¬ (some c : Option Char) = some 'n' := fun h => hn hv (Option.some.inj h)
  rw [he, ofChars_cons, List.cons_append] at hread ⊢
  unfold nullable
  rw [next_of_gap hg hgap]
  simp only [bind, Except.bind, hc, if_false]
  exact hread

/-- A value that may be missing is read. -/
theorem reads_getD_null {α : Type} {d : Decoder} {depth : Nat} {f : α → Value}
    (h : ∀ x, Reads d depth (f x)) (hv : ∀ x, f x ≠ .null) (o : Option α) :
    Reads (nullable d) depth ((o.map f).getD .null) := by
  cases o with
  | none => exact reads_null d depth
  | some x => exact reads_nullable (h x) (hv x)

/-! ## Lists -/

section

variable {g : GapLayout} {ind : Nat} {gap : List Char}

theorem nextItem_first (hg : Gap gap) (v : Value) (rest : Input) :
    nextItem true (Input.ofChars gap ++ (Input.ofChars (written g ind v) ++ rest)) =
      .ok (some (Input.ofChars (written g ind v) ++ rest)) := by
  obtain ⟨c, more, he, hgap, hclose, -⟩ := written_head g ind v
  have hc : ¬ (some c : Option Char) = some ']' := fun h => hclose (Option.some.inj h)
  unfold nextItem
  rw [he, ofChars_cons, List.cons_append, next_of_gap hg hgap]
  simp [bind, Except.bind, hc, pure, Except.pure]

theorem nextItem_more (hg : Gap gap) (v : Value) (rest : Input) :
    nextItem false (some ',' :: (Input.ofChars gap ++ (Input.ofChars (written g ind v) ++ rest))) =
      .ok (some (Input.ofChars (written g ind v) ++ rest)) := by
  obtain ⟨c, more, he, hgap, hclose, -⟩ := written_head g ind v
  have hc : ¬ (some c : Option Char) = some ']' := fun h => hclose (Option.some.inj h)
  have hcomma : ¬ (some ',' : Option Char) = some ']' := by decide
  unfold nextItem
  rw [next_char (by decide), he, ofChars_cons, List.cons_append]
  simp [bind, Except.bind, hcomma, next_of_gap hg hgap, hc, pure, Except.pure]

theorem nextItem_close (hg : Gap gap) (first : Bool) (rest : Input) :
    nextItem first (Input.ofChars gap ++ some ']' :: rest) = .ok none := by
  unfold nextItem
  rw [next_of_gap hg (by decide)]
  simp [bind, Except.bind, pure, Except.pure]

/-- What follows an item ends it. -/
theorem ends_items (g : GapLayout) (ind : Nat) (items : List Value) (hg : Gap gap) (rest : Input) :
    Ends (Input.ofChars (writtenItems g ind items) ++ (Input.ofChars gap ++ some ']' :: rest)) := by
  cases items with
  | nil =>
    rw [writtenItems, ofChars_nil, List.nil_append]
    exact ends_of_gap hg (ends_char (by decide) (by decide) (by decide) rest)
  | cons v items =>
    rw [writtenItems]
    exact ends_char (by decide) (by decide) (by decide) _

/-- The text of more items, cut at the tokens. -/
theorem ofChars_writtenItems (g : GapLayout) (ind : Nat) (v : Value) (items : List Value) (rest : Input) :
    Input.ofChars (writtenItems g ind (v :: items)) ++ rest =
      some ',' :: (Input.ofChars (g.line ind) ++ (Input.ofChars (written g ind v) ++
        (Input.ofChars (writtenItems g ind items) ++ rest))) := by
  rw [writtenItems]
  simp [Input.ofChars]

/-- The text of a list that is not empty, cut at the tokens. -/
theorem ofChars_written_list (g : GapLayout) (ind : Nat) (v : Value) (items : List Value) (rest : Input) :
    Input.ofChars (written g ind (.list (v :: items))) ++ rest =
      some '[' :: (Input.ofChars (g.line (ind + 1)) ++ (Input.ofChars (written g (ind + 1) v) ++
        (Input.ofChars (writtenItems g (ind + 1) items) ++
          (Input.ofChars (g.line ind) ++ some ']' :: rest)))) := by
  rw [written]
  simp [Input.ofChars]

theorem length_le_writtenItems (g : GapLayout) (ind : Nat) (items : List Value) :
    items.length ≤ (writtenItems g ind items).length := by
  induction items with
  | nil => exact Nat.zero_le _
  | cons v items ih =>
    rw [writtenItems]
    simp only [List.cons_append, List.length_cons, List.length_append]
    omega

variable {d : Decoder} {depth : Nat}

theorem readItems_item {first : Bool} {s more : Input} {v : Value} {fuel : Nat}
    (hi : nextItem first s = .ok (some (Input.ofChars (written g ind v) ++ more)))
    (hv : Reads d depth v) (hm : Ends more) {found : List Value} {rest : Input}
    (hrest : readItems (d depth) fuel false more = .ok (found, rest)) :
    readItems (d depth) (fuel + 1) first s = .ok (v :: found, rest) := by
  have hread := hv g ind [] more Gap.nil hm
  rw [ofChars_nil, List.nil_append] at hread
  rw [readItems]
  simp only [bind, Except.bind, hi, hread, hrest]
  rfl

theorem readItems_written (hgap : Gap gap) (items : List Value) :
    ∀ (fuel : Nat) (rest : Input), (∀ v ∈ items, Reads d depth v) → items.length < fuel →
      readItems (d depth) fuel false (Input.ofChars (writtenItems g ind items) ++
        (Input.ofChars gap ++ some ']' :: rest)) = .ok (items, rest) := by
  induction items with
  | nil =>
    intro fuel rest _ hf
    obtain ⟨fuel, rfl⟩ : ∃ n, fuel = n + 1 := ⟨fuel - 1, by simp at hf; omega⟩
    rw [writtenItems, ofChars_nil, List.nil_append, readItems, nextItem_close hgap]
    simp [bind, Except.bind, closeWith_of_gap hgap (c := ']') (by decide), pure, Except.pure]
  | cons v items ih =>
    intro fuel rest hd hf
    obtain ⟨fuel, rfl⟩ : ∃ n, fuel = n + 1 := ⟨fuel - 1, by simp at hf; omega⟩
    rw [ofChars_writtenItems]
    refine readItems_item (nextItem_more (g.gap_line ind) v _) (hd v List.mem_cons_self)
      (ends_items g ind items hgap rest) (ih fuel rest (fun w hw => hd w (List.mem_cons_of_mem _ hw)) ?_)
    simp at hf
    omega

end

/-- A list is read when each of its items is. -/
theorem reads_list {d : Decoder} {depth : Nat} {items : List Value} (hd : ∀ v ∈ items, Reads d depth v) :
    Reads (list d) (depth + 1) (.list items) := by
  intro g ind gap rest hg hr
  unfold list
  cases items with
  | nil =>
    have hread : ∀ n, readItems (d depth) (n + 1) true (some ']' :: rest) = .ok ([], rest) := by
      intro n
      have hclose := nextItem_close Gap.nil true rest
      have hend := closeWith_of_gap Gap.nil (c := ']') (by decide) rest
      rw [ofChars_nil, List.nil_append] at hclose hend
      rw [readItems]
      simp [bind, Except.bind, hclose, hend, pure, Except.pure]
    rw [written, ofChars_cons, ofChars_cons, ofChars_nil, List.cons_append, List.cons_append,
      List.nil_append, next_of_gap hg (by decide)]
    simp only [bind, Except.bind, if_true, descend, hread]
    rfl
  | cons v items =>
    have hlen := length_le_writtenItems g (ind + 1) items
    rw [ofChars_written_list, next_of_gap hg (by decide)]
    have hread : ∀ n, items.length < n → readItems (d depth) (n + 1) true (Input.ofChars (g.line (ind + 1)) ++
        (Input.ofChars (written g (ind + 1) v) ++ (Input.ofChars (writtenItems g (ind + 1) items) ++
          (Input.ofChars (g.line ind) ++ some ']' :: rest)))) = .ok (v :: items, rest) := fun n hn =>
      readItems_item (nextItem_first (g.gap_line (ind + 1)) v _) (hd v List.mem_cons_self)
        (ends_items g (ind + 1) items (g.gap_line ind) rest)
        (readItems_written (g.gap_line ind) items n rest
          (fun w hw => hd w (List.mem_cons_of_mem _ hw)) hn)
    simp only [bind, Except.bind, if_true, descend]
    rw [hread]
    · rfl
    · simp only [List.length_append, List.length_cons, Input.ofChars, List.length_map]
      omega

/-- A pair is read when both of its values are. -/
theorem reads_pair {a b : Decoder} {depth : Nat} {v w : Value} (hv : Reads a depth v) (hw : Reads b depth w) :
    Reads (pair a b) (depth + 1) (.list [v, w]) := by
  intro g ind gap rest hg hr
  have hfirst := hv g (ind + 1) [] _ Gap.nil (ends_items g (ind + 1) [w] (g.gap_line ind) rest)
  have hsecond := hw g (ind + 1) [] _ Gap.nil (ends_items g (ind + 1) [] (g.gap_line ind) rest)
  rw [ofChars_nil, List.nil_append, ofChars_writtenItems, writtenItems, ofChars_nil, List.nil_append] at hfirst
  rw [ofChars_nil, List.nil_append, writtenItems, ofChars_nil, List.nil_append] at hsecond
  unfold pair
  rw [ofChars_written_list, ofChars_writtenItems, next_of_gap hg (by decide)]
  simp only [bind, Except.bind, if_true, descend, nextItem_first (g.gap_line (ind + 1)) v, hfirst,
    nextItem_more (g.gap_line (ind + 1)) w, hsecond, writtenItems, ofChars_nil, List.nil_append,
    closeWith_of_gap (g.gap_line ind) (c := ']') (by decide)]
  rfl

/-! ## Flattened records -/

/-- The check of unknown values passes over `v`. -/
def Passes (depth : Nat) (v : Value) : Prop :=
  ∀ (g : GapLayout) (ind : Nat) (gap : List Char) (rest : Input), Gap gap → Ends rest →
    checkValue depth (Input.ofChars gap ++ (Input.ofChars (written g ind v) ++ rest)) = .ok rest

theorem passes_null (depth : Nat) : Passes depth .null := by
  intro g ind gap rest hg _
  rw [written]
  show checkValue depth (Input.ofChars gap ++ some 'n' :: (Input.ofChars "ull".toList ++ rest)) = _
  rw [checkValue, next_of_gap hg (by decide)]
  simp only [bind, Except.bind, if_true, readWord_self]

theorem passes_text (depth : Nat) (s : String) : Passes depth (.text s) := by
  intro g ind gap rest hg _
  rw [written, ofChars_textChars, checkValue, next_of_gap hg (by decide)]
  simp [bind, Except.bind, readText_textChars, pure, Except.pure]

theorem passes_count (depth : Nat) {n : Nat} (hn : n < Text.wordLimit) : Passes depth (.count n) := by
  intro g ind gap rest hg hr
  have hread := readNumber_toDigits hn hr
  rw [written]
  obtain ⟨c, more, hd, hc⟩ := exists_toDigits_eq n
  have hne : ∀ x, isDigit (some x) = false → ¬ (some c : Option Char) = some x :=
    fun x hx he => ne_of_isDigit hc hx (Option.some.inj he)
  have hstart := startsNumber_of_isDigit hc
  rw [hd, ofChars_cons, List.cons_append] at hread ⊢
  rw [checkValue, next_of_gap hg (isGap_of_isDigit hc)]
  simp only [bind, Except.bind, hne 'n' (by decide), hne 't' (by decide), hne 'f' (by decide),
    hne '"' (by decide), if_false, hstart, if_true, hread]
  rfl

/-- The place of a value in the text: the value is next. -/
def Marks (g : GapLayout) (ind : Nat) (v : Value) (place : Input) : Prop :=
  ∃ more, Ends more ∧ place = Input.ofChars g.colon ++ (Input.ofChars (written g ind v) ++ more)

section

variable {kept : Field} {depth : Nat} {g : GapLayout} {ind : Nat}

/-- A field that is not the kept one is passed over, its place is kept. -/
theorem readMixed_field {first : Bool} {s more : Input} {k : String} {v : Value} {fuel : Nat}
    {value? : Option Value} (hk : nextKey first s = .ok (some (k, some ':' ::
      (Input.ofChars g.colon ++ (Input.ofChars (written g ind v) ++ more)))))
    (hne : k ≠ kept.name) (hv : Passes depth v) (hm : Ends more) {places : List (String × Input)}
    {w? : Option Value} {rest : Input}
    (hrest : readMixed kept depth fuel false value? more = .ok (places, w?, rest)) :
    ∃ place, Marks g ind v place ∧
      readMixed kept depth (fuel + 1) first value? s = .ok ((k, place) :: places, w?, rest) := by
  have hpass := hv g ind g.colon more g.gap_colon hm
  refine ⟨_, ⟨more, hm, rfl⟩, ?_⟩
  rw [readMixed]
  simp only [bind, Except.bind, hk, hne, if_false, colon_char, hpass, hrest]
  rfl

/-- The kept field comes last. -/
theorem readMixed_kept {first : Bool} {s : Input} {w : Value} {fuel : Nat} {gap : List Char} (hgap : Gap gap)
    {rest : Input} (hk : nextKey first s = .ok (some (kept.name, some ':' :: (Input.ofChars g.colon ++
      (Input.ofChars (written g ind w) ++ (Input.ofChars gap ++ some closeBrace :: rest))))))
    (hw : Reads kept.decoder depth w) :
    readMixed kept depth (fuel + 2) first none s = .ok ([], some w, rest) := by
  have hread := hw g ind g.colon _ g.gap_colon
    (ends_of_gap hgap (ends_char (c := closeBrace) (by decide) (by decide) (by decide) rest))
  rw [readMixed]
  simp only [bind, Except.bind, hk, if_true, Option.isSome_none, Bool.false_eq_true, if_false, colon_char, hread]
  rw [readMixed]
  simp only [bind, Except.bind, nextKey_close hgap, closeWith_of_gap hgap (c := closeBrace) (by decide)]
  rfl

/-- The first pass keeps the places of the fields and reads the kept one. -/
theorem readMixed_written {gap : List Char} (hgap : Gap gap) {w : Value} (hw : Reads kept.decoder depth w)
    (vs : List (String × Value)) : ∀ (fuel : Nat) (rest : Input),
      (∀ e ∈ vs, e.1 ≠ kept.name ∧ Passes depth e.2) → vs.length + 1 < fuel →
      ∃ places, List.Forall₂ (fun e place => place.1 = e.1 ∧ Marks g ind e.2 place.2) vs places ∧
        readMixed kept depth fuel false none (Input.ofChars (writtenFields g ind (vs ++ [(kept.name, w)])) ++
          (Input.ofChars gap ++ some closeBrace :: rest)) = .ok (places, some w, rest) := by
  induction vs with
  | nil =>
    intro fuel rest _ hf
    obtain ⟨fuel, rfl⟩ : ∃ n, fuel = n + 2 := ⟨fuel - 2, by simp at hf; omega⟩
    refine ⟨[], .nil, ?_⟩
    rw [List.nil_append, ofChars_writtenFields, writtenFields, ofChars_nil, List.nil_append]
    exact readMixed_kept hgap (nextKey_more (g.gap_line ind) kept.name _) hw
  | cons e vs ih =>
    intro fuel rest hvs hf
    obtain ⟨k, v⟩ := e
    obtain ⟨fuel, rfl⟩ : ∃ n, fuel = n + 1 := ⟨fuel - 1, by simp at hf; omega⟩
    obtain ⟨hne, hv⟩ := hvs _ List.mem_cons_self
    obtain ⟨places, hplaces, hrest⟩ :=
      ih fuel rest (fun e he => hvs e (List.mem_cons_of_mem _ he)) (by simp at hf; omega)
    rw [List.cons_append, ofChars_writtenFields]
    obtain ⟨place, hm, hread⟩ := readMixed_field (nextKey_more (g.gap_line ind) k _) hne hv
      (ends_fields g ind _ hgap rest) hrest
    exact ⟨_, .cons ⟨rfl, hm⟩ hplaces, hread⟩

/-- The second pass reads the fields from their places. -/
theorem readSaved_places {fs : List Field} (hn : (fs.map (·.name)).Nodup) {vs : List (String × Value)}
    {places : List (String × Input)}
    (hp : List.Forall₂ (fun e place => place.1 = e.1 ∧ Marks g ind e.2 place.2) vs places) :
    ∀ found : List (String × Value), (∀ e ∈ vs, ∃ f ∈ fs, f.name = e.1 ∧ Reads f.decoder depth e.2) →
      (vs.map (·.1)).Nodup → (∀ e ∈ vs, found.lookup e.1 = none) →
      readSaved fs depth found places = arrange fs (vs.reverse ++ found) := by
  induction hp with
  | nil =>
    intro found _ _ _
    rfl
  | @cons e place vs places hfirst _ ih =>
    intro found hd hkeys hfound
    obtain ⟨k, v⟩ := e
    obtain ⟨k', s⟩ := place
    obtain ⟨hk, more, hm, hs⟩ := hfirst
    dsimp only at hk hs
    subst hk hs
    obtain ⟨f, hmem, rfl, hv⟩ := hd _ List.mem_cons_self
    obtain ⟨hnew, hkeys⟩ := List.nodup_cons.mp hkeys
    have hread := hv g ind g.colon more g.gap_colon hm
    have hfound' : ∀ e ∈ vs, ((f.name, v) :: found).lookup e.1 = none := by
      intro e he
      have hne : (e.1 == f.name) = false :=
        beq_eq_false_of_notMem (List.mem_map.mpr ⟨e, he, rfl⟩) hnew
      rw [List.lookup_cons, hne]
      exact hfound e (List.mem_cons_of_mem _ he)
    rw [readSaved, find?_field hn hmem]
    simp only [hfound _ List.mem_cons_self, Option.isSome_none, Bool.false_eq_true, if_false, hread]
    rw [ih _ (fun e he => hd e (List.mem_cons_of_mem _ he)) hkeys hfound']
    simp

end

/-- A flattened record is read when its values fit its fields and can be passed over. -/
theorem reads_flattened {fs : List Field} {kept : Field} {depth : Nat} {k : String} {v w : Value}
    {vs : List (String × Value)} (hn : (fs.map (·.name)).Nodup) (hkept : kept.name ∉ fs.map (·.name))
    (h : Fits depth fs ((k, v) :: vs)) (hpass : ∀ e ∈ (k, v) :: vs, Passes depth e.2)
    (hw : Reads kept.decoder depth w) :
    Reads (flattened fs kept) (depth + 1) (.record ((k, v) :: vs ++ [(kept.name, w)])) := by
  intro g ind gap rest hg hr
  have hfields := h.field
  have hne : ∀ e ∈ (k, v) :: vs, e.1 ≠ kept.name := fun e he hk =>
    hkept (hk ▸ h.keys_sublist.subset (List.mem_map_of_mem he))
  have hkeys : (((k, v) :: vs).map (·.1)).Nodup := hn.sublist h.keys_sublist
  have harrange : arrange fs ((k, v) :: vs).reverse = .ok ((k, v) :: vs) :=
    arrange_of_fits h hn fun f _ => lookup_reverse hkeys
  have hlen := length_le_writtenFields g (ind + 1) (vs ++ [(kept.name, w)])
  rw [List.length_append, List.length_singleton] at hlen
  unfold flattened
  rw [List.cons_append, ofChars_written_record, next_of_gap hg (by decide)]
  simp only [bind, Except.bind, if_true, descend]
  generalize hfuel : List.length _ + 1 = fuel
  obtain ⟨fuel, rfl⟩ : ∃ n, fuel = n + 1 := ⟨fuel - 1, by omega⟩
  obtain ⟨places, hplaces, hmore⟩ := readMixed_written (g.gap_line ind) hw vs fuel rest
    (fun e he => ⟨hne e (List.mem_cons_of_mem _ he), hpass e (List.mem_cons_of_mem _ he)⟩) (by
      simp only [List.length_append, List.length_cons, Input.ofChars, List.length_map] at hfuel
      omega)
  obtain ⟨place, hm, hread⟩ := readMixed_field (nextKey_first (g.gap_line (ind + 1)) k _)
    (hne _ List.mem_cons_self) (hpass _ List.mem_cons_self)
    (ends_fields g (ind + 1) _ (g.gap_line ind) rest) hmore
  rw [hread]
  dsimp only
  have hall : List.Forall₂ (fun e place => place.1 = e.1 ∧ Marks g (ind + 1) e.2 place.2) ((k, v) :: vs)
      ((k, place) :: places) := .cons ⟨rfl, hm⟩ hplaces
  rw [readSaved_places hn hall [] hfields hkeys fun _ _ => rfl, List.append_nil, harrange]
  rfl

end CipherCorpus.Json
