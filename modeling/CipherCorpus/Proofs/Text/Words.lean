import CipherCorpus.Text.Blank

/-!
# Words and lines of spaced text

`Spaced ws s` says that `s` holds the words `ws`, one after another with blanks between them and any
blanks around them.  The words of a text are the words that it spaces out (`words_eq_iff`), so blanks at
its ends do not count (`Spaced.append_blank`).  A line up to a line feed is read with its own words
(`lines_append_feed`), whatever stands before the line feed.
-/

namespace CipherCorpus.Text

/-- Words with blanks between them. -/
inductive Spaced : List (List Char) → List Char → Prop where
  | blank {gap : List Char} : (∀ c ∈ gap, isBlank c = true) → Spaced [] gap
  | word {gap w s : List Char} {ws : List (List Char)} : (∀ c ∈ gap, isBlank c = true) → w ≠ [] →
      (∀ c ∈ w, isBlank c = false) → (∀ c ∈ s.head?, isBlank c = true) → Spaced ws s →
      Spaced (w :: ws) (gap ++ w ++ s)

variable {s w gap : List Char} {ws : List (List Char)} {c : Char}

/-! ## Words -/

theorem wordsFrom_append_gap (hgap : ∀ c ∈ gap, isBlank c = true) (s : List Char) :
    wordsFrom [] (gap ++ s) = wordsFrom [] s := by
  induction gap with
  | nil => rfl
  | cons c gap ih =>
    obtain ⟨hc, hgap⟩ := List.forall_mem_cons.mp hgap
    rw [List.cons_append, wordsFrom, if_pos hc, ← ih hgap]
    rfl

theorem wordsFrom_append_word (hw : ∀ c ∈ w, isBlank c = false) (s : List Char) :
    ∀ start, wordsFrom start (w ++ s) = wordsFrom (w.reverse ++ start) s := by
  induction w with
  | nil => exact fun _ => rfl
  | cons c w ih =>
    intro start
    obtain ⟨hc, hw⟩ := List.forall_mem_cons.mp hw
    rw [List.cons_append, wordsFrom, if_neg (by rw [hc]; simp), ih hw, List.reverse_cons, List.append_assoc]
    rfl

/-- A word that has begun ends at a blank or at the end of the text. -/
theorem wordsFrom_of_head? {start : List Char} (hstart : start ≠ []) (hs : ∀ c ∈ s.head?, isBlank c = true) :
    wordsFrom start s = start.reverse :: words s := by
  have hne : start.isEmpty = false := by simpa using hstart
  cases s with
  | nil => simp [wordsFrom, words, hne]
  | cons c s =>
    have hc := hs c rfl
    rw [words, wordsFrom, wordsFrom, if_pos hc, if_pos hc, hne]
    rfl

theorem words_of_spaced (h : Spaced ws s) : words s = ws := by
  induction h with
  | blank hgap => simpa [words, wordsFrom] using wordsFrom_append_gap hgap []
  | @word gap w s ws hgap hne hw hs _ ih =>
    have hstart : w.reverse ++ [] ≠ [] := by simpa using hne
    rw [words, List.append_assoc, wordsFrom_append_gap hgap, wordsFrom_append_word hw,
      wordsFrom_of_head? hstart hs, ih, List.append_nil, List.reverse_reverse]

theorem Spaced.cons_blank (hc : isBlank c = true) (h : Spaced ws s) : Spaced ws (c :: s) := by
  cases h with
  | blank hgap => exact .blank (List.forall_mem_cons.mpr ⟨hc, hgap⟩)
  | @word gap _ _ _ hgap hne hw hs h => exact @Spaced.word (c :: gap) _ _ _ (List.forall_mem_cons.mpr ⟨hc, hgap⟩) hne hw hs h

theorem Spaced.append_blank (hc : isBlank c = true) (h : Spaced ws s) : Spaced ws (s ++ [c]) := by
  induction h with
  | blank hgap => exact .blank (List.forall_mem_append.mpr ⟨hgap, by simpa using hc⟩)
  | @word gap w s ws hgap hne hw hs _ ih =>
    rw [List.append_assoc]
    refine .word hgap hne hw ?_ ih
    cases s with
    | nil => simpa using hc
    | cons d s => exact hs

/-- Every text spaces out its words. -/
theorem spaced_words (s : List Char) : Spaced (words s) s := by
  have hfrom : ∀ (s start : List Char), (∀ c ∈ start, isBlank c = false) →
      Spaced (wordsFrom start s) (start.reverse ++ s) := by
    intro s
    induction s with
    | nil =>
      intro start hstart
      cases start with
      | nil => exact .blank (by simp)
      | cons c start =>
        exact @Spaced.word [] _ _ _ (by simp) (by simp) (fun d hd => hstart d (List.mem_reverse.mp hd)) (by simp)
          (.blank (by simp))
    | cons c s ih =>
      intro start hstart
      by_cases hc : isBlank c = true
      · have hrest : Spaced (wordsFrom [] s) (c :: s) := (ih [] (by simp)).cons_blank hc
        rw [wordsFrom, if_pos hc]
        cases start with
        | nil => exact hrest
        | cons d start =>
          exact @Spaced.word [] _ _ _ (by simp) (by simp) (fun x hx => hstart x (List.mem_reverse.mp hx))
            (by simpa using hc) hrest
      · rw [wordsFrom, if_neg hc]
        have hnext := ih (c :: start) (List.forall_mem_cons.mpr ⟨by simpa using hc, hstart⟩)
        rwa [List.reverse_cons, List.append_assoc] at hnext
  exact hfrom s [] (by simp)

/-- **The words of a text are those that it spaces out.** -/
theorem words_eq_iff : words s = ws ↔ Spaced ws s := by
  refine ⟨?_, words_of_spaced⟩
  rintro rfl
  exact spaced_words s

/-! ## Lines -/

theorem linesFrom_append {line : List Char} (hline : '\n' ∉ line) (text : List Char) :
    ∀ start, linesFrom start (line ++ text) = linesFrom (line.reverse ++ start) text := by
  induction line with
  | nil => exact fun _ => rfl
  | cons c line ih =>
    intro start
    rw [List.mem_cons, not_or] at hline
    obtain ⟨hc, hline⟩ := hline
    rw [List.cons_append, linesFrom.eq_def]
    dsimp only
    rw [if_neg (Ne.symm hc), ih hline, List.reverse_cons, List.append_assoc]
    rfl

/-- The line in front of a line feed has its words, also without a carriage return at its end. -/
theorem lines_append_feed {line : List Char} (hline : '\n' ∉ line) (text : List Char) :
    ∃ kept, lines (line ++ '\n' :: text) = kept :: lines text ∧ words kept = words line := by
  unfold lines
  rw [linesFrom_append hline, List.append_nil, linesFrom.eq_def]
  dsimp only
  rw [if_pos rfl]
  refine ⟨_, rfl, ?_⟩
  split
  · next before hreturn =>
    have hsplit : line = before.reverse ++ ['\r'] := by
      rw [← List.reverse_reverse line, hreturn, List.reverse_cons]
    rw [hsplit, words_of_spaced ((spaced_words before.reverse).append_blank (by decide))]
  · rw [List.reverse_reverse]

/-- A last line without a line feed is a line, unless it is empty. -/
theorem lines_of_notMem {line : List Char} (hline : '\n' ∉ line) :
    lines line = if line = [] then [] else [line] := by
  have h := linesFrom_append hline [] []
  rw [List.append_nil, List.append_nil] at h
  rw [lines, h, linesFrom]
  simp

end CipherCorpus.Text
