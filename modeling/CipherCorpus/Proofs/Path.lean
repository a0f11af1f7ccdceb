import CipherCorpus.Path
import CipherCorpus.Proofs.Text.Pieces

/-!
# Paths of children

What stands before a name in the path of a child depends on the parent alone (`toList_child`), and a
name without separators becomes the last part (`parts_of_lead`).  Two such entries of one directory
are the same path only when their names agree (`same_of_lead_iff`).
-/

namespace CipherCorpus.Path

open Text

/-- What stands in front of a relative path that is joined to `p`. -/
def lead (p : Path) : List Char :=
  if p.text.isEmpty || p.text.toList.getLast? == some '/' then p.text.toList
  else p.text.toList ++ ['/']

theorem lead_eq_nil_or (p : Path) : p.lead = [] ∨ ∃ l, p.lead = l ++ ['/'] := by
  unfold lead
  split
  · next h =>
    rcases Bool.or_eq_true _ _ ▸ h with h | h
    · left
      rw [String.isEmpty_iff.mp h]
      rfl
    · right
      exact List.getLast?_eq_some_iff.mp (by simpa using h)
  · exact Or.inr ⟨_, rfl⟩

theorem toList_child (p : Path) {n : String} (h : n.toList.head? ≠ some '/') :
    (p.child n).text.toList = p.lead ++ n.toList := by
  have ha : (Path.mk n).isAbsolute = false := by
    unfold isAbsolute
    simpa using h
  unfold child join lead
  rw [ha]
  by_cases hp : (p.text.isEmpty || p.text.toList.getLast? == some '/') = true
  · rw [if_neg (by decide), if_pos hp, if_pos hp]
    exact String.toList_append
  · rw [if_neg (by decide), if_neg hp, if_neg hp]
    simp only [String.toList_append]
    rfl

theorem head?_ne_of_notMem {c : Char} {s : List Char} (h : c ∉ s) : s.head? ≠ some c :=
  fun e => h (List.mem_of_mem_head? e)

/-- Behind a separator or at the front, a name without separators is the last part of a path; the parts
before it do not depend on it. -/
theorem parts_of_lead {pre : List Char} (hp : pre = [] ∨ ∃ l, pre = l ++ ['/']) :
    ∃ ps, ∀ n : List Char, '/' ∉ n → isFiller n = false →
      parts ⟨String.ofList (pre ++ n)⟩ = ps ++ [partOf n] := by
  rcases hp with rfl | ⟨l, rfl⟩
  · refine ⟨[], fun n hn hf => ?_⟩
    simp only [isFiller, Bool.or_eq_false_iff] at hf
    unfold parts pieces isAbsolute
    rw [List.nil_append, String.toList_ofList, splitOn_of_notMem hn]
    simp [hf.1, hf.2, head?_ne_of_notMem hn]
  · obtain ⟨first, rest, hs⟩ := List.exists_cons_of_ne_nil (splitOn_ne_nil '/' l)
    let tail := (rest.filter (!isFiller ·)).map partOf
    refine ⟨if (l ++ ['/']).head? == some '/' then .root :: tail
      else if first == [] then tail
      else if first == ['.'] then .here :: tail
      else partOf first :: tail, fun n hn hf => ?_⟩
    have hhead : (l ++ ['/'] ++ n).head? = (l ++ ['/']).head? := by
      cases l <;> rfl
    have hpieces : splitOn '/' (l ++ ['/'] ++ n) = first :: (rest ++ [n]) := by
      rw [List.append_assoc, List.singleton_append, splitOn_append_sep, splitOn_of_notMem hn, hs]
      rfl
    have htail : ((rest ++ [n]).filter (!isFiller ·)).map partOf = tail ++ [partOf n] := by
      rw [List.filter_append, List.map_append]
      simp [tail, hf]
    unfold parts pieces isAbsolute
    rw [String.toList_ofList, hhead, hpieces]
    simp only [htail]
    split
    · rfl
    · split
      · rfl
      · split <;> rfl

/-- Whether a text names an entry of a directory: it holds no separator and is no step of dots. -/
def IsEntryName (n : List Char) : Prop := '/' ∉ n ∧ n ≠ [] ∧ n ≠ ['.'] ∧ n ≠ ['.', '.']

instance (n : List Char) : Decidable (IsEntryName n) := inferInstanceAs (Decidable (_ ∧ _))

/-- Two entries of one directory are the same path only under the same name. -/
theorem same_of_lead_iff {pre m n : List Char} (hp : pre = [] ∨ ∃ l, pre = l ++ ['/'])
    (hm : IsEntryName m) (hn : IsEntryName n) :
    same ⟨String.ofList (pre ++ m)⟩ ⟨String.ofList (pre ++ n)⟩ = true ↔ m = n := by
  obtain ⟨hm, m0, m1, m2⟩ := hm
  obtain ⟨hn, n0, n1, n2⟩ := hn
  obtain ⟨ps, hps⟩ := parts_of_lead hp
  unfold same
  rw [beq_iff_eq, hps m hm (by simp [isFiller, m0, m1]), hps n hn (by simp [isFiller, n0, n1])]
  simp [partOf, m2, n2, String.ofList_inj]

/-! ## The last name of a child -/

theorem exists_pieces_child (p : Path) {n : String} (hn : '/' ∉ n.toList) :
    ∃ init, (p.child n).pieces = init ++ [n.toList] := by
  unfold pieces
  rw [p.toList_child (head?_ne_of_notMem hn)]
  rcases p.lead_eq_nil_or with h | ⟨l, h⟩
  · exact ⟨[], by rw [h, List.nil_append, splitOn_of_notMem hn]; rfl⟩
  · refine ⟨splitOn '/' l, ?_⟩
    rw [h, List.append_assoc, List.singleton_append, splitOn_append_sep, splitOn_of_notMem hn]

theorem trimFiller_cons {last : List Char} (more : List (List Char)) (h : isFiller last = false) :
    trimFiller (last :: more) = last :: more := by
  cases more with
  | nil => rfl
  | cons next more =>
    rw [trimFiller, h, if_neg (by decide)]
    exact fun he => by cases he

theorem significant_child (p : Path) {n : String} (hn : IsEntryName n.toList) :
    ∃ init, (p.child n).pieces = init ++ [n.toList] ∧
      (p.child n).significant = n.toList :: init.reverse := by
  obtain ⟨init, hi⟩ := p.exists_pieces_child hn.1
  refine ⟨init, hi, ?_⟩
  unfold significant
  rw [hi, List.reverse_append]
  exact trimFiller_cons _ (by simp [isFiller, hn.2.1, hn.2.2.1])

theorem fileName?_child (p : Path) {n : String} (hn : IsEntryName n.toList) :
    (p.child n).fileName? = some n := by
  obtain ⟨init, -, hs⟩ := p.significant_child hn
  obtain ⟨-, h0, h1, h2⟩ := hn
  unfold fileName?
  rw [hs]
  simp [isFiller, h0, h1, h2]

/-- The parent of a child is the path itself, when that ends in a name. -/
theorem parent?_child {p : Path} {init : List (List Char)} {m : List Char}
    (hp : p.pieces = init ++ [m]) (hm : IsEntryName m) {n : String} (hn : IsEntryName n.toList) :
    (p.child n).parent? = some p := by
  have hfill : isFiller m = false := by simp [isFiller, hm.2.1, hm.2.2.1]
  have hlead : p.lead = p.text.toList ++ ['/'] := by
    unfold lead
    -- a path that ends in a separator has no name at its end
    have hlast : ∀ x, p.pieces = x ++ [[]] → m = [] := fun x he =>
      List.singleton_inj.mp (List.append_inj' (hp.symm.trans he) rfl).2
    refine if_neg fun h => hm.2.1 ?_
    rcases Bool.or_eq_true _ _ ▸ h with h | h
    · refine hlast [] ?_
      unfold pieces
      rw [String.isEmpty_iff.mp h]
      rfl
    · obtain ⟨l, hl⟩ := List.getLast?_eq_some_iff.mp (by simpa using h)
      refine hlast (splitOn '/' l) ?_
      unfold pieces
      rw [hl, splitOn_append_sep]
      rfl
  have hpieces : (p.child n).pieces = p.pieces ++ [n.toList] := by
    unfold pieces
    rw [p.toList_child (head?_ne_of_notMem hn.1), hlead, List.append_assoc, List.singleton_append,
      splitOn_append_sep, splitOn_of_notMem hn.1]
  obtain ⟨init', hi, hs⟩ := p.significant_child hn
  have hinit : init' = p.pieces := (List.append_inj' (hi.symm.trans hpieces) rfl).1
  unfold parent?
  rw [hs, hinit, hp, List.reverse_append, List.reverse_singleton, List.singleton_append]
  dsimp only
  rw [trimFiller_cons _ hfill]
  have hjoin : String.ofList (joinWith '/' (m :: init.reverse).reverse) = p.text := by
    rw [List.reverse_cons, List.reverse_reverse, ← hp]
    unfold pieces
    rw [joinWith_splitOn, String.ofList_toList]
  split
  · next he =>
    rw [List.cons.injEq] at he
    exact absurd he.1 hm.2.1
  · rw [hjoin]

theorem withFileName_child {p : Path} {init : List (List Char)} {m : List Char}
    (hp : p.pieces = init ++ [m]) (hm : IsEntryName m) {n : String} (hn : IsEntryName n.toList)
    (other : String) : (p.child n).withFileName other = p.child other := by
  unfold withFileName
  rw [p.fileName?_child hn, parent?_child hp hm hn]
  rfl

end CipherCorpus.Path
