import CipherCorpus.Proofs.Store.Listing
import Mathlib.Algebra.Group.Int.Defs

/-!
# The order of the listing

A listing goes by the text of the path, then by address, then by name.  Addresses are compared by the
signed words they are stored as, so within one binary the far half of the address space comes first,
and each half ascends:

    path;  0x8000000000000000 ..= 0xffffffffffffffff, 0x0 ..= 0x7fffffffffffffff;  name

(`listing_order`).  This is the order of unsigned addresses exactly for the listings in which no binary
has addresses of both halves.
-/

namespace CipherCorpus.Store

/-! ## Signed words and unsigned addresses -/

/-- Addresses in the far half of the address space are stored as negative words. -/
def IsFar (address : UInt64) : Prop := 2 ^ 63 ≤ address.toNat

instance (address : UInt64) : Decidable (IsFar address) := inferInstanceAs (Decidable (_ ≤ _))

/-- The number of a stored word is that of its address, less `2 ^ 64` in the far half. -/
theorem toInt_cases (word : Int64) :
    (IsFar word.toUInt64 ∧ word.toInt = word.toUInt64.toNat - 2 ^ 64) ∨
      (¬IsFar word.toUInt64 ∧ word.toInt = word.toUInt64.toNat) := by
  have h : word.toInt = if 2 * word.toUInt64.toNat < 2 ^ 64 then (word.toUInt64.toNat : ℤ)
      else word.toUInt64.toNat - ((2 ^ 64 : ℕ) : ℤ) := BitVec.toInt_eq_toNat_cond word.toBitVec
  unfold IsFar
  split at h <;> omega

/-- Signed words ascend through the far half of the addresses, then through the near one. -/
theorem toInt_le_iff {a b : Int64} : a.toInt ≤ b.toInt ↔
    toLex (!decide (IsFar a.toUInt64), a.toUInt64.toNat) ≤
      toLex (!decide (IsFar b.toUInt64), b.toUInt64.toNat) := by
  have ha := a.toUInt64.toNat_lt
  have hb := b.toUInt64.toNat_lt
  rw [Prod.Lex.toLex_le_toLex]
  rcases toInt_cases a with ⟨hfa, ea⟩ | ⟨hfa, ea⟩ <;>
    rcases toInt_cases b with ⟨hfb, eb⟩ | ⟨hfb, eb⟩ <;>
    rw [ea, eb] <;> simp only [hfa, hfb, decide_true, decide_false] <;>
    unfold IsFar at hfa hfb
  · simp
  · simp only [Bool.not_true, Bool.not_false, Bool.false_lt_true, true_or, iff_true]
    omega
  · simp only [Bool.not_true, Bool.not_false, Bool.lt_iff, Bool.true_eq_false, false_and, or_false,
      iff_false]
    omega
  · simp

/-! ## Ranks of functions -/

/-- What the listing goes by: path, half of the address space, address, name. -/
def listingRank (f : LabeledFunction) : String ×ₗ (Bool ×ₗ ℕ) ×ₗ String :=
  toLex (f.function.binaryPath.text, toLex (toLex (!decide (IsFar f.function.address),
    f.function.address.toNat), f.function.name))

/-- Path, unsigned address, name. -/
def addressRank (f : LabeledFunction) : String ×ₗ ℕ ×ₗ String :=
  toLex (f.function.binaryPath.text, toLex (f.function.address.toNat, f.function.name))

variable {f g : LabeledFunction}

/-- Rows are ordered as the functions in them. -/
theorem rank_le_iff {r s : FunctionRow} (hr : r.toLabeled? = some f) (hs : s.toLabeled? = some g) :
    r.rank ≤ s.rank ↔ listingRank f ≤ listingRank g := by
  obtain ⟨e, -, rfl⟩ := Option.map_eq_some_iff.mp hr
  obtain ⟨e', -, rfl⟩ := Option.map_eq_some_iff.mp hs
  have hle := @toInt_le_iff r.address s.address
  have hge := @toInt_le_iff s.address r.address
  have heq := (le_antisymm_iff.trans (and_congr hle hge)).trans le_antisymm_iff.symm
  unfold FunctionRow.rank listingRank
  simp only [Prod.Lex.toLex_le_toLex (α := String), Prod.Lex.toLex_le_toLex (β := String)]
  rw [lt_iff_lt_of_le_iff_le hge, heq]

theorem listingRank_le_iff : listingRank f ≤ listingRank g ↔
    f.function.binaryPath.text < g.function.binaryPath.text ∨
      f.function.binaryPath.text = g.function.binaryPath.text ∧
        (IsFar f.function.address ∧ ¬IsFar g.function.address ∨
          (IsFar f.function.address ↔ IsFar g.function.address) ∧
            toLex (f.function.address.toNat, f.function.name) ≤
              toLex (g.function.address.toNat, g.function.name)) := by
  unfold listingRank
  simp only [Prod.Lex.toLex_le_toLex, Prod.Lex.toLex_lt_toLex, toLex_inj, Prod.mk.injEq]
  by_cases hf : IsFar f.function.address <;> by_cases hg : IsFar g.function.address <;>
    simp [hf, hg, Bool.lt_iff]

/-- Functions of one half of the address space stand in the order of unsigned addresses. -/
theorem addressRank_le_of_listingRank_le (h : listingRank f ≤ listingRank g)
    (hhalf : f.function.binaryPath.text = g.function.binaryPath.text →
      (IsFar f.function.address ↔ IsFar g.function.address)) : addressRank f ≤ addressRank g := by
  unfold addressRank
  rw [Prod.Lex.toLex_le_toLex]
  rcases listingRank_le_iff.mp h with hlt | ⟨hpath, ⟨hf, hg⟩ | ⟨-, hle⟩⟩
  · exact Or.inl hlt
  · exact absurd ((hhalf hpath).mp hf) hg
  · exact Or.inr ⟨hpath, hle⟩

/-- The far half is listed first, and has the larger addresses. -/
theorem not_both_le (hpath : f.function.binaryPath.text = g.function.binaryPath.text)
    (hf : IsFar f.function.address) (hg : ¬IsFar g.function.address) :
    ¬listingRank g ≤ listingRank f ∧ ¬addressRank f ≤ addressRank g := by
  constructor
  · intro h
    rcases listingRank_le_iff.mp h with hlt | ⟨-, ⟨hg', -⟩ | ⟨heq, -⟩⟩
    · exact absurd hpath hlt.ne'
    · exact hg hg'
    · exact hg (heq.mpr hf)
  · intro h
    unfold addressRank at h
    unfold IsFar at hf hg
    rcases Prod.Lex.toLex_le_toLex.mp h with hlt | ⟨-, hle⟩
    · exact absurd hpath hlt.ne
    · rcases Prod.Lex.toLex_le_toLex.mp hle with hlt | ⟨heq, -⟩
      · dsimp only at hlt
        omega
      · dsimp only at heq
        omega

/-- A listing is in the order of unsigned addresses exactly when no binary has addresses of both
halves in it. -/
theorem pairwise_addressRank_iff {fs : List LabeledFunction}
    (hs : fs.Pairwise (listingRank · ≤ listingRank ·)) :
    fs.Pairwise (addressRank · ≤ addressRank ·) ↔ ∀ f ∈ fs, ∀ g ∈ fs,
      f.function.binaryPath.text = g.function.binaryPath.text →
        (IsFar f.function.address ↔ IsFar g.function.address) := by
  constructor
  · intro ha
    have key : ∀ f ∈ fs, ∀ g ∈ fs, f.function.binaryPath.text = g.function.binaryPath.text →
        IsFar f.function.address → IsFar g.function.address := by
      intro f hf g hg hpath hfar
      by_contra hnear
      obtain ⟨hlist, haddress⟩ := not_both_le hpath hfar hnear
      obtain ⟨i, hi, rfl⟩ := List.mem_iff_getElem.mp hf
      obtain ⟨j, hj, rfl⟩ := List.mem_iff_getElem.mp hg
      rcases Nat.lt_trichotomy i j with hlt | rfl | hlt
      · exact haddress (List.pairwise_iff_getElem.mp ha i j hi hj hlt)
      · exact hnear hfar
      · exact hlist (List.pairwise_iff_getElem.mp hs j i hj hi hlt)
    exact fun f hf g hg hpath => ⟨key f hf g hg hpath, key g hg f hf hpath.symm⟩
  · intro hhalf
    exact hs.imp_of_mem fun hf hg h => addressRank_le_of_listingRank_le h (hhalf _ hf _ hg)

/-! ## Listings -/

/-- Values are read one by one until one cannot be read. -/
theorem mapM_cases {α β ε : Type} {k : α → Except ε β} {v : α → Option β} {e : ε}
    (hsome : ∀ a b, v a = some b → k a = .ok b) (hnone : ∀ a, v a = none → k a = .error e)
    (l : List α) : ((∃ a ∈ l, v a = none) ∧ l.mapM k = .error e) ∨
      ∃ bs, l.mapM k = .ok bs ∧ l.map v = bs.map some := by
  induction l with
  | nil => exact Or.inr ⟨[], rfl, rfl⟩
  | cons a rest ih =>
    rw [List.mapM_cons]
    cases hv : v a with
    | none =>
      rw [hnone a hv]
      exact Or.inl ⟨⟨a, List.mem_cons_self, hv⟩, rfl⟩
    | some b =>
      rw [hsome a b hv]
      rcases ih with ⟨⟨x, hx, hxv⟩, he⟩ | ⟨bs, hok, hmap⟩
      · rw [he]
        exact Or.inl ⟨⟨x, List.mem_cons_of_mem _ hx, hxv⟩, rfl⟩
      · rw [hok]
        exact Or.inr ⟨b :: bs, rfl, by rw [List.map_cons, List.map_cons, hv, hmap]⟩

namespace Database

variable {db : Database} {rows : List FunctionRow}

/-- The rows that a listing is about. -/
def askedRows (binary : Option Path) (rows : List FunctionRow) : List FunctionRow :=
  match binary with
  | some b => rows.filter (·.binaryPath == b.text)
  | none => rows

/-- Functions in rows that are in order are in order. -/
theorem pairwise_listingRank {fs : List LabeledFunction} (hs : rows.Pairwise (·.upTo ·))
    (hmap : rows.map FunctionRow.toLabeled? = fs.map some) :
    fs.Pairwise (listingRank · ≤ listingRank ·) := by
  rw [List.pairwise_iff_getElem] at hs ⊢
  have hlen : rows.length = fs.length := by simpa using congrArg List.length hmap
  have hget : ∀ i (hr : i < rows.length) (hf : i < fs.length),
      rows[i].toLabeled? = some fs[i] := by
    intro i hr hf
    have h := congrArg (·[i]?) hmap
    simpa [hr, hf] using h
  intro i j hi hj hij
  have hi' : i < rows.length := hlen ▸ hi
  have hj' : j < rows.length := hlen ▸ hj
  exact (rank_le_iff (hget i hi' hi) (hget j hj' hj)).mp
    (FunctionRow.upTo_iff.mp (hs i j hi' hj' hij))

/-- A listing fails on a word of evidence that is none.  Otherwise it has the function of each row that
is asked for, by path, then the far half of the addresses before the near one, then by address, then
by name; this is by path, unsigned address and name exactly when the rows of no binary have addresses
of both halves. -/
theorem listing_order (h : db.functions = some rows) (binary : Option Path) :
    ((∃ r ∈ askedRows binary rows, r.toLabeled? = none) ∧
      db.listFunctions binary = .error .badWord) ∨
    ∃ fs, db.listFunctions binary = .ok fs ∧
      ((askedRows binary rows).map FunctionRow.toLabeled?).Perm (fs.map some) ∧
      fs.Pairwise (listingRank · ≤ listingRank ·) ∧
      (fs.Pairwise (addressRank · ≤ addressRank ·) ↔ ∀ f ∈ fs, ∀ g ∈ fs,
        f.function.binaryPath.text = g.function.binaryPath.text →
          (IsFar f.function.address ↔ IsFar g.function.address)) := by
  have hperm := List.mergeSort_perm (askedRows binary rows) FunctionRow.upTo
  have hlist : ∃ k : FunctionRow → Except Fault LabeledFunction,
      (∀ r f, r.toLabeled? = some f → k r = .ok f) ∧
      (∀ r, r.toLabeled? = none → k r = .error .badWord) ∧
      db.listFunctions binary = ((askedRows binary rows).mergeSort FunctionRow.upTo).mapM k := by
    unfold listFunctions functionRows
    rw [h]
    exact ⟨_, fun r f hr => by rw [hr], fun r hr => by rw [hr], rfl⟩
  obtain ⟨k, hsome, hnone, hlist⟩ := hlist
  rw [hlist]
  rcases mapM_cases hsome hnone ((askedRows binary rows).mergeSort FunctionRow.upTo) with
    ⟨⟨r, hr, hnone⟩, he⟩ | ⟨fs, hok, hmap⟩
  · exact Or.inl ⟨⟨r, hperm.mem_iff.mp hr, hnone⟩, he⟩
  · have hs := pairwise_listingRank (sorted_mergeSort _) hmap
    exact Or.inr ⟨fs, hok, hmap ▸ (hperm.map _).symm, hs, pairwise_addressRank_iff hs⟩

/-! ## A kernel image and a program -/

/-- A function at an address of a binary. -/
def functionAt (binary : String) (address : UInt64) : LabeledFunction :=
  ⟨⟨⟨binary⟩, address, none, "f", .symbol⟩, .unknown⟩

/-- A database with one kernel image and one program is listed by unsigned address. -/
theorem halves_in_two_binaries_are_in_order :
    let fs := [functionAt "/vmlinux" 0xffffffff81000000, functionAt "/usr/bin/age" 0x1000,
      functionAt "/vmlinux" 0xffffffff80000000]
    ∃ listed, (⟨2, some [], some (fs.map .ofLabeled)⟩ : Database).listFunctions none = .ok listed ∧
      (fs.map some).Perm (listed.map some) ∧
      listed.Pairwise (addressRank · ≤ addressRank ·) := by
  intro fs
  have hread : (askedRows none (fs.map .ofLabeled)).map FunctionRow.toLabeled? = fs.map some := by
    decide +kernel
  let db : Database := ⟨2, some [], some (fs.map .ofLabeled)⟩
  rcases listing_order (show db.functions = some (fs.map .ofLabeled) from rfl) none with
    ⟨⟨r, hr, hnone⟩, -⟩ | ⟨listed, hok, hperm, -, horder⟩
  · have hmem := List.mem_map_of_mem (f := FunctionRow.toLabeled?) hr
    rw [hread, hnone] at hmem
    simp at hmem
  · rw [hread] at hperm
    refine ⟨listed, hok, hperm, horder.mpr ?_⟩
    have hmem : ∀ f, f ∈ listed ↔ f ∈ fs := by
      intro f
      have h := hperm.mem_iff (a := some f)
      simpa using h.symm
    simp only [hmem]
    decide +kernel

/-- Two functions are listed the other way round when the first one does not come first. -/
theorem mergeSort_pair {f g : LabeledFunction} (h : listedUpTo f g = false) :
    [f, g].mergeSort listedUpTo = [g, f] := by
  simp [List.mergeSort, h]

/-- The kernel image alone, with a function near the start: the far address comes first. -/
theorem far_address_is_listed_first :
    let near := functionAt "/vmlinux" 0x1000
    let far := functionAt "/vmlinux" 0xffffffff81000000
    ∃ new db, Database.fresh.migrate = .ok new ∧ new.insertFunctions [near, far] = (.ok 2, db) ∧
      db.listFunctions none = .ok [far, near] ∧
      db.listFunctions (some ⟨"/vmlinux"⟩) = .ok [far, near] ∧
      ¬[far, near].Pairwise (addressRank · ≤ addressRank ·) := by
  intro near far
  let rows := [near, far].map FunctionRow.ofLabeled
  have hall : (⟨2, some [], some rows⟩ : Database).listFunctions none = .ok [far, near] := by
    rw [listFunctions_eq rfl, mergeSort_pair (by decide +kernel)]
  have hone : rows.filter (·.binaryPath == (⟨"/vmlinux"⟩ : Path).text) = rows := by decide +kernel
  refine ⟨⟨2, some [], some []⟩, ⟨2, some [], some rows⟩, rfl, by decide +kernel, hall, ?_,
    by decide +kernel⟩
  rw [listFunctions_some_eq rfl, hone]
  exact hall

end Database

end CipherCorpus.Store
