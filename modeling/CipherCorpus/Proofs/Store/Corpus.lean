import CipherCorpus.Proofs.Store.Listing
import Mathlib.Data.Set.Card

/-!
# The corpus as a map

What is stored is meant as a map from binary path, address and name to the facts about that function,
where the last write wins.  `Shows m fs` says that a list of functions is such a map, and the table
of functions keeps showing the map under every change:

* `Shows.recordAll` when functions are inserted,
* `Shows.dropAll` when binaries are dropped.
-/

namespace CipherCorpus.Store

/-- What a function is stored under. -/
structure FunctionKey where
  binaryPath : String
  address : UInt64
  name : String
deriving DecidableEq

/-- What is stored about a function. -/
structure Facts where
  size : Option UInt64
  evidence : Evidence
  label : Label
deriving DecidableEq

def keyOf (f : LabeledFunction) : FunctionKey :=
  ⟨f.function.binaryPath.text, f.function.address, f.function.name⟩

def factsOf (f : LabeledFunction) : Facts := ⟨f.function.size, f.function.evidence, f.label⟩

/-- Facts by key. -/
abbrev Corpus : Type := FunctionKey → Option Facts

namespace Corpus

def empty : Corpus := fun _ => none

/-- A function overwrites what is stored under its key. -/
def record (m : Corpus) (f : LabeledFunction) : Corpus := fun k =>
  if k = keyOf f then some (factsOf f) else m k

/-- Functions overwrite their keys one after the other. -/
def recordAll (m : Corpus) (fs : List LabeledFunction) : Corpus := fs.foldl record m

/-- All keys of one binary go. -/
def drop (m : Corpus) (b : Path) : Corpus := fun k => if k.binaryPath = b.text then none else m k

/-- All keys of some binaries go. -/
def dropAll (m : Corpus) (bs : List Path) : Corpus := bs.foldl drop m

/-- The keys that are stored for one binary. -/
def keysOf (m : Corpus) (b : Path) : Set FunctionKey :=
  {k | k.binaryPath = b.text ∧ m k ≠ none}

theorem drop_eq_some {m : Corpus} {b : Path} {k : FunctionKey} {v : Facts} :
    m.drop b k = some v ↔ k.binaryPath ≠ b.text ∧ m k = some v := by
  unfold drop
  split
  · next h =>
    constructor
    · intro he
      cases he
    · rintro ⟨hn, -⟩
      exact absurd h hn
  · next h => exact ⟨fun he => ⟨h, he⟩, fun he => he.2⟩

end Corpus

/-- A list of functions with each entry of a map once. -/
structure Shows (m : Corpus) (fs : List LabeledFunction) : Prop where
  nodup : (fs.map keyOf).Nodup
  mem_iff : ∀ f, f ∈ fs ↔ m (keyOf f) = some (factsOf f)

/-! ## Changes of the map -/

theorem eq_of_keyOf_factsOf {f g : LabeledFunction} (hk : keyOf f = keyOf g)
    (hv : factsOf f = factsOf g) : f = g := by
  obtain ⟨⟨⟨path⟩, address, size, name, evidence⟩, label⟩ := f
  obtain ⟨⟨⟨path'⟩, address', size', name', evidence'⟩, label'⟩ := g
  cases hk
  cases hv
  rfl

namespace Shows

variable {m : Corpus} {fs new : List LabeledFunction}

theorem empty : Shows .empty [] := ⟨List.nodup_nil, fun _ => ⟨nofun, nofun⟩⟩

/-- One function goes to the place of its key. -/
theorem record (hs : Shows m fs) (f : LabeledFunction) :
    Shows (m.record f) (fs.filter (keyOf · != keyOf f) ++ [f]) := by
  constructor
  · rw [List.map_append, List.nodup_append]
    refine ⟨hs.nodup.sublist (List.filter_sublist.map _), List.nodup_singleton _, ?_⟩
    intro k hk k' hk' he
    obtain ⟨g, hg, rfl⟩ := List.mem_map.mp hk
    rw [List.map_singleton, List.mem_singleton] at hk'
    exact bne_iff_ne.mp (List.mem_filter.mp hg).2 (he.trans hk')
  · intro g
    rw [List.mem_append, List.mem_filter, List.mem_singleton, hs.mem_iff, bne_iff_ne]
    unfold Corpus.record
    by_cases hk : keyOf g = keyOf f
    · rw [if_pos hk]
      constructor
      · rintro (⟨-, hn⟩ | rfl)
        · exact absurd hk hn
        · rfl
      · intro hv
        exact Or.inr (eq_of_keyOf_factsOf hk (Option.some.inj hv).symm)
    · rw [if_neg hk]
      constructor
      · rintro (⟨hm, -⟩ | rfl)
        · exact hm
        · exact absurd rfl hk
      · exact fun hm => Or.inl ⟨hm, hk⟩

theorem drop (hs : Shows m fs) (b : Path) :
    Shows (m.drop b) (fs.filter (·.function.binaryPath.text != b.text)) := by
  refine ⟨hs.nodup.sublist (List.filter_sublist.map _), fun f => ?_⟩
  rw [List.mem_filter, hs.mem_iff, bne_iff_ne, Corpus.drop_eq_some, and_comm]
  rfl

theorem recordAll (hs : Shows m fs) (new : List LabeledFunction) :
    Shows (m.recordAll new)
      (new.foldl (fun fs f => fs.filter (keyOf · != keyOf f) ++ [f]) fs) := by
  induction new generalizing m fs with
  | nil => exact hs
  | cons f rest ih => exact ih (hs.record f)

theorem dropAll (hs : Shows m fs) (bs : List Path) :
    Shows (m.dropAll bs) (fs.filter (·.function.binaryPath.text ∉ bs.map Path.text)) := by
  induction bs generalizing m fs with
  | nil =>
    rw [List.map_nil, filter_notMem_nil]
    exact hs
  | cons b rest ih =>
    rw [List.map_cons, ← filter_notMem_cons]
    exact ih (hs.drop b)

/-- The functions of one binary are as many as its keys. -/
theorem countP_eq_ncard (hs : Shows m fs) (b : Path) :
    fs.countP (·.function.binaryPath.text == b.text) = (m.keysOf b).ncard := by
  have hkeys : m.keysOf b =
      {k | k ∈ (fs.filter (·.function.binaryPath.text == b.text)).map keyOf} := by
    ext k
    simp only [Corpus.keysOf, Set.mem_ofPred_eq, List.mem_map, List.mem_filter, beq_iff_eq]
    constructor
    · rintro ⟨hb, hm⟩
      obtain ⟨v, hv⟩ := Option.ne_none_iff_exists'.mp hm
      obtain ⟨path, address, name⟩ := k
      obtain ⟨size, evidence, label⟩ := v
      exact ⟨⟨⟨⟨path⟩, address, size, name, evidence⟩, label⟩, ⟨(hs.mem_iff _).mpr hv, hb⟩, rfl⟩
    · rintro ⟨f, ⟨hf, hb⟩, rfl⟩
      exact ⟨hb, by rw [(hs.mem_iff f).mp hf]; nofun⟩
  have hn : ((fs.filter (·.function.binaryPath.text == b.text)).map keyOf).Nodup :=
    hs.nodup.sublist (List.filter_sublist.map _)
  have hcard := Set.ncard_coe_finset
    ((fs.filter (·.function.binaryPath.text == b.text)).map keyOf).toFinset
  rw [List.coe_toFinset, List.toFinset_card_of_nodup hn, List.length_map] at hcard
  rw [hkeys, hcard, List.countP_eq_length_filter]

end Shows

/-! ## The map in the table of functions -/

theorem identity_ofLabeled_inj {f g : LabeledFunction} :
    (FunctionRow.ofLabeled f).identity = (FunctionRow.ofLabeled g).identity ↔ keyOf f = keyOf g := by
  have haddress : f.function.address.toInt64 = g.function.address.toInt64 ↔
      f.function.address = g.function.address := by
    refine ⟨fun h => ?_, congrArg _⟩
    rw [← UInt64.toUInt64_toInt64 f.function.address, h, UInt64.toUInt64_toInt64]
  simp only [FunctionRow.identity, FunctionRow.ofLabeled, keyOf, Prod.mk.injEq,
    FunctionKey.mk.injEq, haddress]

namespace Database

variable {m : Corpus} {fs : List LabeledFunction}

theorem replaceRow_ofLabeled (fs : List LabeledFunction) (f : LabeledFunction) :
    replaceRow (fs.map FunctionRow.ofLabeled) (.ofLabeled f) =
      (fs.filter (keyOf · != keyOf f) ++ [f]).map FunctionRow.ofLabeled := by
  unfold replaceRow
  rw [List.map_append, List.filter_map]
  refine congrArg (List.map FunctionRow.ofLabeled · ++ _) (List.filter_congr fun g _ => ?_)
  rw [Bool.eq_iff_iff, bne_iff_ne, Function.comp_apply, bne_iff_ne, Ne, identity_ofLabeled_inj]

theorem foldl_replaceRow_ofLabeled (fs new : List LabeledFunction) :
    (new.map FunctionRow.ofLabeled).foldl replaceRow (fs.map FunctionRow.ofLabeled) =
      (new.foldl (fun fs f => fs.filter (keyOf · != keyOf f) ++ [f]) fs).map
        FunctionRow.ofLabeled := by
  induction new generalizing fs with
  | nil => rfl
  | cons f rest ih =>
    rw [List.map_cons, List.foldl_cons, List.foldl_cons, replaceRow_ofLabeled]
    exact ih _

/-- The table of functions shows a map. -/
def Holds (db : Database) (m : Corpus) : Prop :=
  ∃ fs, db.functions = some (fs.map FunctionRow.ofLabeled) ∧ Shows m fs

variable {db : Database}

theorem Holds.insertFunctions (h : db.Holds m) (new : List LabeledFunction) :
    ∃ db', db.insertFunctions new = (.ok new.length, db') ∧ db'.Holds (m.recordAll new) ∧
      db'.version = db.version ∧ db'.runs = db.runs := by
  obtain ⟨fs, hf, hs⟩ := h
  refine ⟨_, insertFunctions_eq new hf, ⟨_, congrArg some ?_, hs.recordAll new⟩, rfl, rfl⟩
  exact foldl_replaceRow_ofLabeled fs new

theorem Holds.replaceFunctions (h : db.Holds m) (binaries : List Path)
    (new : List LabeledFunction) :
    ∃ db', db.replaceFunctions binaries new = (.ok new.length, db') ∧
      db'.Holds ((m.dropAll binaries).recordAll new) ∧
      db'.version = db.version ∧ db'.runs = db.runs := by
  obtain ⟨fs, hf, hs⟩ := h
  refine ⟨_, replaceFunctions_eq binaries new hf,
    ⟨_, congrArg some ?_, (hs.dropAll binaries).recordAll new⟩, rfl, rfl⟩
  rw [List.filter_map]
  exact foldl_replaceRow_ofLabeled _ new

theorem Holds.dropBinary (h : db.Holds m) (b : Path) :
    ∃ db', db.dropBinary b = .ok ((m.keysOf b).ncard, db') ∧ db'.Holds (m.drop b) ∧
      db'.version = db.version ∧ db'.runs = db.runs := by
  obtain ⟨fs, hf, hs⟩ := h
  have hkept : (fs.map FunctionRow.ofLabeled).filter (·.binaryPath != b.text) =
      (fs.filter (·.function.binaryPath.text != b.text)).map FunctionRow.ofLabeled := by
    rw [List.filter_map]
    rfl
  have hcount : (fs.map FunctionRow.ofLabeled).countP (·.binaryPath == b.text) =
      (m.keysOf b).ncard := by
    rw [List.countP_map, ← hs.countP_eq_ncard]
    rfl
  have hdrop := dropBinary_eq b hf
  rw [hcount, hkept] at hdrop
  exact ⟨_, hdrop, ⟨_, rfl, hs.drop b⟩, rfl, rfl⟩

/-- The listing shows the map, and that of one binary the part about it in the same order. -/
theorem Holds.listFunctions (h : db.Holds m) : ∃ fs, db.listFunctions none = .ok fs ∧ Shows m fs ∧
    ∀ b : Path, db.listFunctions (some b) =
      .ok (fs.filter (·.function.binaryPath.text == b.text)) := by
  obtain ⟨fs, hf, hs⟩ := h
  have hperm := List.mergeSort_perm fs listedUpTo
  refine ⟨_, listFunctions_eq hf, ⟨?_, fun f => ?_⟩, listFunctions_binary hf ?_⟩
  · exact ((hperm.map keyOf).nodup_iff).mpr hs.nodup
  · rw [hperm.mem_iff, hs.mem_iff]
  · rw [List.map_map]
    exact List.pairwise_map.mpr ((List.pairwise_map.mp hs.nodup).imp fun hne he =>
      hne (identity_ofLabeled_inj.mp he))

end Database

end CipherCorpus.Store
