import CipherCorpus.Proofs.Dataset.Evidence
import CipherCorpus.Proofs.Dataset.GroundTruth
import CipherCorpus.Proofs.Symbols.Listing

/-!
# How many functions are stored

Storing labels answers how many rows were put in, one after the other, and a row that replaces one of the
same call counts as well.  So the answer is never below what is listed afterwards for the binaries of the
manifest, and it is the same number exactly when no function was recovered twice
(`stored_count_eq_listed_iff`):

    n = listed rows  ↔  no path, address and name twice among the recovered functions

What the listing tool gives, and what is guessed from prologues, repeats nothing
(`ListingTool.nodup_recoverFunctions`), so with the tool a manifest without repeated paths is counted right.
The reader of ELF files gives a repeated symbol as often as it stands in the file.
-/

namespace CipherCorpus

open Store

/-! ## Functions of one binary -/

/-- What a function is stored under. -/
def FoundFunction.key (f : FoundFunction) : FunctionKey := ⟨f.binaryPath.text, f.address, f.name⟩

/-- Guessed functions have different names. -/
theorem Prologue.nodup_functions (data : List UInt8) (b : Path) :
    ((functions data b).map fun f => (f.address, f.name)).Nodup := by
  refine List.Nodup.of_map Prod.snd ?_
  rw [List.map_map]
  exact nodup_names data b

/-- With the listing tool no address and name is recovered twice from one binary. -/
theorem ListingTool.nodup_recoverFunctions (t : ListingTool) {b : Path} {h h' : Host} {fs : List FoundFunction}
    (hr : Runs (recoverFunctions t.read b) h fs h') : (fs.map fun f => (f.address, f.name)).Nodup := by
  have hguess : ∀ {g g' : Host}, Runs (Prologue.read b) g fs g' → (fs.map fun f => (f.address, f.name)).Nodup := by
    intro g g' hp
    obtain ⟨data, h1, -, hp⟩ := runs_bind.mp hp
    cases data with
    | ok data =>
      obtain ⟨rfl, -⟩ := runs_pure.mp hp
      exact Prologue.nodup_functions data b
    | error e =>
      obtain ⟨rfl, -⟩ := runs_pure.mp hp
      exact List.nodup_nil
  obtain ⟨symbols, h1, hs, hr⟩ := runs_bind.mp hr
  obtain ⟨answer, h2, -, hs⟩ := runs_bind.mp hs
  cases answer with
  | error e =>
    rw [(runs_pure.mp hs).1] at hr
    exact hguess hr
  | ok output =>
    dsimp only at hs
    split at hs
    · have hlisting := Symbols.nodup_ofListing output.stdout.toList b
      rw [(runs_pure.mp hs).1] at hr
      cases hfs : Symbols.ofListing output.stdout.toList b with
      | nil =>
        rw [hfs] at hr
        exact hguess hr
      | cons f more =>
        rw [hfs] at hr hlisting
        rw [(runs_pure.mp hr).1]
        exact hlisting
    · rw [(runs_pure.mp hs).1] at hr
      exact hguess hr

/-! ## Keys that are stored -/

namespace Dataset

open Store Database

variable {reader : SymbolSource} {l : Labeler} {m : Manifest} {bs : List Path} {h h' : Host}
  {found : List (Path × List FoundFunction)}

theorem keys_labelFound (l : Labeler) (found : List (Path × List FoundFunction)) :
    (labelFound l found).map keyOf = (found.flatMap (·.2)).map FoundFunction.key := by
  unfold labelFound Labeler.labelAll
  rw [List.map_flatMap, List.map_flatMap]
  simp only [List.map_map]
  rfl

/-- Different binaries without repeated addresses and names have different keys. -/
theorem nodup_keys_of_found (hn : (found.map Prod.fst).Nodup)
    (hb : ∀ e ∈ found, ∀ f ∈ e.2, f.binaryPath = e.1)
    (hfs : ∀ e ∈ found, (e.2.map fun f => (f.address, f.name)).Nodup) :
    ((found.flatMap (·.2)).map FoundFunction.key).Nodup := by
  rw [List.map_flatMap, List.nodup_flatMap]
  constructor
  · intro e he
    refine List.Nodup.of_map (fun k : FunctionKey => (k.address, k.name)) ?_
    rw [List.map_map]
    exact hfs e he
  · refine (List.pairwise_map.mp hn).imp_of_mem fun {e e'} he he' hne k hk hk' => hne ?_
    obtain ⟨f, hf, rfl⟩ := List.mem_map.mp hk
    obtain ⟨f', hf', hkey⟩ := List.mem_map.mp hk'
    rw [← hb e he f hf, ← hb e' he' f' hf']
    exact congrArg Path.mk (congrArg FunctionKey.binaryPath hkey).symm

theorem length_latest_eq_iff {α κ : Type} [DecidableEq κ] {key : α → κ} {as : List α} :
    as.length = (latest key as).length ↔ (as.map key).Nodup := by
  rw [eq_comm, (latest_sublist as).length_eq, latest, List.pwFilter_eq_self, List.Nodup, List.pairwise_map]

/-- Elements that belong to different places are counted place by place. -/
theorem sum_length_filter {α : Type} (place : α → String) {ps : List Path} (hn : ps.Nodup) {as : List α}
    (hmem : ∀ a ∈ as, ∃ p ∈ ps, place a = p.text) :
    (ps.map fun p => (as.filter (place · == p.text)).length).sum = as.length := by
  induction ps generalizing as with
  | nil =>
    cases as with
    | nil => rfl
    | cons a rest =>
      obtain ⟨p, hp, -⟩ := hmem a List.mem_cons_self
      cases hp
  | cons p rest ih =>
    obtain ⟨hp, hn⟩ := List.nodup_cons.mp hn
    have hsame : ∀ q ∈ rest, (as.filter (place · == q.text)).length =
        ((as.filter fun a => !(place a == p.text)).filter (place · == q.text)).length := by
      intro q hq
      rw [List.filter_filter]
      refine congrArg List.length (List.filter_congr fun a _ => ?_)
      by_cases ha : place a = q.text
      · have hne : q.text ≠ p.text := fun he => by
          have heq : q = p := congrArg Path.mk he
          exact hp (heq ▸ hq)
        simp [ha, hne]
      · simp [ha]
    have hrest := ih hn fun a (ha : a ∈ as.filter fun a => !(place a == p.text)) => by
      obtain ⟨ha, hne⟩ := List.mem_filter.mp ha
      obtain ⟨q, hq, he⟩ := hmem a ha
      rcases List.mem_cons.mp hq with rfl | hq
      · simp [he] at hne
      · exact ⟨q, hq, he⟩
    rw [List.map_cons, List.sum_cons, List.map_congr_left hsame, hrest]
    exact (List.length_eq_length_filter_add (place · == p.text)).symm

/-! ## Main result -/

/-- **The number that storing labels answers.**  It is the number of functions that are listed afterwards
for the binaries of the manifest exactly when no function is recovered twice. -/
theorem stored_count_eq_listed_iff {c c' : Connection} {n : ℕ} (hb : reader.IsBuiltIn)
    (hr : Runs (storeLabels reader m c).outcome h (.ok (n, c')) h') :
    ∃ (found : List (Path × List FoundFunction)) (h1 : Host) (listing : Path → List LabeledFunction),
      Runs (recoverAll reader m.binaries) h found h1 ∧
      (∀ b ∈ m.binaries, Runs (c'.query (listFunctions (some b))).outcome h' (.ok (listing b)) h') ∧
      (m.binaries.dedup.map fun b => (listing b).length).sum ≤ n ∧
      (n = (m.binaries.dedup.map fun b => (listing b).length).sum ↔
        ((found.flatMap (·.2)).map FoundFunction.key).Nodup) ∧
      ∀ t : ListingTool, reader = t.read → m.binaries.Nodup →
        n = (m.binaries.dedup.map fun b => (listing b).length).sum := by
  obtain ⟨labeled, h1, db, hl, hrep, rfl, rfl⟩ := runs_storeLabels_ok.mp hr
  have hmem := binary_mem_of_labelBinaries hb.namesBinary hl
  obtain ⟨found, hfound, rfl⟩ := runs_labelBinaries.mp hl
  have hat := fun {b} (hb : b ∈ m.binaries) => rowsAt_replaced hrep hb
  obtain ⟨rows, hrows⟩ := functions_of_transact hrep
  rw [replaceFunctions_of_named hrows hmem] at hrep
  cases hrep
  set labeled := labelFound (Labeler.ofManifest m) found with hlabeled
  have hsum : (m.binaries.dedup.map fun b =>
      ((latest keyOf (labeled.filter (·.function.binaryPath.text == b.text))).mergeSort listedUpTo).length).sum =
      (latest keyOf labeled).length := by
    rw [← sum_length_filter (·.function.binaryPath.text) m.binaries.nodup_dedup
      fun f (hf : f ∈ latest keyOf labeled) => ?_]
    · refine congrArg List.sum (List.map_congr_left fun b _ => ?_)
      rw [List.length_mergeSort, filter_latest fun f g he => ?_]
      rw [show f.function.binaryPath.text = g.function.binaryPath.text from congrArg FunctionKey.binaryPath he]
    · exact ⟨_, List.mem_dedup.mpr (hmem f ((latest_sublist labeled).subset hf)), rfl⟩
  have hiff : labeled.length = (latest keyOf labeled).length ↔
      ((found.flatMap (·.2)).map FoundFunction.key).Nodup := by
    rw [length_latest_eq_iff, hlabeled, keys_labelFound]
  refine ⟨found, h1, fun b => (latest keyOf (labeled.filter (·.function.binaryPath.text == b.text))).mergeSort
    listedUpTo, hfound, fun b hb => Connection.runs_query.mpr ⟨?_, rfl⟩, ?_, ?_, ?_⟩
  · rw [Connection.load_written, listFunctions_of_rowsAt rfl (hat hb)]
    rfl
  · rw [hsum]
    exact (latest_sublist labeled).length_le
  · rw [hsum]
    exact hiff
  · rintro t rfl hn
    rw [hsum]
    refine hiff.mpr (nodup_keys_of_found ?_ (binaryPath_of_recoverAll hb.namesBinary hfound)
      (forall_mem_of_recoverAll t.nodup_recoverFunctions hfound))
    rw [map_fst_of_recoverAll hfound]
    exact hn

/-- A reader that leaves the host alone stores what it gives in an empty database. -/
theorem exists_stored_of_still (reader : SymbolSource) (m : Manifest) (h : Host) (answer : Path → List FoundFunction)
    (hr : ∀ b ∈ m.binaries, Runs (recoverFunctions reader b) h (answer b) h) :
    ∃ (c' : Connection) (listing : Path → List LabeledFunction),
      Runs (storeLabels reader m ⟨none, ⟨2, some [], some []⟩⟩).outcome h
        (.ok ((m.binaries.flatMap fun b => (Labeler.ofManifest m).labelAll b (answer b)).length, c')) h ∧
      ∀ b ∈ m.binaries, Runs (c'.query (listFunctions (some b))).outcome h (.ok (listing b)) h ∧
        (listing b).length = (latest keyOf ((m.binaries.flatMap fun b =>
          (Labeler.ofManifest m).labelAll b (answer b)).filter (·.function.binaryPath.text == b.text))).length := by
  have hl := runs_labelBinaries_of_still (l := .ofManifest m) hr
  have hrep := replaceFunctions_rows m.binaries (m.binaries.flatMap fun b => (Labeler.ofManifest m).labelAll b (answer b))
    (show Database.functions ⟨2, some [], some []⟩ = some [] from rfl)
  refine ⟨_, fun b => List.mergeSort _ listedUpTo, runs_storeLabels_ok.mpr ⟨_, h, _, hl, hrep, rfl, rfl⟩,
    fun b hb => ⟨Connection.runs_query.mpr ⟨?_, rfl⟩, List.length_mergeSort _⟩⟩
  exact (congrArg (Except.mapError DatabaseError.engine)
    (listFunctions_of_rowsAt rfl (rowsAt_replaced hrep hb))).symm

/-- Of two rows with one address and name the listing tool gives the first. -/
theorem repeated_row_counts_once :
    let m := Manifest.empty.add "lib" [⟨"lib", "f", "x86", "-O2", "gcc", ⟨"/b"⟩, ⟨"/s.c"⟩, 0, ""⟩]
    let tool := listsAlways "1: 10 4 FUNC GLOBAL DEFAULT 1 f\n2: 10 8 FUNC GLOBAL DEFAULT 1 f"
    let c : Connection := ⟨none, ⟨2, some [], some []⟩⟩
    SymbolSource.IsBuiltIn tool.read ∧ m.binaries.Nodup ∧ ∃ c' listed,
      Runs (storeLabels tool.read m c).outcome (hostWithBinary []) (.ok (1, c')) (hostWithBinary []) ∧
      Runs (c'.query (listFunctions (some ⟨"/b"⟩))).outcome (hostWithBinary []) (.ok listed) (hostWithBinary []) ∧
      1 = listed.length := by
  intro m tool c
  have hm : m.binaries = [⟨"/b"⟩] := by decide +kernel
  have hn : m.binaries.Nodup := hm ▸ List.nodup_singleton _
  obtain ⟨c', -, hstored, -⟩ := exists_stored_of_still tool.read m (hostWithBinary [])
    (fun b => [⟨b, 16, some 4, "f", .symbol⟩]) (by
      rw [hm]
      exact List.forall_mem_singleton.mpr rfl)
  obtain ⟨found, h1, listing, -, hlisting, -, -, hsame⟩ := stored_count_eq_listed_iff (.tool tool) hstored
  have hcount := hsame tool rfl hn
  rw [hm] at hstored hlisting hcount
  exact ⟨.tool tool, hn, c', listing ⟨"/b"⟩, hstored, hlisting _ (List.mem_singleton_self _), hcount⟩

/-- An ELF file with two symbols of one address and name, of sizes four and eight. -/
def twoSizes : List UInt8 :=
  let symbol (size : UInt8) : List UInt8 := [1, 0, 0, 0, 16, 0, 0, 0, size, 0, 0, 0, 18, 0, 1, 0]
  let header : List UInt8 := [0x7f, 0x45, 0x4c, 0x46, 1, 1, 1] ++ .replicate 9 0 ++ [1, 0, 3, 0, 1, 0, 0, 0] ++
    .replicate 8 0 ++ [88, 0, 0, 0, 0, 0, 0, 0, 52, 0, 0, 0, 0, 0, 40, 0, 3, 0, 2, 0]
  let symbolSection : List UInt8 := [0, 0, 0, 0, 2, 0, 0, 0] ++ .replicate 8 0 ++
    [56, 0, 0, 0, 32, 0, 0, 0, 2, 0, 0, 0, 0, 0, 0, 0, 4, 0, 0, 0, 16, 0, 0, 0]
  let nameSection : List UInt8 := [0, 0, 0, 0, 3, 0, 0, 0] ++ .replicate 8 0 ++
    [52, 0, 0, 0, 3, 0, 0, 0, 0, 0, 0, 0, 0, 0, 0, 0, 1, 0, 0, 0, 0, 0, 0, 0]
  header ++ [0, 102, 0, 0] ++ symbol 4 ++ symbol 8 ++ .replicate 40 0 ++ symbolSection ++ nameSection

/-- A repeated symbol counts twice, and so does the binary of two entries. -/
theorem repeated_functions_count_twice :
    let artifact (function : String) : Artifact := ⟨"lib", function, "x86", "-O2", "gcc", ⟨"/b"⟩, ⟨"/s.c"⟩, 0, ""⟩
    let one := Manifest.empty.add "lib" [artifact "f"]
    let two := Manifest.empty.add "lib" [artifact "f", artifact "g"]
    let tool := listsAlways "1: 10 4 FUNC GLOBAL DEFAULT 1 f"
    let c : Connection := ⟨none, ⟨2, some [], some []⟩⟩
    one.binaries.dedup = [⟨"/b"⟩] ∧ two.binaries.dedup = [⟨"/b"⟩] ∧
      (∃ c' row, Runs (storeLabels Elf.read one c).outcome (hostWithBinary twoSizes) (.ok (2, c'))
          (hostWithBinary twoSizes) ∧
        Runs (c'.query (listFunctions (some ⟨"/b"⟩))).outcome (hostWithBinary twoSizes) (.ok [row])
          (hostWithBinary twoSizes)) ∧
      ∃ c' row, Runs (storeLabels tool.read two c).outcome (hostWithBinary []) (.ok (2, c')) (hostWithBinary []) ∧
        Runs (c'.query (listFunctions (some ⟨"/b"⟩))).outcome (hostWithBinary []) (.ok [row]) (hostWithBinary []) := by
  intro artifact one two tool c
  have hone : one.binaries = [⟨"/b"⟩] := by decide +kernel
  have htwo : two.binaries = [⟨"/b"⟩, ⟨"/b"⟩] := by decide +kernel
  refine ⟨by rw [hone]; rfl, by rw [htwo]; rfl, ?_, ?_⟩
  · have hread : (hostWithBinary twoSizes).read ⟨"/b"⟩ = .ok twoSizes := by decide +kernel
    let answer : Path → List FoundFunction := fun b => [⟨b, 16, some 4, "f", .symbol⟩, ⟨b, 16, some 8, "f", .symbol⟩]
    have hsymbols : Elf.functions? twoSizes ⟨"/b"⟩ = some (answer ⟨"/b"⟩) := by decide +kernel
    obtain ⟨c', listing, hstored, hlisted⟩ := exists_stored_of_still Elf.read one (hostWithBinary twoSizes) answer
      (by
        rw [hone, List.forall_mem_singleton]
        exact runs_bind.mpr ⟨_, _, runs_bind.mpr ⟨_, _, runs_inspect.mpr ⟨hread.symm, rfl⟩,
          runs_pure.mpr ⟨hsymbols.symm, rfl⟩⟩, runs_pure.mpr ⟨rfl, rfl⟩⟩)
    obtain ⟨hquery, hlength⟩ := hlisted ⟨"/b"⟩ (by rw [hone]; exact List.mem_singleton_self _)
    obtain ⟨row, hrow⟩ := List.length_eq_one_iff.mp (hlength.trans (by rw [hone]; decide +kernel))
    rw [hone] at hstored
    exact ⟨c', row, hstored, hrow ▸ hquery⟩
  · let answer : Path → List FoundFunction := fun b => [⟨b, 16, some 4, "f", .symbol⟩]
    obtain ⟨c', listing, hstored, hlisted⟩ := exists_stored_of_still tool.read two (hostWithBinary []) answer
      (by
        rw [htwo]
        exact List.forall_mem_cons.mpr ⟨rfl, List.forall_mem_singleton.mpr rfl⟩)
    obtain ⟨hquery, hlength⟩ := hlisted ⟨"/b"⟩ (by rw [htwo]; exact List.mem_cons_self)
    obtain ⟨row, hrow⟩ := List.length_eq_one_iff.mp (hlength.trans (by rw [htwo]; decide +kernel))
    rw [htwo] at hstored
    exact ⟨c', row, hstored, hrow ▸ hquery⟩

end Dataset

end CipherCorpus
