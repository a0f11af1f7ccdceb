import CipherCorpus.Proofs.Dataset.Labeling
import CipherCorpus.Proofs.Symbols.Prologue

/-!
# Symbols and guesses never mix

A reader of the library gives symbols, each with a size (`SymbolSource.IsBuiltIn.isSymbol`), and functions are
guessed only where it gives none, each named for its address (`Prologue.isGuess_of_mem`).  So what is read from
one binary is all of one kind (`kind_of_labels`), and a call that stores labels replaces all that is stored
under the paths it reads:

    functions after = functions of other paths ++ latest labels

Hence one call keeps `Unmixed` (`Unmixed.replaced`), and so does every sequence of calls on a database that is
empty at first (`symbols_and_guesses_never_mix`), whatever becomes of the binaries between the calls.
-/

namespace CipherCorpus

/-! ## The two kinds of functions -/

namespace FoundFunction

/-- From a symbol table, with a size. -/
structure IsSymbol (f : FoundFunction) : Prop where
  evidence : f.evidence = .symbol
  size : f.size.isSome

/-- From a prologue, with no size and named for its address. -/
structure IsGuess (f : FoundFunction) : Prop where
  evidence : f.evidence = .heuristic
  size : f.size = none
  name : f.name = "sub_" ++ String.ofList (Nat.toDigits 16 f.address.toNat)

/-- Of the kind that the evidence says. -/
def IsOf (f : FoundFunction) : Evidence → Prop
  | .symbol => f.IsSymbol
  | .heuristic => f.IsGuess

variable {f : FoundFunction} {e : Evidence}

theorem IsOf.evidence_eq (h : f.IsOf e) : f.evidence = e := by
  cases e with
  | symbol => exact h.evidence
  | heuristic => exact h.evidence

theorem IsOf.size_iff (h : f.IsOf e) : f.size.isSome ↔ f.evidence = .symbol := by
  cases e with
  | symbol => exact iff_of_true h.size h.evidence
  | heuristic => exact iff_of_false (by simp [h.size]) (by simp [h.evidence])

theorem IsOf.name_eq (h : f.IsOf e) (hh : f.evidence = .heuristic) :
    f.name = "sub_" ++ String.ofList (Nat.toDigits 16 f.address.toNat) := by
  cases h.evidence_eq.symm.trans hh
  exact h.name

end FoundFunction

/-! ## Readers -/

namespace SymbolSource

/-- A reader of the library: the listing tool under any runner, or the reader of ELF files. -/
inductive IsBuiltIn : SymbolSource → Prop
  | tool (t : ListingTool) : IsBuiltIn t.read
  | elf : IsBuiltIn Elf.read

/-- What a reader answers for some binaries, one after the other: the same whenever it is asked for the same
path.  Files are no longer than addresses reach. -/
inductive Answers (reader : SymbolSource) (answer : Path → Option (List FoundFunction)) :
    List Path → Host → Host → Prop
  | done {h} : Answers reader answer [] h h
  | next {b rest h h1 h2} : Runs (reader b) h (answer b) h1 →
      (∀ data, h1.read b = .ok data → data.length ≤ UInt64.size) →
      Answers reader answer rest h1 h2 → Answers reader answer (b :: rest) h h2

variable {reader : SymbolSource} {b : Path} {h h' : Host} {fs : List FoundFunction}

theorem IsBuiltIn.namesBinary (hb : reader.IsBuiltIn) : reader.NamesBinary := by
  cases hb with
  | tool t => exact t.namesBinary
  | elf => exact Elf.namesBinary

/-- All that a reader gives are symbols. -/
theorem IsBuiltIn.isSymbol (hb : reader.IsBuiltIn) (hr : Runs (reader b) h (some fs) h') :
    ∀ f ∈ fs, f.IsSymbol := by
  intro f hf
  cases hb with
  | tool t =>
    obtain ⟨answer, h1, -, hr⟩ := runs_bind.mp hr
    cases answer with
    | error e => cases (runs_pure.mp hr).1
    | ok output =>
      dsimp only at hr
      split at hr <;> cases (runs_pure.mp hr).1
      obtain ⟨r, -, rfl⟩ := List.mem_map.mp hf
      exact ⟨rfl, rfl⟩
  | elf =>
    obtain ⟨data, h1, -, hr⟩ := runs_bind.mp hr
    cases data with
    | error e => cases (runs_pure.mp hr).1
    | ok data =>
      obtain ⟨names, s, hs⟩ := Elf.function?_of_mem (runs_pure.mp hr).1.symm hf
      rw [Elf.function?_eq_some hs]
      exact ⟨rfl, rfl⟩

end SymbolSource

/-- Functions that are guessed are named for their addresses. -/
theorem Prologue.isGuess_of_mem {data : List UInt8} {b : Path} (hlen : data.length ≤ UInt64.size)
    {f : FoundFunction} (hf : f ∈ functions data b) : f.IsGuess := by
  obtain ⟨i, hi, rfl⟩ := List.mem_map.mp hf
  refine ⟨rfl, rfl, ?_⟩
  rw [UInt64.toNat_ofNat_of_lt' (Nat.lt_of_lt_of_le (lt_of_mem_offsets hi) hlen)]
  rfl

/-- The kind of all functions of a binary, by what the reader answers for it. -/
def evidenceOf : Option (List FoundFunction) → Evidence
  | some (_ :: _) => .symbol
  | _ => .heuristic

theorem kind_of_recoverFunctions {reader : SymbolSource} (hb : reader.IsBuiltIn) {b : Path} {h h1 h' : Host}
    {fs : List FoundFunction} {answer : Option (List FoundFunction)} (ha : Runs (reader b) h answer h1)
    (hlen : ∀ data, h1.read b = .ok data → data.length ≤ UInt64.size)
    (hr : Runs (recoverFunctions reader b) h fs h') : h' = h1 ∧ ∀ f ∈ fs, f.IsOf (evidenceOf answer) := by
  obtain ⟨symbols, h2, hs, hr⟩ := runs_bind.mp hr
  obtain ⟨rfl, rfl⟩ := Runs.unique hs ha
  have hguess : Runs (Prologue.read b) h2 fs h' → h' = h2 ∧ ∀ f ∈ fs, f.IsGuess := by
    intro hr
    refine ⟨(Prologue.runs_read hr).1, ?_⟩
    obtain ⟨data, h3, hi, hr⟩ := runs_bind.mp hr
    obtain ⟨rfl, rfl⟩ := runs_inspect.mp hi
    cases hd : h3.read b with
    | ok data =>
      rw [hd] at hr
      cases (runs_pure.mp hr).1
      exact fun f hf => Prologue.isGuess_of_mem (hlen data hd) hf
    | error e =>
      rw [hd] at hr
      cases (runs_pure.mp hr).1
      nofun
  match symbols with
  | some (f :: more) =>
    obtain ⟨rfl, rfl⟩ := runs_pure.mp hr
    exact ⟨rfl, hb.isSymbol ha⟩
  | some [] => exact hguess hr
  | none => exact hguess hr

namespace Dataset

variable {reader : SymbolSource} {answer : Path → Option (List FoundFunction)} {l : Labeler} {bs : List Path}
  {h h' h1 : Host} {labeled fs : List LabeledFunction}

/-- The labeled functions of one path are of one kind. -/
theorem kind_of_labels (hb : reader.IsBuiltIn) (ha : reader.Answers answer bs h h1)
    (hr : Runs (labelBinaries reader l bs) h labeled h') :
    h' = h1 ∧ ∀ f ∈ labeled, f.function.IsOf (evidenceOf (answer f.function.binaryPath)) := by
  induction ha generalizing labeled with
  | done =>
    obtain ⟨rfl, rfl⟩ := runs_pure.mp hr
    exact ⟨rfl, nofun⟩
  | @next b rest h g h2 hread hlen hrest ih =>
    rw [labelBinaries, runs_bind] at hr
    simp only [runs_bind, runs_pure] at hr
    obtain ⟨found, g', hfound, more, h3, hmore, rfl, rfl⟩ := hr
    obtain ⟨rfl, hkind⟩ := kind_of_recoverFunctions hb hread hlen hfound
    obtain ⟨rfl, hmore⟩ := ih hmore
    refine ⟨rfl, List.forall_mem_append.mpr ⟨fun f hf => ?_, hmore⟩⟩
    obtain ⟨g, hg, rfl⟩ := List.mem_map.mp hf
    rw [hb.namesBinary.recoverFunctions hfound g hg]
    exact hkind g hg

/-! ## One call -/

/-- The functions stored under one path are all of one kind, those with a size are the symbols, and a guess is
named for its address. -/
structure Unmixed (fs : List LabeledFunction) : Prop where
  evidence : ∀ f ∈ fs, ∀ g ∈ fs, f.function.binaryPath = g.function.binaryPath →
    f.function.evidence = g.function.evidence
  size : ∀ f ∈ fs, f.function.size.isSome ↔ f.function.evidence = .symbol
  name : ∀ f ∈ fs, f.function.evidence = .heuristic →
    f.function.name = "sub_" ++ String.ofList (Nat.toDigits 16 f.function.address.toNat)

open Store Database

/-- Functions of one kind for each path take the place of all functions of some paths. -/
theorem Unmixed.replaced (hu : Unmixed fs) (hbs : ∀ f ∈ labeled, f.function.binaryPath ∈ bs)
    (hkind : ∀ f ∈ labeled, f.function.IsOf (evidenceOf (answer f.function.binaryPath))) :
    Unmixed (fs.filter (·.function.binaryPath ∉ bs) ++ latest keyOf labeled) := by
  have hold : ∀ f ∈ fs.filter (·.function.binaryPath ∉ bs), f ∈ fs ∧ f.function.binaryPath ∉ bs := by
    intro f hf
    obtain ⟨hf, hn⟩ := List.mem_filter.mp hf
    exact ⟨hf, of_decide_eq_true hn⟩
  have hnew : ∀ f ∈ latest keyOf labeled, f ∈ labeled := (latest_sublist labeled).subset
  constructor
  case evidence =>
    intro f hf g hg he
    rcases List.mem_append.mp hf with hf | hf <;> rcases List.mem_append.mp hg with hg | hg
    · exact hu.evidence f (hold f hf).1 g (hold g hg).1 he
    · exact absurd (he ▸ hbs g (hnew g hg)) (hold f hf).2
    · exact absurd (he ▸ hbs f (hnew f hf)) (hold g hg).2
    · rw [(hkind f (hnew f hf)).evidence_eq, (hkind g (hnew g hg)).evidence_eq, he]
  case size =>
    intro f hf
    rcases List.mem_append.mp hf with hf | hf
    · exact hu.size f (hold f hf).1
    · exact (hkind f (hnew f hf)).size_iff
  case name =>
    intro f hf
    rcases List.mem_append.mp hf with hf | hf
    · exact hu.name f (hold f hf).1
    · exact (hkind f (hnew f hf)).name_eq

/-- A database whose functions do not mix. -/
def HoldsUnmixed (db : Database) : Prop := ∃ fs, db.functions = some (fs.map .ofLabeled) ∧ Unmixed fs

theorem filter_binaries (fs : List LabeledFunction) (bs : List Path) :
    (fs.map FunctionRow.ofLabeled).filter (·.binaryPath ∉ bs.map Path.text) =
      (fs.filter (·.function.binaryPath ∉ bs)).map FunctionRow.ofLabeled := by
  rw [List.filter_map]
  refine congrArg _ (List.filter_congr fun f _ => ?_)
  have hmem : (FunctionRow.ofLabeled f).binaryPath ∈ bs.map Path.text ↔ f.function.binaryPath ∈ bs :=
    List.mem_map_of_injective fun p q he => congrArg Path.mk he
  exact decide_eq_decide.mpr (not_congr hmem)

/-- A call on a database whose functions do not mix stores labels, and they do not mix afterwards. -/
theorem storeLabels_keeps_unmixed {m : Manifest} {c : Connection} {r : Except DatabaseError (Nat × Connection)}
    (hu : HoldsUnmixed (c.load h)) (hb : reader.IsBuiltIn) (ha : reader.Answers answer m.binaries h h1)
    (hc : c.load h1 = c.load h) (hr : Runs (storeLabels reader m c).outcome h r h') :
    ∃ n c', r = .ok (n, c') ∧ HoldsUnmixed (c'.load h') := by
  obtain ⟨fs, hf, hu⟩ := hu
  unfold storeLabels at hr
  obtain ⟨labeled, h2, hl, hr⟩ := Attempt.runs_ofAction_bind.mp hr
  obtain ⟨rfl, hkind⟩ := kind_of_labels hb ha hl
  have hbs := binary_mem_of_labelBinaries hb.namesBinary hl
  have hrep := replaceFunctions_of_named (hc ▸ hf) hbs
  obtain ⟨rfl, rfl⟩ := Runs.unique hr (Connection.runs_transact_ok.mpr ⟨_, hrep, rfl, rfl⟩)
  refine ⟨_, _, rfl, fs.filter (·.function.binaryPath ∉ m.binaries) ++ latest keyOf labeled, ?_,
    hu.replaced hbs hkind⟩
  rw [Connection.load_written, List.map_append, ← filter_binaries]

/-! ## Sequences of calls -/

/-- The states of a database without functions at first, after some calls that store labels. -/
inductive Labelings : Connection → Host → Prop
  | start {c h} : (c.load h).functions = some [] → Labelings c h
  /-- Between two calls anything changes but what the database holds; it may have been opened again. -/
  | between {c h c' h'} : Labelings c h → c'.load h' = c.load h → Labelings c' h'
  /-- A call for any manifest, during which the reader answers the same for the same path. -/
  | call {c h c' h' h1} {reader : SymbolSource} {answer : Path → Option (List FoundFunction)} {m : Manifest}
      {n : Nat} : Labelings c h → reader.IsBuiltIn → reader.Answers answer m.binaries h h1 →
      c.load h1 = c.load h → Runs (storeLabels reader m c).outcome h (.ok (n, c')) h' → Labelings c' h'

/-- **Symbols and guesses never mix**: after every sequence of calls the functions stored under one path are all
symbols or all guesses, those with a size are the symbols, and a guess is named for its address; no further
call fails. -/
theorem symbols_and_guesses_never_mix {c : Connection} (hs : Labelings c h) :
    (∃ fs, (c.load h).functions = some (fs.map .ofLabeled) ∧ Unmixed fs) ∧
    ∀ (reader : SymbolSource) (answer : Path → Option (List FoundFunction)) (m : Manifest) (h1 h' : Host)
      (r : Except DatabaseError (Nat × Connection)), reader.IsBuiltIn → reader.Answers answer m.binaries h h1 →
      c.load h1 = c.load h → Runs (storeLabels reader m c).outcome h r h' → ∃ n c', r = .ok (n, c') := by
  have hu : HoldsUnmixed (c.load h) := by
    induction hs with
    | start he => exact ⟨[], he, nofun, nofun, nofun⟩
    | between _ hl ih => exact hl ▸ ih
    | call _ hb ha hc hr ih =>
      obtain ⟨n, c', hok, hu⟩ := storeLabels_keeps_unmixed ih hb ha hc hr
      cases hok
      exact hu
  refine ⟨hu, fun reader answer m h1 h' r hb ha hc hr => ?_⟩
  obtain ⟨n, c', hok, -⟩ := storeLabels_keeps_unmixed hu hb ha hc hr
  exact ⟨n, c', hok⟩

/-- A host with one file. -/
def hostWithBinary (data : List UInt8) : Host :=
  ⟨⟨[(["b"], .file (.bytes data) false)]⟩, [], [], ⟨0, 0⟩, "", 1, .empty⟩

/-- A listing tool that always gives the same listing. -/
def listsAlways (listing : String) : ListingTool :=
  ⟨fun _ => return .ok ⟨true, some 0, listing, ""⟩, "readelf", ⟨30, 0⟩⟩

/-- A binary with symbols is labeled, then stripped and labeled again. -/
theorem stripped_binary_has_guesses_alone :
    let m := Manifest.empty.add "lib" [⟨"lib", "f", "x86", "-O2", "gcc", ⟨"/b"⟩, ⟨"/s.c"⟩, 0, ""⟩]
    let tool := listsAlways "1: 10 4 FUNC GLOBAL DEFAULT 1 f\n2: 20 0x8 FUNC GLOBAL DEFAULT 1 g"
    let before := hostWithBinary [0]
    let after := hostWithBinary [0x55, 0x89, 0xe5, 0, 0x55, 0x89, 0xe5]
    ∃ c c', Runs (storeLabels tool.read m ⟨none, ⟨2, some [], some []⟩⟩).outcome before (.ok (2, c)) before ∧
      Runs (storeLabels Elf.read m c).outcome after (.ok (2, c')) after ∧ Labelings c' after ∧
      ((c.load before).functions.getD []).map (·.name) = ["f", "g"] ∧
      ((c'.load after).functions.getD []).map (·.name) = ["sub_0", "sub_4"] ∧
      ∃ fs, (c'.load after).functions = some (fs.map .ofLabeled) ∧ Unmixed fs := by
  intro m tool before after
  let b : Path := ⟨"/b"⟩
  let symbols : List FoundFunction := [⟨b, 0x10, some 4, "f", .symbol⟩, ⟨b, 0x20, some 8, "g", .symbol⟩]
  let guesses : List FoundFunction := [⟨b, 0, none, "sub_0", .heuristic⟩, ⟨b, 4, none, "sub_4", .heuristic⟩]
  have hb : m.binaries = [b] := by decide +kernel
  have hread : Runs (tool.read b) before (some symbols) before := rfl
  have hsymbols : Runs (recoverFunctions tool.read b) before symbols before := rfl
  have hdata : after.read b = .ok [0x55, 0x89, 0xe5, 0, 0x55, 0x89, 0xe5] := by decide +kernel
  have hread' : Runs (Elf.read b) after none after :=
    runs_bind.mpr ⟨_, after, runs_inspect.mpr ⟨hdata.symm, rfl⟩, runs_pure.mpr ⟨by decide +kernel, rfl⟩⟩
  have hguesses : Runs (recoverFunctions Elf.read b) after guesses after :=
    runs_bind.mpr ⟨none, after, hread', runs_bind.mpr ⟨_, after, runs_inspect.mpr ⟨hdata.symm, rfl⟩,
      runs_pure.mpr ⟨by decide +kernel, rfl⟩⟩⟩
  -- both calls store what is read
  have hlabels : ∀ (reader : SymbolSource) (h : Host) (found : List FoundFunction),
      Runs (recoverFunctions reader b) h found h →
        Runs (labelManifest reader m) h ((Labeler.ofManifest m).labelAll b found) h := by
    intro reader h found hr
    unfold labelManifest
    rw [hb]
    refine runs_labelBinaries.mpr ⟨[(b, found)], ?_, (List.append_nil _).symm⟩
    exact runs_recoverAll_cons.mpr ⟨found, h, [], hr, runs_pure.mpr ⟨rfl, rfl⟩, rfl⟩
  let empty : Database := ⟨2, some [], some []⟩
  let first := (empty.replaceFunctions m.binaries ((Labeler.ofManifest m).labelAll b symbols)).2
  let second := (first.replaceFunctions m.binaries ((Labeler.ofManifest m).labelAll b guesses)).2
  have hfirst : Runs (storeLabels tool.read m ⟨none, empty⟩).outcome before (.ok (2, ⟨none, first⟩)) before :=
    runs_storeLabels_ok.mpr ⟨_, _, _, hlabels _ _ _ hsymbols, Prod.ext (by decide +kernel) rfl, rfl, rfl⟩
  have hsecond : Runs (storeLabels Elf.read m ⟨none, first⟩).outcome after (.ok (2, ⟨none, second⟩)) after :=
    runs_storeLabels_ok.mpr ⟨_, _, _, hlabels _ _ _ hguesses, Prod.ext (by decide +kernel) rfl, rfl, rfl⟩
  -- the history of the two calls
  have hstart : Labelings ⟨none, empty⟩ before := .start rfl
  have hasked : tool.read.Answers (fun _ => some symbols) m.binaries before before := by
    rw [hb]
    refine .next hread (fun data hd => ?_) .done
    rw [show before.read b = .ok [0] by decide +kernel] at hd
    cases hd
    decide
  have hasked' : SymbolSource.Answers Elf.read (fun _ => none) m.binaries after after := by
    rw [hb]
    refine .next hread' (fun data hd => ?_) .done
    rw [hdata] at hd
    cases hd
    decide
  have hstripped : Labelings ⟨none, first⟩ after := .between (.call hstart (.tool tool) hasked rfl hfirst) rfl
  have hlabelings : Labelings ⟨none, second⟩ after := .call hstripped .elf hasked' rfl hsecond
  exact ⟨_, _, hfirst, hsecond, hlabelings, by decide +kernel, by decide +kernel,
    (symbols_and_guesses_never_mix hlabelings).1⟩

end Dataset

end CipherCorpus
