import CipherCorpus.Command.Arguments
import CipherCorpus.Proofs.Command.Dataset
import CipherCorpus.Proofs.Command.Place
import CipherCorpus.Proofs.Dataset.InOrder
import CipherCorpus.Proofs.Dataset.Verify
import CipherCorpus.Proofs.Store.Reopen

/-!
# Functions are stored once

However often a dataset is built and labeled from one argument, its database has each function of a binary
once (`functions_are_stored_once`), when the argument settles on a directory:

    Commands o output start h  →  InOrder home start h       (InOrder.step, InOrder.commands)

Rows of a dataset in order are of paths under the canonical root, by names of entries, so two of them name
one file only when they are of the same path (`LiesUnder.eq_of_sameFile`).  An argument that gets its
canonical path only by the first build stores every function twice (`unsettled_root_stores_twice`).
-/

namespace CipherCorpus

open Command Dataset FileTree CipherCorpus.Path

/-- Two paths name one file. -/
def Host.SameFile (h : Host) (p q : Path) : Prop :=
  ∃ x y, h.files.resolve h.cwd true p = .ok x ∧ h.files.resolve h.cwd true q = .ok y ∧ x.key = y.key

/-- Libraries have names of entries, and no version, function or level holds a separator. -/
structure Config.NamesEntries (c : Config) : Prop where
  libraries : ∀ l ∈ c.libraries, IsEntryName l.name.toList
  versions : ∀ l ∈ c.libraries, ∀ v ∈ l.version, '/' ∉ v.toList
  functions : ∀ l ∈ c.libraries, ∀ f ∈ DatasetBuilder.functionsOf l, '/' ∉ f.toList
  levels : ∀ level ∈ c.levels, '/' ∉ level.toList

namespace Command

/-- Tools touch only the output they are given, and change no file when they are given none; what is
fetched is delivered. -/
structure Outside.Confined (o : Outside) : Prop where
  output : o.runner.TouchesOutput
  listing : ∀ call h answer h', "-o" ∉ call.arguments → Runs (o.runner call) h answer h' →
    ChangesFiles (fun _ => False) h h'
  fetcher : o.fetcher.Delivers

theorem Prepares.confined {o : Outside} {config output hash : String} {h : Host} {b : DatasetBuilder}
    (hp : Prepares o config output h hash b) (hc : o.Confined) : b.Confined (absolutePath h output) := by
  obtain ⟨settings, -, hb⟩ := hp.builder
  obtain ⟨registry, hprobe, rfl⟩ := builderOn_eq hb
  exact ⟨rfl, rfl, ⟨_, hprobe⟩, hc.output, hc.fetcher⟩

/-- What a configuration with proper names asks for has them. -/
theorem Prepares.entryNames {o : Outside} {config output hash : String} {h : Host} {b : DatasetBuilder}
    (hp : Prepares o config output h hash b) (hn : ∀ c, Config.load h ⟨config⟩ = .ok c → c.NamesEntries) :
    ∀ l ∈ b.config.libraries, b.compiler.EntryNames l := by
  obtain ⟨settings, hload, hb⟩ := hp.builder
  obtain ⟨registry, -, rfl⟩ := builderOn_eq hb
  have hnames := hn settings hload
  exact fun l hl => ⟨hnames.libraries l hl, hnames.versions l hl,
    List.forall_mem_append.mpr ⟨hnames.functions l hl, hnames.levels⟩⟩

/-- The argument settles on a directory with proper names all around. -/
structure Settled (h : Host) (output : String) (home : Key) : Prop where
  cwd : ∀ n ∈ h.cwd, IsEntryName n.toList
  clear : h.ClearAt home
  settles : Settles h output home

/-- A request that builds or labels the dataset of an argument. -/
inductive Stores (output : String) (h : Host) : Request → Prop
  | build {config : String} {withLabels : Bool}
      (names : ∀ c, Config.load h ⟨config⟩ = .ok c → c.NamesEntries) :
      Stores output h (.buildDataset config output withLabels)
  | label : Stores output h (.labelBinaries output)

/-- Commands for the dataset of one argument, one after the other, with time passing in between. -/
inductive Commands (o : Outside) (output : String) (start : Host) : Host → Prop
  | start : Commands o output start start
  | step {h h' : Host} {r : Request} {ended : Except Failure Unit × String}
      (before : Commands o output start h) (stores : Stores output h r)
      (runs : Runs (r.reportWith o).outcome h ended h') : Commands o output start h'
  | wait {h h' : Host} (before : Commands o output start h) (files : h'.files = h.files)
      (cwd : h'.cwd = h.cwd) : Commands o output start h'

end Command

namespace Dataset.InOrder

variable {o : Outside} {home : Key} {start h h' : Host} {output : String} {c : Store.Connection}

theorem recorded (ho : InOrder home start h) (hs : Serves home c) (hc : o.Confined)
    {built : Except BuildError (Manifest × Summary)} {hash startedAt : String}
    (hm : ∀ m s, built = .ok (m, s) → ∀ p ∈ m.binaries, LiesUnder (pathOf home) p)
    (hr : Recorded o c hash startedAt built h h') :
    InOrder home start h' ∧ ChangesFiles (· = home ++ ["corpus.db"]) h h' := by
  cases hr with
  | nothing => exact ⟨ho, .refl _ _⟩
  | failed hrun =>
    obtain ⟨ho1, hch, -⟩ := ho.insertRun hs hrun
    exact ⟨ho1, hch⟩
  | run hrun =>
    obtain ⟨ho1, hch, -⟩ := ho.insertRun hs hrun
    exact ⟨ho1, hch⟩
  | labels hrun hl =>
    obtain ⟨ho1, hch, hs1⟩ := ho.insertRun hs hrun
    obtain ⟨ho2, hch'⟩ := ho1.storeLabels (hs1 _ _ rfl) hc.listing (hm _ _ rfl) hl
    exact ⟨ho2, hch.trans hch'⟩

theorem path (ho : InOrder home start h) (hset : Settled start output home) :
    absolutePath h output = pathOf home :=
  absolutePath_of_settles hset.cwd hset.clear hset.settles ho.changed

theorem buildDataset (ho : InOrder home start h) (hset : Settled start output home) (hc : o.Confined)
    {config : String} {withLabels : Bool}
    (hn : ∀ c, Config.load h ⟨config⟩ = .ok c → c.NamesEntries) {x : Except Failure Unit}
    (hd : (Command.buildDataset o config output withLabels).Does h x h') : InOrder home start h' := by
  rcases buildDataset_cases hd with ⟨rfl, -⟩ | ⟨hash, b, hp, hrest⟩
  · exact ho
  · have hconfined := hp.confined hc
    rw [ho.path hset] at hconfined
    rw [hconfined.layout] at hrest
    rcases hrest with ⟨e, hopen⟩ | ⟨c, h1, built, h2, hopen, hbuild, hrec⟩
    · exact (ho.openDatabase hset.clear hopen).1
    · obtain ⟨ho1, hserves⟩ := ho.openDatabase hset.clear hopen
      obtain ⟨ho2, hm⟩ := ho1.build hset.clear hconfined (hp.entryNames hn) hbuild
      exact (ho2.recorded (hserves c rfl) hc hm hrec).1

theorem labelBinaries (ho : InOrder home start h) (hset : Settled start output home) (hc : o.Confined)
    {x : Except Failure Unit} (hd : (Command.labelBinaries o output).Does h x h') :
    InOrder home start h' := by
  obtain ⟨loaded, h0, hload, hrest⟩ := labelBinaries_cases hd
  rw [layoutOf, ho.path hset] at hload hrest
  obtain ⟨y, hmanifest, rfl⟩ := Attempt.runs_inWords.mp hload
  obtain ⟨rfl, hm⟩ := Manifest.holds_of_load (ho.leads hset.clear) ho.manifest hmanifest
  rcases hrest with rfl | ⟨m, he, ⟨e, hopen⟩ | ⟨c, h1, limit, y', hopen, hl⟩⟩
  · exact ho
  · exact (ho.openDatabase hset.clear hopen).1
  · obtain ⟨ho1, hserves⟩ := ho.openDatabase hset.clear hopen
    exact (ho1.storeLabels (hserves c rfl) hc.listing (hm m (Attempt.eq_ok_of_mapError he)) hl).1

/-- **Every command for the dataset keeps it in order**, however it ends. -/
theorem step (ho : InOrder home start h) (hset : Settled start output home) (hc : o.Confined)
    {r : Request} {ended : Except Failure Unit × String} (hr : Stores output h r)
    (hruns : Runs (r.reportWith o).outcome h ended h') : InOrder home start h' := by
  obtain ⟨x, text⟩ := ended
  cases hr with
  | build names => exact ho.buildDataset hset hc names (Report.does_of_outcome hruns)
  | label => exact ho.labelBinaries hset hc (Report.does_of_outcome hruns)

/-- A dataset is in order when the files are the same. -/
theorem of_files (ho : InOrder home start h) (hf : h'.files = h.files) (hcwd : h'.cwd = h.cwd) :
    InOrder home start h' := by
  refine ⟨⟨hcwd.trans ho.changed.cwd, ?_⟩, fun db x hg => ?_, fun body x m hg => ?_⟩
  · rw [hf]
    exact ho.changed.files
  · rw [hf] at hg
    exact ho.database db x hg
  · rw [hf] at hg
    exact ho.manifest body x m hg

/-- **Commands one after the other keep the dataset in order.** -/
theorem commands (ho : InOrder home start start) (hset : Settled start output home) (hc : o.Confined)
    (hruns : Commands o output start h) : InOrder home start h := by
  induction hruns with
  | start => exact ho
  | step _ stores runs ih => exact ih.step hset hc stores runs
  | wait _ files cwd ih => exact ih.of_files files cwd

end Dataset.InOrder

/-- Two paths under a canonical one that name one file are the same. -/
theorem LiesUnder.eq_of_sameFile {home : Key} {h : Host} {p q : Path} (hh : Home (pathOf home) home h)
    (hp : LiesUnder (pathOf home) p) (hq : LiesUnder (pathOf home) q) (hs : h.SameFile p q) : p = q := by
  obtain ⟨ns, hne, hn, rfl⟩ := hp
  obtain ⟨ms, hme, hm, rfl⟩ := hq
  obtain ⟨x, y, hx, hy, hkey⟩ := hs
  rw [hh.key_eq hn hne hx, hh.key_eq hm hme hy] at hkey
  rw [List.append_cancel_left hkey]

/-! ## Commands that can be computed -/

instance (h : Host) (p q : Path) : Decidable (h.SameFile p q) :=
  match hp : h.files.resolve h.cwd true p, hq : h.files.resolve h.cwd true q with
  | .ok x, .ok y => decidable_of_iff (x.key = y.key)
    ⟨fun he => ⟨x, y, hp, hq, he⟩, fun ⟨x', y', hx, hy, he⟩ => by
      cases hp.symm.trans hx
      cases hq.symm.trans hy
      exact he⟩
  | .error _, _ => isFalse fun ⟨_, _, hx, _, _⟩ => by cases hp.symm.trans hx
  | .ok _, .error _ => isFalse fun ⟨_, _, _, hy, _⟩ => by cases hq.symm.trans hy

instance (c : Config) : Decidable c.NamesEntries :=
  decidable_of_iff ((∀ l ∈ c.libraries, IsEntryName l.name.toList) ∧
      (∀ l ∈ c.libraries, ∀ v ∈ l.version.toList, '/' ∉ v.toList) ∧
      (∀ l ∈ c.libraries, ∀ f ∈ DatasetBuilder.functionsOf l, '/' ∉ f.toList) ∧
      ∀ level ∈ c.levels, '/' ∉ level.toList)
    ⟨fun ⟨hl, hv, hf, ho⟩ => ⟨hl, fun l hm v he => hv l hm v (Option.mem_toList.mpr he), hf, ho⟩,
      fun hc => ⟨hc.libraries, fun l hm v he => hc.versions l hm v (Option.mem_toList.mp he),
        hc.functions, hc.levels⟩⟩

namespace Command

/-- Whether a request is one for the dataset of `output`. -/
def stores (output : String) (h : Host) : Request → Bool
  | .buildDataset config out _ =>
    out == output && match Config.load h ⟨config⟩ with
      | .ok c => decide c.NamesEntries
      | .error _ => true
  | .labelBinaries out => out == output
  | _ => false

theorem stores_of_eq_true {output : String} {h : Host} {r : Request} (hs : stores output h r = true) :
    Stores output h r := by
  cases r with
  | buildDataset config out withLabels =>
    rw [stores, Bool.and_eq_true, beq_iff_eq] at hs
    obtain ⟨rfl, hs⟩ := hs
    refine .build fun c hc => ?_
    rw [hc] at hs
    exact of_decide_eq_true hs
  | labelBinaries out =>
    obtain rfl := eq_of_beq hs
    exact .label
  | _ => cases hs

/-- Whether requests for the dataset can be carried out, with rows in the end that pass a test. -/
def yieldsRows (o : Outside) (output : String) (p : Host → Host → List Store.FunctionRow → Bool) :
    List Request → Host → Bool
  | [], h =>
    match (Dataset.openDatabase (layoutOf h output)).outcome.run h with
    | .ok (.ok c, g) => (c.load g).functions.any (p h g)
    | _ => false
  | r :: rest, h =>
    stores output h r && match (r.reportWith o).outcome.run h with
      | .ok (_, h') => yieldsRows o output p rest h'
      | .error _ => false

theorem exists_of_yieldsRows {o : Outside} {output : String}
    {p : Host → Host → List Store.FunctionRow → Bool} {requests : List Request} {start h : Host}
    (before : Commands o output start h) (hy : yieldsRows o output p requests h = true) :
    ∃ h' c g rows, Commands o output start h' ∧
      Runs (Dataset.openDatabase (layoutOf h' output)).outcome h' (.ok c) g ∧
      (c.load g).functions = some rows ∧ p h' g rows = true := by
  induction requests generalizing h with
  | nil =>
    rw [yieldsRows] at hy
    split at hy
    · next c g hopen =>
      cases hrows : (c.load g).functions with
      | none =>
        rw [hrows] at hy
        cases hy
      | some rows =>
        rw [hrows] at hy
        exact ⟨h, c, g, rows, before, hopen, hrows, hy⟩
    · cases hy
  | cons r rest ih =>
    rw [yieldsRows, Bool.and_eq_true] at hy
    obtain ⟨hs, hy⟩ := hy
    split at hy
    · next hruns => exact ih (before.step (stores_of_eq_true hs) hruns) hy
    · cases hy

/-- A compiler that writes two prologues to its output; without an output it lists nothing. -/
def writesPrologues : Runner := fun call =>
  if "-o" ∈ call.arguments then Runner.writing (Prologue.pattern ++ Prologue.pattern) call
  else return .ok ⟨true, some 0, "", ""⟩

/-- That compiler, and addresses that deliver empty files. -/
def writesAndDelivers : Outside := ⟨writesPrologues, DatasetBuilder.deliverNothing⟩

theorem writesAndDelivers_confined : writesAndDelivers.Confined := by
  constructor
  · intro call h answer h' hr
    unfold writesAndDelivers writesPrologues at hr
    dsimp only at hr
    split at hr
    · exact Runner.writing_touches _ call h answer h' hr
    · obtain ⟨-, rfl⟩ := runs_pure.mp hr
      exact h'.touchesOnly_refl _
  · intro call h answer h' hnot hr
    unfold writesAndDelivers writesPrologues at hr
    dsimp only at hr
    rw [if_neg hnot] at hr
    obtain ⟨-, rfl⟩ := runs_pure.mp hr
    exact .refl _ _
  · exact DatasetBuilder.deliverNothing_delivers

/-- A host in the directory `w` with a cross compiler, a configuration and the sources it asks for. -/
def hostWithSources : Host :=
  ⟨⟨[(["bin"], .directory), (["bin", "riscv64-linux-gnu-gcc"], .file (.bytes []) true),
    (["w"], .directory), (["w", "c.json"], .file (.bytes (Text.bytesOf configuration)) false),
    (["w", "out"], .directory), (["w", "out", "sources"], .directory),
    (["w", "out", "sources", "a"], .directory),
    (["w", "out", "sources", "a", "f.c"], .file (.bytes []) false)]⟩,
    ["w"], [("PATH", "/bin")], ⟨0, 0⟩, "", 1, .empty⟩
where
  configuration : String :=
    "\x7b\"crypto_libraries\":[\x7b\"name\":\"a\",\"functions\":[\"f\"]\x7d],\"optimization_levels\":[\"-O0\"]\x7d"

theorem hostWithSources_clearAt : hostWithSources.ClearAt ["w", "out"] :=
  Host.clearAt_of_no_links (by decide) (by decide)

theorem hostWithSources_inOrder : InOrder ["w", "out"] hostWithSources hostWithSources :=
  .of_new (by decide) (by decide)

end Command

/-! ## Main result -/

/-- **A function is stored once.**  After any commands for a dataset, however they end, the argument has
the absolute path that it had before them, and no two rows of the database name the same file, address
and name. -/
theorem functions_are_stored_once {o : Outside} {start h : Host} {output : String} {home : Key}
    (hc : o.Confined) (hset : Settled start output home) (ho : InOrder home start start)
    (hruns : Commands o output start h) :
    absolutePath h output = absolutePath start output ∧
      ∀ c g rows, Runs (Dataset.openDatabase (layoutOf h output)).outcome h (.ok c) g →
        (c.load g).functions = some rows →
        rows.Pairwise fun r s => ¬ (g.SameFile ⟨r.binaryPath⟩ ⟨s.binaryPath⟩ ∧ r.address = s.address ∧
          r.name = s.name) := by
  have horder := ho.commands hset hc hruns
  refine ⟨(horder.path hset).trans (ho.path hset).symm, fun c g rows hopen hrows => ?_⟩
  rw [layoutOf, horder.path hset] at hopen
  obtain ⟨hg, hserves⟩ := horder.openDatabase hset.clear hopen
  obtain ⟨hkey, himage⟩ := hserves c rfl
  have hone := Store.Connection.load_of_fileHolds hkey hg.database himage
  refine (List.pairwise_map.mp (hone.nodup rows hrows)).imp_of_mem fun hr hs hne hsame => hne ?_
  obtain ⟨hfile, haddress, hname⟩ := hsame
  have hpath := LiesUnder.eq_of_sameFile (hg.leads hset.clear) (hone.paths rows hrows _ hr)
    (hone.paths rows hrows _ hs) hfile
  rw [Store.FunctionRow.identity, Store.FunctionRow.identity, Path.mk.inj hpath, haddress, hname]

/-- A dataset that is built and labeled twice from `./out` has its two functions once. -/
theorem dataset_built_twice_stores_once :
    let o := writesAndDelivers
    let start := hostWithSources
    o.Confined ∧ Settled start "./out" ["w", "out"] ∧ InOrder ["w", "out"] start start ∧
      ∃ h c g rows, Commands o "./out" start h ∧ absolutePath h "./out" = absolutePath start "./out" ∧
        Runs (Dataset.openDatabase (layoutOf h "./out")).outcome h (.ok c) g ∧
        (c.load g).functions = some rows ∧ rows.length = 2 ∧
        rows.Pairwise fun r s => ¬ (g.SameFile ⟨r.binaryPath⟩ ⟨s.binaryPath⟩ ∧ r.address = s.address ∧
          r.name = s.name) := by
  intro o start
  have hc : o.Confined := writesAndDelivers_confined
  have hset : Settled start "./out" ["w", "out"] :=
    ⟨by decide, hostWithSources_clearAt, Or.inr (by decide +kernel)⟩
  have ho : InOrder ["w", "out"] start start := hostWithSources_inOrder
  have hyields : yieldsRows o "./out" (fun _ _ rows => rows.length == 2) [.labelBinaries "./out",
      .buildDataset "c.json" "./out" true, .buildDataset "c.json" "./out" true] start = true := by
    simp -iota only [yieldsRows, Request.reportWith, Command.buildDataset, Dataset.openDatabase,
      Store.Connection.openAt_eq_openByVersion]
    decide +kernel
  obtain ⟨h, c, g, rows, hruns, hopen, hrows, htwo⟩ := exists_of_yieldsRows .start hyields
  obtain ⟨hpath, hone⟩ := functions_are_stored_once hc hset ho hruns
  exact ⟨hc, hset, ho, h, c, g, rows, hruns, hpath, hopen, hrows, eq_of_beq htwo, hone c g rows hopen hrows⟩

theorem unsettled_root_yields_twice :
    yieldsRows writesAndDelivers "x/../out" (fun h g rows =>
      decide (absolutePath h "x/../out" ≠ absolutePath hostWithSources "x/../out") &&
        decide (∃ r ∈ rows, ∃ s ∈ rows, r ≠ s ∧ g.SameFile ⟨r.binaryPath⟩ ⟨s.binaryPath⟩ ∧
          r.address = s.address ∧ r.name = s.name))
      [.buildDataset "c.json" "x/../out" true, .buildDataset "c.json" "x/../out" true] hostWithSources = true := by
  simp -iota only [yieldsRows, Request.reportWith, Command.buildDataset, Dataset.openDatabase,
    Store.Connection.openAt_eq_openByVersion]
  decide +kernel

/-- From `x/../out` each function is stored twice when `x` is not there at first: the first build makes
it, and only then the argument has a canonical path. -/
theorem unsettled_root_stores_twice :
    let o := writesAndDelivers
    let start := hostWithSources
    o.Confined ∧ start.ClearAt ["w", "out"] ∧ InOrder ["w", "out"] start start ∧
      ∃ h c g rows, Commands o "x/../out" start h ∧
        absolutePath h "x/../out" ≠ absolutePath start "x/../out" ∧
        Runs (Dataset.openDatabase (layoutOf h "x/../out")).outcome h (.ok c) g ∧
        (c.load g).functions = some rows ∧
        ∃ r ∈ rows, ∃ s ∈ rows, r ≠ s ∧ g.SameFile ⟨r.binaryPath⟩ ⟨s.binaryPath⟩ ∧
          r.address = s.address ∧ r.name = s.name := by
  intro o start
  obtain ⟨h, c, g, rows, hruns, hopen, hrows, hp⟩ := exists_of_yieldsRows .start unsettled_root_yields_twice
  simp only [Bool.and_eq_true, decide_eq_true_eq] at hp
  exact ⟨writesAndDelivers_confined, hostWithSources_clearAt, hostWithSources_inOrder, h, c, g, rows,
    hruns, hp.1, hopen, hrows, hp.2⟩

end CipherCorpus
