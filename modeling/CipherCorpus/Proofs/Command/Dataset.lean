import CipherCorpus.Command.Dataset
import CipherCorpus.Proofs.Command.Report
import CipherCorpus.Proofs.Store.Connection

/-!
# What the commands about a dataset do

A build that gets as far as a database builds, and leaves in the database nothing, its run, or its run and
its labels (`Recorded`).  Labeling that gets as far as a database stores labels of the binaries of the
manifest.  In between the commands only look at the host and print.
-/

namespace CipherCorpus.Command

open Report

variable {o : Outside} {h h' : Host}

/-! ## Steps of the commands -/

namespace Report.Does

theorem ofOutcome_bind {α β : Type} {y : Except Failure α} {k : α → Report β} {x : Except Failure β}
    (hd : Does (Command.ofOutcome y >>= k) h x h') :
    (h' = h ∧ (∃ e, x = .error e) ∧ ∀ a, y ≠ .ok a) ∨ ∃ a, y = .ok a ∧ Does (k a) h x h' := by
  have hpure : ∀ {z g}, Does (Command.ofOutcome y) h z g → z = y ∧ g = h := by
    rintro z g ⟨lines, lines', hr⟩
    obtain ⟨he, rfl⟩ := runs_pure.mp hr
    cases he
    exact ⟨rfl, rfl⟩
  rcases hd.bind with ⟨a, h1, ha, hk⟩ | ⟨e, he, hx⟩
  · obtain ⟨rfl, rfl⟩ := hpure ha
    exact Or.inr ⟨a, rfl, hk⟩
  · obtain ⟨rfl, rfl⟩ := hpure he
    exact Or.inl ⟨rfl, ⟨e, hx⟩, nofun⟩

theorem onDatabase {α : Type} {text : String} {a : Attempt Store.DatabaseError α} {x : Except Failure α}
    (hd : Does (Command.onDatabase text a) h x h') :
    ∃ y, Runs a.outcome h y h' ∧ ∀ v, x = .ok v → y = .ok v := by
  obtain ⟨y, hr, rfl⟩ := Attempt.runs_inWords.mp hd.perform
  exact ⟨y, hr, fun v => Attempt.eq_ok_of_mapError⟩

/-- A query leaves the host alone. -/
theorem query_bind {α β : Type} {text : String} {c : Store.Connection}
    {f : Store.Database → Except Store.Fault α} {k : α → Report β} {x : Except Failure β}
    (hd : Does (Command.onDatabase text (c.query f) >>= k) h x h') : h' = h ∨ ∃ a, Does (k a) h x h' := by
  rcases hd.bind with ⟨a, h1, hq, hk⟩ | ⟨e, hq, -⟩
  · obtain ⟨y, hq, -⟩ := hq.onDatabase
    obtain ⟨-, rfl⟩ := Store.Connection.runs_query.mp hq
    exact Or.inr ⟨a, hk⟩
  · obtain ⟨y, hq, -⟩ := hq.onDatabase
    exact Or.inl (Store.Connection.runs_query.mp hq).2

theorem tellSummary {s : Dataset.Summary} {x : Except Failure Unit}
    (hd : Does (Command.tellSummary s) h x h') : h' = h := by
  rcases hd.tell_bind.tell_bind.tell_bind.tell_bind.forIn_bind fun _ _ _ _ _ hl => hl.tell_bind.pure.2
    with rfl | ⟨u, hk⟩
  · rfl
  · exact hk.tell.2

end Report.Does

theorem builderOn_eq {settings : Config} {root : Path} {b : DatasetBuilder}
    (hb : builderOn o h settings root = .ok b) :
    ∃ registry, Registry.probe (Tools.hasCompiler h) = .ok registry ∧
      b = ⟨settings, .ofRoot root, ⟨(Layout.ofRoot root).sources, o.fetcher⟩,
        ⟨registry, o.runner, settings.compileSettings⟩⟩ := by
  unfold builderOn at hb
  split at hb
  · cases hb
  · next registry hp =>
    cases hb
    exact ⟨registry, hp, rfl⟩

theorem prints_ofOutcome {α : Type} (a : α) (h : Host) : (ofOutcome (.ok a)).Prints h [] a h := prints_pure a h

/-- The summary of a build is printed as it is. -/
theorem prints_tellSummary (s : Dataset.Summary) (h : Host) : ∃ lines, (tellSummary s).Prints h lines () h := by
  have hline := fun line => prints_tell line h
  obtain ⟨lines, u, hlibraries⟩ := exists_prints_forIn (h := h) (l := s.libraries)
    (f := fun l _ => do
      tell (s!"  - {l.name} [{statusText l.status}] functions={l.functions} " ++
        s!"succeeded={l.succeeded} failed={l.failed} missing_source={l.missingSource}")
      pure (ForInStep.yield PUnit.unit))
    (fun l u => ⟨_, _, (hline _).bind (prints_pure _ h)⟩) PUnit.unit
  exact ⟨_, (hline _).bind ((hline _).bind ((hline _).bind ((hline _).bind (hlibraries.bind (hline _)))))⟩

/-- What a build leaves in the database: nothing when it fails on something else than its libraries, else
a run, and the labels of the binaries if they are asked for. -/
inductive Recorded (o : Outside) (c : Store.Connection) (hash startedAt : String) :
    Except BuildError (Manifest × Dataset.Summary) → Host → Host → Prop
  | nothing {e : BuildError} {h : Host} (he : e ≠ .noLibrariesBuilt) :
      Recorded o c hash startedAt (.error e) h h
  | failed {h h' : Host} {y} (hr : Runs (c.update (Store.Database.insertRun
      (Dataset.failedRun (some hash) startedAt h.date))).outcome h y h') :
      Recorded o c hash startedAt (.error .noLibrariesBuilt) h h'
  | run {m : Manifest} {s : Dataset.Summary} {h h' : Host} {y}
      (hr : Runs (c.update (Store.Database.insertRun (s.run (some hash)))).outcome h y h') :
      Recorded o c hash startedAt (.ok (m, s)) h h'
  | labels {m : Manifest} {s : Dataset.Summary} {id : Int64} {c' : Store.Connection} {h h1 h' : Host}
      {limit : Duration} {y}
      (hr : Runs (c.update (Store.Database.insertRun (s.run (some hash)))).outcome h (.ok (id, c')) h1)
      (hl : Runs (Dataset.storeLabels (o.lister h1 limit) m c').outcome h1 y h') :
      Recorded o c hash startedAt (.ok (m, s)) h h'

theorem recordBuild_cases {b : DatasetBuilder} {hash startedAt : String} {withLabels : Bool}
    {c : Store.Connection} {built : Except BuildError (Manifest × Dataset.Summary)}
    {x : Except Failure Unit} (hd : (recordBuild o b hash withLabels c startedAt built).Does h x h') :
    Recorded o c hash startedAt built h h' := by
  cases built with
  | error e =>
    cases e with
    | noLibrariesBuilt =>
      rcases hd.look_bind.bind with ⟨u, h1, hrun, ht⟩ | ⟨e, hrun, -⟩
      · obtain ⟨y, hrun, -⟩ := hrun.onDatabase
        obtain ⟨-, rfl⟩ := ht.throw
        exact .failed hrun
      · obtain ⟨y, hrun, -⟩ := hrun.onDatabase
        exact .failed hrun
    | toolchain e =>
      obtain ⟨-, rfl⟩ := hd.throw
      exact .nothing nofun
    | manifest e =>
      obtain ⟨-, rfl⟩ := hd.throw
      exact .nothing nofun
    | files p e =>
      obtain ⟨-, rfl⟩ := hd.throw
      exact .nothing nofun
  | ok result =>
    rcases hd.bind with ⟨⟨id, c'⟩, h1, hrun, hrest⟩ | ⟨e, hrun, -⟩
    · obtain ⟨y, hrun, hy⟩ := hrun.onDatabase
      obtain rfl := hy _ rfl
      rcases hrest.bind with ⟨u, h2, ht, hlabels⟩ | ⟨e, ht, -⟩
      · obtain rfl := ht.tellSummary
        have hlabels := hlabels.tell_bind
        split at hlabels
        · rcases hlabels.look_bind.bind with ⟨v, h3, hl, hprint⟩ | ⟨e, hl, -⟩
          · obtain ⟨y, hl, -⟩ := hl.onDatabase
            obtain ⟨-, rfl⟩ := hprint.tell
            exact .labels hrun hl
          · obtain ⟨y, hl, -⟩ := hl.onDatabase
            exact .labels hrun hl
        · obtain ⟨-, rfl⟩ := hlabels.pure
          exact .run hrun
      · obtain rfl := ht.tellSummary
        exact .run hrun
    · obtain ⟨y, hrun, -⟩ := hrun.onDatabase
      exact .run hrun

/-- A build with labels that succeeds has built, and has recorded its run and then the labels. -/
theorem recordBuild_labels {b : DatasetBuilder} {hash startedAt : String} {c : Store.Connection}
    {built : Except BuildError (Manifest × Dataset.Summary)}
    (hd : (recordBuild o b hash true c startedAt built).Does h (.ok ()) h') :
    ∃ m s id c1 h1 n c2, built = .ok (m, s) ∧
      Runs (c.update (Store.Database.insertRun (s.run (some hash)))).outcome h (.ok (id, c1)) h1 ∧
      Runs (Dataset.storeLabels (o.lister h1 b.config.symbolLimit) m c1).outcome h1 (.ok (n, c2)) h' := by
  cases built with
  | error e =>
    cases e with
    | noLibrariesBuilt =>
      rcases hd.look_bind.bind with ⟨u, h1, -, ht⟩ | ⟨e, -, he⟩
      · cases ht.throw.1
      · cases he
    | toolchain e => cases hd.throw.1
    | manifest e => cases hd.throw.1
    | files p e => cases hd.throw.1
  | ok result =>
    rcases hd.bind with ⟨⟨id, c1⟩, h1, hrun, hrest⟩ | ⟨e, -, he⟩
    · obtain ⟨y, hrun, hy⟩ := hrun.onDatabase
      obtain rfl := hy _ rfl
      rcases hrest.bind with ⟨u, h2, ht, hlabels⟩ | ⟨e, -, he⟩
      · obtain rfl := ht.tellSummary
        rcases hlabels.tell_bind.look_bind.bind with ⟨⟨n, c2⟩, h3, hl, hprint⟩ | ⟨e, -, he⟩
        · obtain ⟨y, hl, hy⟩ := hl.onDatabase
          obtain rfl := hy _ rfl
          obtain ⟨-, rfl⟩ := hprint.tell
          exact ⟨_, _, id, c1, _, n, c2, rfl, hrun, hl⟩
        · cases he
      · cases he
    · cases he

/-- A build finds a sound configuration and has what builds. -/
structure Prepares (o : Outside) (config output : String) (h : Host) (hash : String) (b : DatasetBuilder) :
    Prop where
  builder : ∃ settings, Config.load h ⟨config⟩ = .ok settings ∧
    builderOn o h settings (absolutePath h output) = .ok b
  hash : fileHash h ⟨config⟩ = .ok hash

/-- A build fails before it is prepared, or it opens a database, builds and goes on to record. -/
theorem buildDataset_steps {config output : String} {withLabels : Bool} {x : Except Failure Unit}
    (hd : (buildDataset o config output withLabels).Does h x h') :
    (h' = h ∧ (∃ e, x = .error e) ∧ ∀ hash b, ¬ Prepares o config output h hash b) ∨
    ∃ hash b, Prepares o config output h hash b ∧
      ((∃ e, Runs (Dataset.openDatabase b.layout).outcome h (.error e) h' ∧ x = .error e) ∨
        ∃ c h1 built h2, Runs (Dataset.openDatabase b.layout).outcome h (.ok c) h1 ∧
          Runs b.build.outcome h1 built h2 ∧
          (recordBuild o b hash withLabels c h1.date built).Does h2 x h') := by
  rcases hd.look_bind.ofOutcome_bind with ⟨rfl, hx, hno⟩ | ⟨settings, hload, hd⟩
  · refine Or.inl ⟨rfl, hx, fun _ _ hp => ?_⟩
    obtain ⟨settings, hload, -⟩ := hp.builder
    exact hno settings (by rw [hload]; rfl)
  have hload := Attempt.eq_ok_of_mapError hload
  rcases hd.look_bind.ofOutcome_bind with ⟨rfl, hx, hno⟩ | ⟨hash, hhash, hd⟩
  · exact Or.inl ⟨rfl, hx, fun hash _ hp => hno hash hp.hash⟩
  rcases hd.look_bind.look_bind.ofOutcome_bind with ⟨rfl, hx, hno⟩ | ⟨b, hb, hd⟩
  · refine Or.inl ⟨rfl, hx, fun _ b hp => hno b ?_⟩
    obtain ⟨settings', hload', hb⟩ := hp.builder
    cases hload.symm.trans hload'
    exact hb
  refine Or.inr ⟨hash, b, ⟨⟨settings, hload, hb⟩, hhash⟩, ?_⟩
  rcases hd.bind with ⟨c, h1, hopen, hd⟩ | ⟨e, hopen, hx⟩
  · obtain ⟨built, h2, hbuild, hrecord⟩ := hd.look_bind.act_bind
    exact Or.inr ⟨c, h1, built, h2, hopen.perform, hbuild, hrecord⟩
  · exact Or.inl ⟨e, hopen.perform, hx⟩

/-- A build that succeeds was prepared, has opened its database and has built. -/
theorem buildDataset_ok {config output : String} {withLabels : Bool}
    (hd : (buildDataset o config output withLabels).Does h (.ok ()) h') :
    ∃ hash b c h1 built h2, Prepares o config output h hash b ∧
      Runs (Dataset.openDatabase b.layout).outcome h (.ok c) h1 ∧ Runs b.build.outcome h1 built h2 ∧
      (recordBuild o b hash withLabels c h1.date built).Does h2 (.ok ()) h' := by
  rcases buildDataset_steps hd with ⟨-, ⟨e, he⟩, -⟩ | ⟨hash, b, hp, ⟨e, -, he⟩ | ⟨c, h1, built, h2, hrest⟩⟩
  · cases he
  · cases he
  · exact ⟨hash, b, c, h1, built, h2, hp, hrest⟩

/-- A build ends before it is prepared, or it opens a database, builds and records. -/
theorem buildDataset_cases {config output : String} {withLabels : Bool} {x : Except Failure Unit}
    (hd : (buildDataset o config output withLabels).Does h x h') :
    (h' = h ∧ ∀ hash b, ¬ Prepares o config output h hash b) ∨
    ∃ hash b, Prepares o config output h hash b ∧
      ((∃ e, Runs (Dataset.openDatabase b.layout).outcome h (.error e) h') ∨
        ∃ c h1 built h2, Runs (Dataset.openDatabase b.layout).outcome h (.ok c) h1 ∧
          Runs b.build.outcome h1 built h2 ∧ Recorded o c hash h1.date built h2 h') := by
  rcases buildDataset_steps hd with
    ⟨rfl, -, hno⟩ | ⟨hash, b, hp, ⟨e, hfail, -⟩ | ⟨c, h1, built, h2, hopen, hbuild, hrecord⟩⟩
  · exact Or.inl ⟨rfl, hno⟩
  · exact Or.inr ⟨hash, b, hp, Or.inl ⟨e, hfail⟩⟩
  · exact Or.inr ⟨hash, b, hp, Or.inr ⟨c, h1, built, h2, hopen, hbuild, recordBuild_cases hrecord⟩⟩

theorem Prepares.layout {config output hash : String} {b : DatasetBuilder} (hp : Prepares o config output h hash b) :
    b.layout = .ofRoot (absolutePath h output) := by
  obtain ⟨settings, -, hb⟩ := hp.builder
  obtain ⟨registry, -, rfl⟩ := builderOn_eq hb
  rfl

/-- There is one way to be prepared. -/
theorem Prepares.unique {config output hash hash' : String} {b b' : DatasetBuilder}
    (hp : Prepares o config output h hash b) (hp' : Prepares o config output h hash' b') :
    hash = hash' ∧ b = b' := by
  obtain ⟨⟨settings, hload, hb⟩, hhash⟩ := hp
  obtain ⟨⟨settings', hload', hb'⟩, hhash'⟩ := hp'
  cases hload.symm.trans hload'
  cases hhash.symm.trans hhash'
  cases hb.symm.trans hb'
  exact ⟨rfl, rfl⟩

/-- A build that was prepared, has opened its database and has built goes on to record. -/
theorem Report.Does.recordBuild {config output hash : String} {withLabels : Bool} {b : DatasetBuilder}
    {c : Store.Connection} {built : Except BuildError (Manifest × Dataset.Summary)} {h1 h2 : Host}
    {x : Except Failure Unit} (hd : (buildDataset o config output withLabels).Does h x h')
    (hp : Prepares o config output h hash b) (hopen : Runs (Dataset.openDatabase b.layout).outcome h (.ok c) h1)
    (hbuild : Runs b.build.outcome h1 built h2) :
    (Command.recordBuild o b hash withLabels c h1.date built).Does h2 x h' := by
  rcases buildDataset_steps hd with ⟨-, -, hno⟩ | ⟨hash', b', hp', hrest⟩
  · exact absurd hp (hno hash b)
  obtain ⟨rfl, rfl⟩ := hp.unique hp'
  rcases hrest with ⟨e, hfail, -⟩ | ⟨c', h1', built', h2', hopen', hbuild', hrecord⟩
  · cases (hopen.unique hfail).1
  obtain ⟨he, rfl⟩ := hopen.unique hopen'
  cases he
  obtain ⟨rfl, rfl⟩ := hbuild.unique hbuild'
  exact hrecord

/-- A build without labels succeeds when it is prepared, its database is opened, some library is built and its
run is recorded. -/
theorem exists_buildDataset {config output hash : String} {b : DatasetBuilder} {c c1 : Store.Connection}
    {h1 h2 : Host} {m : Manifest} {s : Dataset.Summary} {id : Int64} (hp : Prepares o config output h hash b)
    (hopen : Runs (Dataset.openDatabase b.layout).outcome h (.ok c) h1)
    (hbuild : Runs b.build.outcome h1 (.ok (m, s)) h2)
    (hrun : Runs (c.update (Store.Database.insertRun (s.run (some hash)))).outcome h2 (.ok (id, c1)) h') :
    ∃ said, Runs (buildDataset o config output false).outcome h (.ok (), said) h' := by
  obtain ⟨⟨settings, hload, hb⟩, hhash⟩ := hp
  obtain ⟨lines, hsummary⟩ := prints_tellSummary s h'
  have hrecord : (recordBuild o b hash false c h1.date (.ok (m, s))).Prints h2
      (lines ++ [s!"  Run id: {id} ({(s.run (some hash)).status.name})"]) () h' :=
    (prints_perform (Attempt.runs_inWords.mpr ⟨_, hrun, rfl⟩)).andThen
      (hsummary.bind ((prints_tell _ h').bind (prints_pure () h')))
  have hbuilt : (act b.build.outcome >>= recordBuild o b hash false c h1.date).Prints h1 _ () h' :=
    (prints_act hbuild).andThen hrecord
  have hconfig : (look fun g => (Config.load g ⟨config⟩).mapError fun e =>
      Failure.under s!"Failed to load dataset config {config}" ⟨e.causes⟩).Prints h [] (.ok settings) h := by
    have hlook := prints_look (fun g => (Config.load g ⟨config⟩).mapError fun e =>
      Failure.under s!"Failed to load dataset config {config}" ⟨e.causes⟩) h
    rwa [hload] at hlook
  have hhash : (look (fileHash · ⟨config⟩)).Prints h [] (.ok hash) h := hhash ▸ prints_look (fileHash · ⟨config⟩) h
  have hbuilder : (look (builderOn o · settings (absolutePath h output))).Prints h [] (.ok b) h :=
    hb ▸ prints_look (builderOn o · settings (absolutePath h output)) h
  have hall : (buildDataset o config output false).Prints h
      (lines ++ [s!"  Run id: {id} ({(s.run (some hash)).status.name})"]) () h' := by
    refine hconfig.andThen ((prints_ofOutcome settings h).andThen ?_)
    refine hhash.andThen ((prints_ofOutcome hash h).andThen ?_)
    refine (prints_look (absolutePath · output) h).andThen (hbuilder.andThen ((prints_ofOutcome b h).andThen ?_))
    exact (prints_perform hopen).andThen ((prints_look (·.date) h1).andThen hbuilt)
  exact ⟨_, hall.runs_outcome⟩

theorem runs_ofRoot {root : Path} {m : Manifest} {c : Store.Connection} {h1 : Host}
    (hload : Runs (Dataset.loadManifest (.ofRoot root)).outcome h (.ok m) h)
    (hopen : Runs (Dataset.openDatabase (.ofRoot root)).outcome h (.ok c) h1) :
    Runs (Dataset.Context.ofRoot root).outcome h (.ok ⟨.ofRoot root, m, c⟩) h1 :=
  Attempt.runs_bind.mpr (Or.inl ⟨m, h, hload,
    Attempt.runs_bind.mpr (Or.inl ⟨c, h1, hopen, runs_pure.mpr ⟨rfl, rfl⟩⟩)⟩)

/-- Opening a dataset loads its manifest, and then opens its database. -/
theorem ofRoot_cases {root : Path} {r : Except Failure Dataset.Context}
    (hr : Runs (Dataset.Context.ofRoot root).outcome h r h') :
    ∃ loaded h0, Runs (Dataset.loadManifest (.ofRoot root)).outcome h loaded h0 ∧
      (h' = h0 ∧ (∀ context, r ≠ .ok context) ∨ ∃ m opened, loaded = .ok m ∧
        Runs (Dataset.openDatabase (.ofRoot root)).outcome h0 opened h' ∧
        r = opened.map (⟨.ofRoot root, m, ·⟩)) := by
  rcases Attempt.runs_bind.mp hr with ⟨m, h0, hm, hrest⟩ | ⟨e, hm, rfl⟩
  · refine ⟨.ok m, h0, hm, Or.inr ⟨m, ?_⟩⟩
    rcases Attempt.runs_bind.mp hrest with ⟨c, h1, hopen, hp⟩ | ⟨e, hopen, rfl⟩
    · obtain ⟨rfl, rfl⟩ := runs_pure.mp hp
      exact ⟨.ok c, rfl, hopen, rfl⟩
    · exact ⟨.error e, rfl, hopen, rfl⟩
  · exact ⟨.error e, h', hm, Or.inl ⟨rfl, nofun⟩⟩

/-- Labeling ends before it has a database, or opens one and stores labels of the binaries of the
manifest. -/
theorem labelBinaries_cases {output : String} {x : Except Failure Unit}
    (hd : (labelBinaries o output).Does h x h') :
    ∃ loaded h0, Runs (Dataset.loadManifest (layoutOf h output)).outcome h loaded h0 ∧
      (h' = h0 ∨ ∃ m, loaded = .ok m ∧
        ((∃ e, Runs (Dataset.openDatabase (layoutOf h output)).outcome h0 (.error e) h') ∨
          ∃ c h1 limit y, Runs (Dataset.openDatabase (layoutOf h output)).outcome h0 (.ok c) h1 ∧
            Runs (Dataset.storeLabels (o.lister h1 limit) m c).outcome h1 y h')) := by
  rcases hd.look_bind.bind with ⟨context, h1, hcontext, hd⟩ | ⟨e, hcontext, -⟩
  · obtain ⟨loaded, h0, hm, ⟨-, he⟩ | ⟨m, opened, rfl, hopen, he⟩⟩ := ofRoot_cases hcontext.perform
    · exact absurd rfl (he context)
    · cases opened with
      | error e => cases he
      | ok c =>
        cases he
        refine ⟨.ok m, h0, hm, Or.inr ⟨m, rfl, Or.inr ⟨c, h1, symbolLimit, ?_⟩⟩⟩
        rcases hd.look_bind.bind with ⟨stored, h2, hl, hd⟩ | ⟨e, hl, -⟩
        · obtain ⟨y, hl, -⟩ := hl.onDatabase
          have hend : h' = h2 := by
            rcases hd.query_bind with rfl | ⟨stats, hprint⟩
            · rfl
            · have hprint := hprint.tell_bind.tell_bind.tell_bind.tell_bind
              rcases hprint.forIn_bind fun ⟨_, _⟩ _ _ _ _ hline => hline.tell_bind.pure.2
                with rfl | ⟨u, hlast⟩
              · rfl
              · exact hlast.tell.2
          rw [hend]
          exact ⟨y, hopen, hl⟩
        · obtain ⟨y, hl, -⟩ := hl.onDatabase
          exact ⟨y, hopen, hl⟩
  · obtain ⟨loaded, h0, hm, ⟨rfl, -⟩ | ⟨m, opened, rfl, hopen, he⟩⟩ := ofRoot_cases hcontext.perform
    · exact ⟨loaded, _, hm, Or.inl rfl⟩
    · cases opened with
      | ok c => cases he
      | error e => exact ⟨.ok m, h0, hm, Or.inr ⟨m, rfl, Or.inl ⟨e, hopen⟩⟩⟩

end CipherCorpus.Command
