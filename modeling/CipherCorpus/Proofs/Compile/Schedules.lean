import CipherCorpus.Proofs.Compile.OneWorker

/-!
# Every schedule gives the same report

The cells of a matrix take their steps in any order.  What a step of one cell does is what it would do if
the cell were built alone on the host the matrix was started on (`Alone`), because no other cell touches
its output; this is kept by every step of every cell (`Follows.advance`).  So two schedules that build all
cells end with the same outcomes and the same files (`Follows.unique`), and the cells built one after the
other are one such schedule (`reaches_finished`).

    Reaches start s → Reaches start s' → s and s' are finished →
      s.report = s'.report ∧ s.files = s'.files                           (schedules_agree)
-/

namespace CipherCorpus.Compiler

open FileTree CipherCorpus.Path

variable {c : Compiler} {library : String} {outputDir : Path} {jobs : List Job} {h g g' e : Host}
  {S : Key → Prop} {s s' : Pool} {task : Task} {i : Nat}

/-! ## One cell among others -/

/-- The entries that the binaries of some jobs are written to. -/
def Binaries (library : String) (outputDir : Path) (jobs : List Job) (h : Host) (k : Key) : Prop :=
  ∃ cell source, (cell, some source) ∈ jobs ∧ h.Names (binaryPath library outputDir cell) k

/-- The jobs do not get in each other's way: the runner touches only outputs and depends, of what is
touched, on its own output alone; every output stays one place, and no two cells share one. -/
structure Independent (c : Compiler) (library : String) (outputDir : Path) (jobs : List Job) (h : Host) :
    Prop where
  touches : c.runner.TouchesFile
  depends : c.DependsOnOutput library outputDir jobs h (Binaries library outputDir jobs h)
  nodup : (jobs.map (·.1)).Nodup
  source : ∀ {cell source}, (cell, some source) ∈ jobs → IsFileArgument source
  fixes : ∀ {cell source}, (cell, some source) ∈ jobs →
    h.Fixes (Binaries library outputDir jobs h) (binaryPath library outputDir cell)
  apart : ∀ {cell source cell' source' k}, (cell, some source) ∈ jobs → (cell', some source') ∈ jobs →
    h.Names (binaryPath library outputDir cell) k → h.Names (binaryPath library outputDir cell') k →
    cell = cell'

/-- How far a cell that is built alone on `h` is, and on which host. -/
def Reached (c : Compiler) (library : String) (outputDir : Path) (h : Host) (task : Task) (e : Host) :
    Prop :=
  let compiles (source : Path) :=
    Runs (c.compileSource source (binaryPath library outputDir task.cell) task.cell.architecture
      task.cell.optimization c.options.compiler []) h true e
  match task.stage with
  | .waiting => e = h
  | .compiled source => task.source? = some source ∧ compiles source
  | .measured source size => task.source? = some source ∧ compiles source ∧
      sizeOf? e (binaryPath library outputDir task.cell) = some size
  | .ended outcome => Runs (c.runCell library outputDir task.cell task.source?) h outcome e
  | .counted outcome _ => Runs (c.runCell library outputDir task.cell task.source?) h outcome e
  | .shown outcome => Runs (c.runCell library outputDir task.cell task.source?) h outcome e

/-- The cell is as far as it would be alone, and its output is the same. -/
def Alone (c : Compiler) (library : String) (outputDir : Path) (jobs : List Job) (h : Host) (task : Task)
    (g : Host) : Prop :=
  ∃ e, h.VariesAt (Binaries library outputDir jobs h) e ∧ c.Reached library outputDir h task e ∧
    ∀ source, task.source? = some source →
      ∀ k, h.Names (binaryPath library outputDir task.cell) k → g.files.get? k = e.files.get? k

/-- Where its output is the same a cell stays as far as it is. -/
theorem Alone.congr (ha : c.Alone library outputDir jobs h task g)
    (he : ∀ source, task.source? = some source →
      ∀ k, h.Names (binaryPath library outputDir task.cell) k → g'.files.get? k = g.files.get? k) :
    c.Alone library outputDir jobs h task g' := by
  obtain ⟨e, hv, hreach, hout⟩ := ha
  exact ⟨e, hv, hreach, fun source hs k hk => (he source hs k hk).trans (hout source hs k hk)⟩

/-- A cell that is counted or shown takes no other look at its binary. -/
theorem Alone.restage (ha : c.Alone library outputDir jobs h task g) {stage : Stage}
    (hreach : ∀ e, c.Reached library outputDir h task e →
      c.Reached library outputDir h { task with stage := stage } e) :
    c.Alone library outputDir jobs h { task with stage := stage } g := by
  obtain ⟨e, hv, hr, hout⟩ := ha
  exact ⟨e, hv, hreach e hr, hout⟩

section

variable (hi : c.Independent library outputDir jobs h)
include hi

/-- A compile among others ends as it would alone, and changes no output of another cell. -/
theorem Independent.compile {cell : Cell} {source : Path} {compiled : Bool}
    (hj : (cell, some source) ∈ jobs) (hv : h.VariesAt (Binaries library outputDir jobs h) g)
    (hout : ∀ k, h.Names (binaryPath library outputDir cell) k → g.files.get? k = h.files.get? k)
    (hr : Runs (c.compileSource source (binaryPath library outputDir cell) cell.architecture
      cell.optimization c.options.compiler []) g compiled g') :
    h.VariesAt (Binaries library outputDir jobs h) g' ∧
      (∃ e, h.VariesAt (Binaries library outputDir jobs h) e ∧
        Runs (c.compileSource source (binaryPath library outputDir cell) cell.architecture
          cell.optimization c.options.compiler []) h compiled e ∧
        ∀ k, h.Names (binaryPath library outputDir cell) k → g'.files.get? k = e.files.get? k) ∧
      ∀ k, ¬ h.Names (binaryPath library outputDir cell) k → g'.files.get? k = g.files.get? k := by
  have hin : ∀ k, h.Names (binaryPath library outputDir cell) k → Binaries library outputDir jobs h k :=
    fun k hk => ⟨cell, source, hj, hk⟩
  obtain ⟨hv', hother⟩ := compileSource_varies hi.touches (hi.source hj) (hi.fixes hj) hin hv hr
  obtain ⟨e, hc, hsame⟩ := compileSource_transfers hi.depends hj hv (.refl _ h)
    (fun k hk => (hout k hk).symm) hr
  obtain ⟨hve, -⟩ := compileSource_varies hi.touches (hi.source hj) (hi.fixes hj) hin (.refl _ h) hc
  exact ⟨hv', ⟨e, hve, hc, fun k hk => (hsame k hk).symm⟩, hother⟩

/-- A step of one cell is the step it would take alone, and changes no output of another cell. -/
theorem Independent.work (hj : (task.cell, task.source?) ∈ jobs) {stage : Stage}
    (hv : h.VariesAt (Binaries library outputDir jobs h) g)
    (ha : c.Alone library outputDir jobs h task g)
    (hw : c.work library outputDir task g = some (stage, g')) :
    h.VariesAt (Binaries library outputDir jobs h) g' ∧
      c.Alone library outputDir jobs h { task with stage := stage } g' ∧
      ∀ k, (∀ source, task.source? = some source →
        ¬ h.Names (binaryPath library outputDir task.cell) k) → g'.files.get? k = g.files.get? k := by
  obtain ⟨cell, source?, old⟩ := task
  obtain ⟨e, hve, hreach, hout⟩ := ha
  have hstat : ∀ source, source? = some source → ∀ r,
      g.files.stat g.cwd (binaryPath library outputDir cell) = .ok r ↔
        e.files.stat e.cwd (binaryPath library outputDir cell) = .ok r := fun source hs r =>
    (hi.fixes (hs ▸ hj)).stat_iff hve hv (hout source hs)
  dsimp only at hj hout
  cases old with
  | waiting =>
    obtain rfl : h = e := hreach.symm
    cases source? with
    | none =>
      cases hw
      exact ⟨hv, ⟨h, hve, runs_runCell.mpr (Or.inl ⟨rfl, rfl, rfl⟩), hout⟩, fun _ _ => rfl⟩
    | some source =>
      obtain ⟨compiled, hr, rfl⟩ := work_waiting_eq_some.mp hw
      obtain ⟨hv', ⟨e, hve', hc, hsame⟩, hother⟩ := hi.compile hj hv (hout source rfl) hr
      refine ⟨hv', ⟨e, hve', ?_, fun _ _ => hsame⟩, fun k hk => hother k (hk source rfl)⟩
      cases compiled with
      | false =>
        exact runs_runCell.mpr (Or.inr ⟨source, false, rfl, hc, (if_neg Bool.false_ne_true).symm⟩)
      | true => exact ⟨rfl, hc⟩
  | compiled source =>
    obtain ⟨hs, hc⟩ := hreach
    have hsize := sizeOf?_congr (hstat source hs)
    unfold Compiler.work at hw
    dsimp only at hw
    split at hw
    · next hnone =>
      cases hw
      have hfound : c.found library cell source (binaryPath library outputDir cell) e = .failed := by
        unfold found
        rw [← hsize, hnone]
      exact ⟨hv, ⟨e, hve, runs_runCell.mpr (Or.inr ⟨source, true, hs, hc, by rw [if_pos rfl, hfound]⟩),
        hout⟩, fun _ _ => rfl⟩
    · next size hsome =>
      cases hw
      exact ⟨hv, ⟨e, hve, ⟨hs, hc, hsize.symm.trans hsome⟩, hout⟩, fun _ _ => rfl⟩
  | measured source size =>
    obtain ⟨hs, hc, hsize⟩ := hreach
    cases hw
    have hfound : c.found library cell source (binaryPath library outputDir cell) e =
        c.hashed library cell source (binaryPath library outputDir cell) size g := by
      unfold found
      rw [hsize]
      exact (hashed_congr (hstat source hs) size).symm
    exact ⟨hv, ⟨e, hve, runs_runCell.mpr (Or.inr ⟨source, true, hs, hc, by rw [if_pos rfl, hfound]⟩),
      hout⟩, fun _ _ => rfl⟩
  | ended outcome => cases hw
  | counted outcome number => cases hw
  | shown outcome => cases hw

/-- A cell whose outcome is not known has a next step, if it can be built alone. -/
theorem Independent.exists_work (hj : (task.cell, task.source?) ∈ jobs)
    (hv : h.VariesAt (Binaries library outputDir jobs h) g)
    (ha : c.Alone library outputDir jobs h task g) {outcome : CellResult}
    (hend : Runs (c.runCell library outputDir task.cell task.source?) h outcome e)
    (hended : ∀ outcome, task.stage ≠ .ended outcome)
    (hcounted : ∀ outcome number, task.stage ≠ .counted outcome number)
    (hstage : task.stage.outcome? = none) : ∃ r, c.work library outputDir task g = some r := by
  obtain ⟨cell, source?, stage⟩ := task
  obtain ⟨e', -, hreach, hout⟩ := ha
  cases stage with
  | waiting =>
    obtain rfl : h = e' := hreach.symm
    rcases runs_runCell.mp hend with ⟨rfl, -, -⟩ | ⟨source, compiled, rfl, hc, -⟩
    · exact ⟨_, rfl⟩
    · obtain ⟨e', hc', -⟩ := compileSource_transfers hi.depends hj (.refl _ h) hv (hout source rfl) hc
      exact ⟨_, work_waiting_eq_some.mpr ⟨compiled, hc', rfl⟩⟩
  | compiled source =>
    unfold Compiler.work
    dsimp only
    split
    · exact ⟨_, rfl⟩
    · exact ⟨_, rfl⟩
  | measured source size => exact ⟨_, rfl⟩
  | ended outcome => exact absurd rfl (hended outcome)
  | counted outcome number => exact absurd rfl (hcounted outcome number)
  | shown outcome => cases hstage

end

/-! ## All cells -/

/-- Every cell of the pool is as far as it would be alone. -/
structure Follows (c : Compiler) (library : String) (outputDir : Path) (jobs : List Job) (h : Host)
    (s : Pool) : Prop where
  host : h.VariesAt (Binaries library outputDir jobs h) s.host
  tasks_eq : s.tasks.map Task.job = jobs
  alone : ∀ (i : Nat) task, s.tasks[i]? = some task → c.Alone library outputDir jobs h task s.host

theorem follows_starting : c.Follows library outputDir jobs h (.starting h jobs) := by
  refine ⟨.refl _ h, ?_, fun i task ht => ?_⟩
  · unfold Pool.starting
    rw [List.map_map]
    exact List.map_id jobs
  · obtain ⟨job, -, rfl⟩ := List.mem_map.mp (List.mem_of_getElem? ht)
    exact ⟨h, .refl _ h, rfl, fun _ _ _ _ => rfl⟩

theorem Follows.job (hf : c.Follows library outputDir jobs h s) (ht : s.tasks[i]? = some task) :
    jobs[i]? = some (task.cell, task.source?) := by
  rw [← hf.tasks_eq, List.getElem?_map, ht]
  rfl

theorem Follows.mem (hf : c.Follows library outputDir jobs h s) (ht : s.tasks[i]? = some task) :
    (task.cell, task.source?) ∈ jobs := List.mem_of_getElem? (hf.job ht)

/-- Different tasks are of different cells. -/
theorem Follows.index (hf : c.Follows library outputDir jobs h s) (hn : (jobs.map (·.1)).Nodup) {j : Nat}
    {other : Task} (ht : s.tasks[i]? = some task) (ht' : s.tasks[j]? = some other)
    (he : task.cell = other.cell) : i = j := by
  have hcell : ∀ {i : Nat} {task : Task}, s.tasks[i]? = some task →
      (jobs.map (·.1))[i]? = some task.cell := fun ht => by
    rw [List.getElem?_map, hf.job ht]
    rfl
  obtain ⟨hlt, -⟩ := List.getElem?_eq_some_iff.mp (hcell ht)
  exact (List.getElem?_inj hlt hn).mp ((hcell ht).trans (he ▸ (hcell ht').symm))

/-- A cell that goes on without a look at the files stays where it would be alone, as do the others. -/
theorem Follows.passOn (hf : c.Follows library outputDir jobs h s) (ht : s.tasks[i]? = some task)
    {next : Task} (hjob : next.job = task.job) (hfiles : g.files = s.host.files) (hcwd : g.cwd = s.host.cwd)
    (henv : g.environment = s.host.environment) (hnext : c.Alone library outputDir jobs h next s.host)
    {completed : Nat} :
    c.Follows library outputDir jobs h { s.put i g next with completed := completed } := by
  refine ⟨hf.host.of_files hfiles hcwd henv, (map_set_of_getElem? _ ht hjob).trans hf.tasks_eq,
    fun j t hj => ?_⟩
  replace hj : (s.tasks.set i next)[j]? = some t := hj
  have halone : c.Alone library outputDir jobs h t s.host := by
    by_cases hij : i = j
    · subst hij
      rw [List.getElem?_set_self', ht] at hj
      obtain rfl : next = t := Option.some.inj hj
      exact hnext
    · rw [List.getElem?_set_ne hij] at hj
      exact hf.alone j t hj
  refine halone.congr fun _ _ k _ => ?_
  show g.files.get? k = _
  rw [hfiles]

section

variable (hi : c.Independent library outputDir jobs h)
include hi

/-- **Every step of every cell keeps the others as far as they are.** -/
theorem Follows.advance (hf : c.Follows library outputDir jobs h s)
    (ha : s.advance c library outputDir i = some s') : c.Follows library outputDir jobs h s' := by
  obtain ⟨task, ht, ⟨stage, g, hw, rfl⟩ | ⟨outcome, he, rfl⟩ | ⟨outcome, number, he, rfl⟩⟩ :=
    Pool.advance_eq_some ha
  · obtain ⟨hv, halone, hother⟩ := hi.work (hf.mem ht) hf.host (hf.alone i task ht) hw
    refine ⟨hv, (map_set_of_getElem? _ ht (by rfl)).trans hf.tasks_eq, fun j t hj => ?_⟩
    replace hj : (s.tasks.set i { task with stage := stage })[j]? = some t := hj
    by_cases hij : i = j
    · subst hij
      rw [List.getElem?_set_self', ht] at hj
      cases hj
      exact halone
    · rw [List.getElem?_set_ne hij] at hj
      refine (hf.alone j t hj).congr fun source hs k hk => hother k fun source' hs' hk' => hij ?_
      exact hf.index hi.nodup ht hj (hi.apart (hs' ▸ hf.mem ht) (hs ▸ hf.mem hj) hk' hk)
  · have hcounted : c.Alone library outputDir jobs h
        { task with stage := .counted outcome (s.completed + 1) } s.host := (hf.alone i task ht).restage fun e hr => by
      unfold Reached at hr
      rw [he] at hr
      exact hr
    exact hf.passOn ht (by rfl) rfl rfl rfl hcounted
  · have hshown : c.Alone library outputDir jobs h { task with stage := .shown outcome } s.host :=
      (hf.alone i task ht).restage fun e hr => by
        unfold Reached at hr
        rw [he] at hr
        exact hr
    exact hf.passOn (g := told s.host _) ht (by rfl) rfl rfl rfl hshown

theorem Follows.after (turns : List Nat) : ∀ {s : Pool}, c.Follows library outputDir jobs h s →
    s.after c library outputDir turns = some s' → c.Follows library outputDir jobs h s' := by
  induction turns with
  | nil =>
    intro s hf hs
    cases hs
    exact hf
  | cons i rest ih =>
    intro s hf hs
    obtain ⟨s1, ha, hs⟩ := Option.bind_eq_some_iff.mp hs
    exact ih (hf.advance hi ha) hs

end

/-! ## Finished pools -/

/-- What a finished pool knows of each cell. -/
theorem Follows.ends (hf : c.Follows library outputDir jobs h s) (hs : s.isFinished = true)
    (ht : s.tasks[i]? = some task) : ∃ outcome e, task.stage = .shown outcome ∧
      Runs (c.runCell library outputDir task.cell task.source?) h outcome e ∧
      ∀ source, task.source? = some source →
        ∀ k, h.Names (binaryPath library outputDir task.cell) k → s.host.files.get? k = e.files.get? k := by
  obtain ⟨outcome, he⟩ := isFinished_iff.mp hs task (List.mem_of_getElem? ht)
  obtain ⟨e, -, hreach, hout⟩ := hf.alone i task ht
  unfold Reached at hreach
  rw [he] at hreach
  exact ⟨outcome, e, he, hreach, hout⟩

/-- **Two finished pools of one matrix have the same outcomes and the same files.** -/
theorem Follows.unique (hf : c.Follows library outputDir jobs h s)
    (hf' : c.Follows library outputDir jobs h s') (hs : s.isFinished = true) (hs' : s'.isFinished = true) :
    s.tasks = s'.tasks ∧ ∀ k, s.host.files.get? k = s'.host.files.get? k := by
  -- the task of a job in the other pool
  have hother : ∀ {i : Nat} {task : Task}, s.tasks[i]? = some task → ∃ other, s'.tasks[i]? = some other ∧
      other.cell = task.cell ∧ other.source? = task.source? := by
    intro i task ht
    have hj := hf.job ht
    rw [← hf'.tasks_eq, List.getElem?_map] at hj
    obtain ⟨other, ho, he⟩ := Option.map_eq_some_iff.mp hj
    exact ⟨other, ho, (Prod.mk.injEq .. ▸ he).1, (Prod.mk.injEq .. ▸ he).2⟩
  have hlength : s.tasks.length = s'.tasks.length := by
    rw [← List.length_map Task.job, hf.tasks_eq, ← hf'.tasks_eq, List.length_map]
  have hends : ∀ {i : Nat} {task : Task}, s.tasks[i]? = some task → s'.tasks[i]? = some task ∧
      ∀ source, task.source? = some source → ∀ k, h.Names (binaryPath library outputDir task.cell) k →
        s.host.files.get? k = s'.host.files.get? k := by
    intro i task ht
    obtain ⟨⟨cell, source?, stage⟩, ho, hc, hsrc⟩ := hother ht
    obtain ⟨outcome, e, he, hr, hout⟩ := hf.ends hs ht
    obtain ⟨outcome', e', he', hr', hout'⟩ := hf'.ends hs' ho
    obtain ⟨cell', source'?, stage'⟩ := task
    dsimp only at hc hsrc he he' hr hr' hout hout' ⊢
    subst hc hsrc he he'
    obtain ⟨rfl, rfl⟩ := hr.unique hr'
    exact ⟨ho, fun source hs k hk => (hout source hs k hk).trans (hout' source hs k hk).symm⟩
  refine ⟨List.ext_getElem? fun i => ?_, fun k => ?_⟩
  · cases ht : s.tasks[i]? with
    | some task => exact (hends ht).1.symm
    | none =>
      rw [List.getElem?_eq_none_iff] at ht
      exact (List.getElem?_eq_none (hlength ▸ ht)).symm
  · by_cases hk : Binaries library outputDir jobs h k
    · obtain ⟨cell, source, hj, hk⟩ := hk
      rw [← hf.tasks_eq] at hj
      obtain ⟨task, hm, he⟩ := List.mem_map.mp hj
      obtain ⟨i, ht⟩ := List.mem_iff_getElem?.mp hm
      obtain ⟨rfl, hsrc⟩ := Prod.mk.inj he
      exact (hends ht).2 source hsrc k hk
    · rw [hf.host.files k hk, hf'.host.files k hk]

/-- **While some schedule ends, no cell is stuck in any other.** -/
theorem Follows.exists_advance (hi : c.Independent library outputDir jobs h)
    (hf : c.Follows library outputDir jobs h s)
    (hf' : c.Follows library outputDir jobs h s') (hs' : s'.isFinished = true)
    (ht : s.tasks[i]? = some task) (hstage : task.stage.outcome? = none) :
    ∃ s1, s.advance c library outputDir i = some s1 := by
  have hj := hf.mem ht
  rw [← hf'.tasks_eq] at hj
  obtain ⟨other, hm, he⟩ := List.mem_map.mp hj
  obtain ⟨j, ho⟩ := List.mem_iff_getElem?.mp hm
  obtain ⟨outcome, e, -, hr, -⟩ := hf'.ends hs' ho
  obtain ⟨hc, hsrc⟩ := Prod.mk.inj he
  rw [hc, hsrc] at hr
  unfold Pool.advance
  rw [ht]
  dsimp only
  split
  · exact ⟨_, rfl⟩
  · exact ⟨_, rfl⟩
  · next hended hcounted =>
    obtain ⟨r, hw⟩ := hi.exists_work (hf.mem ht) hf.host (hf.alone i task ht) hr hended hcounted hstage
    rw [hw]
    exact ⟨_, rfl⟩

/-! ## The cells of a matrix -/

/-- The outputs of a library are names in one directory. -/
theorem exists_directory (library : String) (outputDir : Path) : ∃ (dir : Path) (kept : List Char), '/' ∉ kept ∧
    ∀ cell, IsEntryName (entryName kept cell) →
      binaryPath library outputDir cell = dir.child (String.ofList (entryName kept cell)) := by
  obtain ⟨pre, kept, hp, hk, hpath⟩ := exists_binaryPath_eq library outputDir
  refine ⟨⟨String.ofList pre⟩, kept, hk, fun cell hn => ?_⟩
  have hlead : (Path.mk (String.ofList pre)).lead = pre := by
    unfold lead
    rw [String.toList_ofList]
    rcases hp with rfl | ⟨l, rfl⟩
    · rfl
    · simp
  rw [hpath, Path.mk.injEq, ← String.toList_inj, String.toList_ofList,
    toList_child _ (by rw [String.toList_ofList]; exact head?_ne_of_notMem hn.1), hlead, String.toList_ofList]

/-- A job with a source is of a cell of the matrix. -/
theorem of_mem_jobsFor {sourceDir : Path} {functions : List String} {cell : Cell} {source : Path}
    (hj : (cell, some source) ∈ c.jobsFor h sourceDir functions) :
    cell ∈ c.cellsFor functions ∧ Sources.find? h.files h.cwd sourceDir cell.function = some source := by
  obtain ⟨cell', hc, he⟩ := List.mem_map.mp hj
  obtain ⟨rfl, hs⟩ := Prod.mk.inj he
  exact ⟨hc, hs⟩

section

variable {accepts : Architecture → Bool} (hp : Registry.probe accepts = .ok c.registry) {sourceDir : Path}
  {functions : List String} (hl : ∀ level ∈ c.options.levels, '/' ∉ level.toList)
include hp hl

/-- Where no level has a separator, outputs are names. -/
theorem isEntryName_of_mem_jobsFor {cell : Cell} {source : Path}
    (hj : (cell, some source) ∈ c.jobsFor h sourceDir functions) {kept : List Char} (hk : '/' ∉ kept) :
    IsEntryName (entryName kept cell) := by
  obtain ⟨hc, hs⟩ := of_mem_jobsFor hj
  obtain ⟨ha, ho, -⟩ := mem_cells.mp hc
  exact isEntryName_entryName hk (Sources.notMem_of_find? hs) (Registry.notMem_id_of_probe hp ha).2
    (hl _ (mem_distinct.mp ho))

variable (hlink : ∀ cell source, (cell, some source) ∈ c.jobsFor h sourceDir functions → ∀ key target,
    h.files.linkStat h.cwd (binaryPath library outputDir cell) ≠ .ok (key, .link target))
include hlink

/-- The outputs of a matrix are fixed while only files change. -/
theorem fixes_binaryPath (S : Key → Prop) {cell : Cell} {source : Path}
    (hj : (cell, some source) ∈ c.jobsFor h sourceDir functions) :
    h.Fixes S (binaryPath library outputDir cell) := by
  obtain ⟨dir, kept, hk, hpath⟩ := exists_directory library outputDir
  have hn := isEntryName_of_mem_jobsFor hp hl hj hk
  have hfree := hlink _ _ hj
  rw [hpath _ hn] at hfree ⊢
  exact Host.fixes_child (by rwa [String.toList_ofList]) hfree _

/-- Cells with different output names get in each other's way neither through separators nor through
links. -/
theorem independent (ht : c.runner.TouchesFile) (hn : c.NamesDistinct library functions)
    (hd : c.DependsOnOutput library outputDir (c.jobsFor h sourceDir functions) h
      (Binaries library outputDir (c.jobsFor h sourceDir functions) h)) :
    c.Independent library outputDir (c.jobsFor h sourceDir functions) h := by
  refine ⟨ht, hd, ?_, fun hj => Sources.isFileArgument_of_find? (of_mem_jobsFor hj).2,
    fun hj => fixes_binaryPath hp hl hlink _ hj, ?_⟩
  · rw [jobsFor_cells]
    exact nodup_cellsFor hp functions
  · intro cell source cell' source' k hj hj' hk hk'
    obtain ⟨dir, kept, hkept, hpath⟩ := exists_directory library outputDir
    have hname := isEntryName_of_mem_jobsFor hp hl hj hkept
    have hname' := isEntryName_of_mem_jobsFor hp hl hj' hkept
    have hfree := hlink _ _ hj
    have hfree' := hlink _ _ hj'
    rw [hpath _ hname] at hfree hk
    rw [hpath _ hname'] at hfree' hk'
    obtain ⟨-, d, hdir, rfl⟩ :=
      (Host.names_child_iff (by rwa [String.toList_ofList]) hfree).mp hk
    obtain ⟨-, d', hdir', he⟩ :=
      (Host.names_child_iff (by rwa [String.toList_ofList]) hfree').mp hk'
    have hsame := (List.append_inj' he rfl).2
    refine hn cell (of_mem_jobsFor hj).1 cell' (of_mem_jobsFor hj').1
      ((binaryPath_inj library outputDir cell cell').mp ?_)
    rw [hpath _ hname, hpath _ hname', List.singleton_inj.mp hsame]

end

/-- **Every schedule of a matrix gives the same report and the same files.**  Two schedules that build all
cells agree; while there is one, no other gets stuck, and each has at most five steps for a cell; and the
matrix run, which takes cell after cell, is one of them. -/
theorem schedules_agree {accepts : Architecture → Bool} (hp : Registry.probe accepts = .ok c.registry)
    (ht : c.runner.TouchesFile) {sourceDir : Path} {functions : List String} {started : Host}
    (hmake : h.files.makeDirectories h.cwd outputDir = .ok started.files)
    (hstart : started = { h with files := started.files })
    (hn : c.NamesDistinct library functions) (hl : ∀ level ∈ c.options.levels, '/' ∉ level.toList)
    (hlink : ∀ cell source, (cell, some source) ∈ c.jobsFor started sourceDir functions → ∀ key target,
      started.files.linkStat started.cwd (binaryPath library outputDir cell) ≠ .ok (key, .link target))
    (hd : c.DependsOnOutput library outputDir (c.jobsFor started sourceDir functions) started
      (Binaries library outputDir (c.jobsFor started sourceDir functions) started)) :
    let jobs := c.jobsFor started sourceDir functions
    let start := Pool.starting started jobs
    (∀ s s', c.Reaches library outputDir start s → c.Reaches library outputDir start s' →
      s.isFinished = true → s'.isFinished = true →
      s.report library = s'.report library ∧ ∀ k, s.host.files.get? k = s'.host.files.get? k) ∧
    (∀ s, c.Reaches library outputDir start s → s.isFinished = true →
      ∀ turns s', start.after c library outputDir turns = some s' → turns.length ≤ 5 * jobs.length ∧
        ∀ (i : Nat) task, s'.tasks[i]? = some task → task.stage.outcome? = none →
          ∃ s1, s'.advance c library outputDir i = some s1) ∧
    (∀ report h', Runs (c.runMatrix library sourceDir functions outputDir).outcome h (.ok report) h' →
      ∃ s, c.Reaches library outputDir start s ∧ s.isFinished = true ∧ s.report library = report ∧
        s.host = h') := by
  intro jobs start
  have hi : c.Independent library outputDir jobs started := independent hp hl hlink ht hn hd
  have hfollows : ∀ {s : Pool}, c.Reaches library outputDir start s →
      c.Follows library outputDir jobs started s := fun ⟨turns, hs⟩ => follows_starting.after hi turns hs
  refine ⟨fun s s' hs hs' hfin hfin' => ?_, fun s hs hfin turns s' hs' =>
    ⟨Pool.length_le_of_after hs', fun i task hi' hstage => ?_⟩, fun report h' hr => ?_⟩
  · obtain ⟨htasks, hfiles⟩ := (hfollows hs).unique (hfollows hs') hfin hfin'
    refine ⟨?_, hfiles⟩
    unfold Pool.report
    rw [htasks]
  · exact (hfollows ⟨turns, hs'⟩).exists_advance hi (hfollows hs) hfin hi' hstage
  · rcases runs_runMatrix.mp hr with ⟨e, -, he, -⟩ | ⟨files, hm, ⟨-, -, he⟩ | ⟨-, report', he, hrun⟩⟩
    · cases he
    · cases he
    · cases he
      obtain rfl : started.files = files := Except.ok.inj (hmake.symm.trans hm)
      rw [← hstart] at hrun
      rw [← jobsFor_cells c started sourceDir functions, List.length_map] at hrun
      exact reaches_finished hrun

/-! ## Example -/

/-- A compiler that writes what the call alone decides. -/
def writes (data : Invocation → List UInt8) : Runner := fun call => Runner.writing (data call) call

/-- What writing leaves. -/
theorem runs_writing {data : List UInt8} {call : Invocation} {answer : Except ToolError ToolOutput} :
    Runs (Runner.writing data call) h answer g ↔ answer = .ok ⟨true, some 0, "", ""⟩ ∧
      g = match h.files.writeBytes h.cwd call.output data with
        | .ok files => { h with files := files }
        | .error _ => h := by
  unfold Runner.writing
  simp only [runs_bind, runs_modify, runs_pure]
  constructor
  · rintro ⟨-, -, rfl, rfl, rfl⟩
    exact ⟨rfl, rfl⟩
  · rintro ⟨rfl, rfl⟩
    exact ⟨⟨⟩, _, rfl, rfl, rfl⟩

theorem writes_touchesFile (data : Invocation → List UInt8) : (writes data).TouchesFile := by
  intro call h answer h' hr
  have htouch := Runner.writing_touches _ _ _ _ _ hr
  obtain ⟨-, he⟩ := runs_writing.mp hr
  cases hw : h.files.writeBytes h.cwd call.output (data call) with
  | error e =>
    rw [hw] at he
    subst he
    exact ⟨htouch, rfl, fun _ => Iff.rfl⟩
  | ok files =>
    rw [hw] at he
    subst he
    refine ⟨htouch, rfl, fun k => ?_⟩
    obtain ⟨place, x, hres, hplace, rfl⟩ := write_eq hw
    obtain ⟨hdir, hne⟩ := not_directory_of_write hres hplace
    by_cases hk : k = place.key
    · subst hk
      rw [get?_put_self _ _ hne]
      exact iff_of_false nofun hdir
    · rw [get?_put_ne _ _ hk]

/-- What is written at a place depends on what was there. -/
theorem write_placeAt {t : FileTree} {cwd k : Key} {p : Path} {body : Body}
    (hs : endsWithSeparator p = false) (hr : t.resolve cwd true p = .ok (t.placeAt k)) :
    t.write cwd p body = match t.get? k with
      | none => .ok (t.put k (.file body false))
      | some (.file _ x) => .ok (t.put k (.file body x))
      | some _ => .error .isDirectory := by
  unfold write
  rw [if_neg (by rw [hs]; decide), hr]
  cases hg : t.get? k with
  | none =>
    rw [placeAt_of_none hg]
    rfl
  | some e =>
    rw [placeAt_of_some hg]
    cases e with
    | file b x => rfl
    | directory => rfl
    | link target => rfl

theorem endsWithSeparator_binaryPath (library : String) (outputDir : Path) (cell : Cell) :
    endsWithSeparator (binaryPath library outputDir cell) = false := by
  unfold endsWithSeparator
  rw [getLast?_binaryPath]
  decide

/-- A compiler that writes what the call decides depends on nothing but its output. -/
theorem dependsOnOutput_of_writes {data : Invocation → List UInt8} (hc : c.runner = writes data)
    (hs : ∀ cell source, (cell, some source) ∈ jobs → IsFileArgument source)
    (hf : ∀ cell source, (cell, some source) ∈ jobs → h.Fixes S (binaryPath library outputDir cell)) :
    c.DependsOnOutput library outputDir jobs h S := by
  intro cell source call hj hasks g g' answer e hv hv' he hr
  obtain ⟨⟨profile, -, -, hcommand⟩, -⟩ := hasks
  have hout : call.output = binaryPath library outputDir cell := by
    unfold Invocation.output
    rw [(Prod.mk.inj hcommand).2]
    exact output_callFor (c := c) profile _ _ (hs cell source hj) (isFileArgument_binaryPath ..)
  rw [hc] at hr ⊢
  obtain ⟨rfl, rfl⟩ := runs_writing.mp hr
  refine ⟨_, runs_writing.mpr ⟨rfl, rfl⟩, fun k hk => ?_⟩
  have hends := endsWithSeparator_binaryPath library outputDir cell
  have hleft : ∀ {g : Host}, h.VariesAt S g → g.files.write g.cwd call.output (.bytes (data call)) =
      match g.files.get? k with
      | none => .ok (g.files.put k (.file (.bytes (data call)) false))
      | some (.file _ x) => .ok (g.files.put k (.file (.bytes (data call)) x))
      | some _ => .error .isDirectory := fun hv => by
    rw [hout]
    exact write_placeAt hends ((hf cell source hj _ hv _).mpr ⟨k, hk, rfl⟩)
  unfold FileTree.writeBytes
  rw [hleft hv, hleft hv', he k hk]
  have hput : ∀ x t, g.files.get? k ≠ some .directory →
      (g'.files.put k (.file (.bytes t) x)).get? k = (g.files.put k (.file (.bytes t) x)).get? k := by
    intro x t hdir
    have hne : k ≠ [] := fun hnil => hdir (by rw [hnil]; rfl)
    rw [get?_put_self _ _ hne, get?_put_self _ _ hne]
  cases hg : g.files.get? k with
  | none => exact hput false _ (by rw [hg]; nofun)
  | some entry =>
    cases entry with
    | file body x => exact hput x _ (by rw [hg]; nofun)
    | directory => exact he k hk
    | link target => exact he k hk

/-- A compiler for x86 that writes the level it is called with. -/
def levelWriter (levels : List String) : Compiler :=
  ⟨⟨Architecture.catalog.take 1⟩, writes fun call => Text.bytesOf (call.arguments.headD ""),
    { CompileSettings.standard with levels, jobs := 1 }⟩

/-- A host with the source of a function `f`, an output directory, and some more directories. -/
def hostWithSource (directories : List Key) : Host :=
  ⟨⟨[(["src"], .directory), (["src", "f.c"], .file (.bytes []) false), (["out"], .directory)] ++
    directories.map (·, .directory)⟩, [], [], ⟨0, 0⟩, "", 1, .empty⟩

/-- The output directory is there. -/
theorem made_of_entries {t t' : FileTree} {cwd : Key}
    (he : (t.makeDirectories cwd ⟨"/out"⟩).toOption.map (·.entries) = some t'.entries) :
    t.makeDirectories cwd ⟨"/out"⟩ = .ok t' := by
  cases hm : t.makeDirectories cwd ⟨"/out"⟩ with
  | error e =>
    rw [hm] at he
    cases he
  | ok made =>
    rw [hm] at he
    obtain ⟨entries⟩ := made
    obtain rfl : entries = t'.entries := Option.some.inj he
    rfl

/-- A statement about what two schedules for the source of `f` end in. -/
def endsIn (c : Compiler) (h : Host) (turns turns' : List Nat) (p : Pool → Pool → Bool) : Bool :=
  let start := Pool.starting h (c.jobsFor h ⟨"/src"⟩ ["f"])
  match start.after c "lib" ⟨"/out"⟩ turns, start.after c "lib" ⟨"/out"⟩ turns' with
  | some s, some s' => s.isFinished && s'.isFinished && p s s'
  | _, _ => false

theorem exists_of_endsIn {turns turns' : List Nat} {p : Pool → Pool → Bool}
    (he : c.endsIn h turns turns' p = true) :
    let start := Pool.starting h (c.jobsFor h ⟨"/src"⟩ ["f"])
    ∃ s s', c.Reaches "lib" ⟨"/out"⟩ start s ∧ c.Reaches "lib" ⟨"/out"⟩ start s' ∧
      s.isFinished = true ∧ s'.isFinished = true ∧ p s s' = true := by
  unfold endsIn at he
  dsimp only at he
  split at he
  · next s s' hs hs' =>
    simp only [Bool.and_eq_true] at he
    exact ⟨s, s', ⟨turns, hs⟩, ⟨turns', hs'⟩, he.1.1, he.1.2, he.2⟩
  · cases he

/-- Two levels, one after the other and in turn. -/
theorem two_levels_take_turns :
    let c := levelWriter ["-O0", "-O2"]
    let h := hostWithSource []
    let start := Pool.starting h (c.jobsFor h ⟨"/src"⟩ ["f"])
    ∃ s s', c.Reaches "lib" ⟨"/out"⟩ start s ∧ c.Reaches "lib" ⟨"/out"⟩ start s' ∧
      (s.report "lib").succeeded = 2 ∧ s.report "lib" = s'.report "lib" ∧
      ∀ k, s.host.files.get? k = s'.host.files.get? k := by
  intro c h start
  have hp : Registry.probe (·.id == "x86") = .ok c.registry := by
    show _ = Except.ok (⟨Architecture.catalog.take 1⟩ : Registry)
    decide
  have hl : ∀ level ∈ c.options.levels, '/' ∉ level.toList := by decide
  have hmade : h.files.makeDirectories h.cwd ⟨"/out"⟩ = .ok h.files :=
    made_of_entries (by decide +kernel)
  have hlink : ∀ cell source, (cell, some source) ∈ c.jobsFor h ⟨"/src"⟩ ["f"] → ∀ key target,
      h.files.linkStat h.cwd (binaryPath "lib" ⟨"/out"⟩ cell) ≠ .ok (key, .link target) := by
    intro cell source _ key target he
    have hlink := get?_ne_link (t := h.files) (by decide) key target
    exact hlink ((sound_of_resolve (linkStat_eq he)).resolve_left nofun)
  have hends : c.endsIn h [0, 0, 0, 0, 0, 1, 1, 1, 1, 1] [1, 0, 1, 0, 0, 1, 0, 1, 1, 0]
      (fun s _ => (s.report "lib").succeeded == 2) = true := by decide +kernel
  obtain ⟨s, s', hs, hs', hfin, hfin', hsucceeded⟩ := exists_of_endsIn hends
  have hdepends : c.DependsOnOutput "lib" ⟨"/out"⟩ (c.jobsFor h ⟨"/src"⟩ ["f"]) h
      (Binaries "lib" ⟨"/out"⟩ (c.jobsFor h ⟨"/src"⟩ ["f"]) h) :=
    dependsOnOutput_of_writes rfl (fun _ _ hj => Sources.isFileArgument_of_find? (of_mem_jobsFor hj).2)
      fun _ _ hj => fixes_binaryPath hp hl hlink _ hj
  obtain ⟨hagree, -⟩ := schedules_agree hp (writes_touchesFile _) hmade rfl (by decide) hl hlink hdepends
  obtain ⟨hreport, hfiles⟩ := hagree s s' hs hs' hfin hfin'
  exact ⟨s, s', hs, hs', eq_of_beq hsucceeded, hreport, hfiles⟩

/-- A level with separators names another cell's output by another name: two schedules end in other
reports and other files. -/
theorem separators_let_cells_meet :
    let c := levelWriter ["-O2", "-O/../lib_f_x86_o2"]
    let h := hostWithSource [["out", "lib_f_x86_o"]]
    let start := Pool.starting h (c.jobsFor h ⟨"/src"⟩ ["f"])
    Registry.probe (·.id == "x86") = .ok c.registry ∧ c.runner.TouchesFile ∧
      h.files.makeDirectories h.cwd ⟨"/out"⟩ = .ok h.files ∧ c.NamesDistinct "lib" ["f"] ∧
      (∀ k target, h.files.get? k ≠ some (.link target)) ∧
      ∃ s s', c.Reaches "lib" ⟨"/out"⟩ start s ∧ c.Reaches "lib" ⟨"/out"⟩ start s' ∧
        s.isFinished = true ∧ s'.isFinished = true ∧ s.report "lib" ≠ s'.report "lib" ∧
        s.host.files.get? ["out", "lib_f_x86_o2.bin"] ≠ s'.host.files.get? ["out", "lib_f_x86_o2.bin"] := by
  intro c h start
  have hends : c.endsIn h [0, 0, 0, 0, 0, 1, 1, 1, 1, 1] [1, 0, 1, 1, 1, 1, 0, 0, 0, 0]
      (fun s s' => (s.report "lib").units != (s'.report "lib").units &&
        s.host.files.get? ["out", "lib_f_x86_o2.bin"] != s'.host.files.get? ["out", "lib_f_x86_o2.bin"]) =
      true := by decide +kernel
  obtain ⟨s, s', hs, hs', hfin, hfin', hne⟩ := exists_of_endsIn hends
  obtain ⟨hreport, hfiles⟩ := Bool.and_eq_true_iff.mp hne
  refine ⟨by show _ = Except.ok (⟨Architecture.catalog.take 1⟩ : Registry); decide, writes_touchesFile _,
    made_of_entries (by decide +kernel), by decide, get?_ne_link (by decide), s, s', hs, hs', hfin, hfin',
    fun he => bne_iff_ne.mp hreport (congrArg (·.units) he), bne_iff_ne.mp hfiles⟩

end CipherCorpus.Compiler
