import CipherCorpus.Proofs.Compile.OneWorker

/-!
# What workers call and tell

Whatever order workers take the cells of a matrix in, together they make one call for each cell with a
source and no other, and tell the observer each number once.  Both are read off what happened to single
cells: the events of a course are, up to their order, those of its cells (`gathered_perm`), a cell that is
through made its calls (`Through.calls`), and it was told the number that it was counted with
(`Through.notices`).  The numbers were counted in order, so

    notices  ~  counted numbers  =  1, 2, …, attempted                       (Course.notices_perm)

`matrixRun_accounts` puts this together with the report.
-/

namespace CipherCorpus.Compiler

open scoped List

variable {c : Compiler} {library : String} {outputDir : Path} {jobs : List Job} {h : Host} {s : Pool}
  {job : Job} {es : List Event} {outcome : CellResult} {events : List (Nat × Event)}

/-! ## The events of all cells -/

/-- Labelled items are, up to their order, those of the first label, of the second, and so on. -/
theorem perm_flatMap_filter {α : Type} (items : List (Nat × α)) (n : Nat) :
    (items.filter (·.1 < n)).Perm ((List.range n).flatMap fun i => items.filter (·.1 == i)) := by
  induction n with
  | zero => simp
  | succ n ih =>
    rw [List.range_succ, List.flatMap_append, List.flatMap_singleton]
    refine .trans ?_ (ih.append_right _)
    have hsplit := List.filter_append_perm (fun x : Nat × α => decide (x.1 < n))
      (items.filter (·.1 < n + 1))
    rw [List.filter_filter, List.filter_filter] at hsplit
    have hbelow : items.filter (fun x => decide (x.1 < n) && decide (x.1 < n + 1)) =
        items.filter (·.1 < n) := List.filter_congr fun x _ => by
      rw [Bool.eq_iff_iff]
      simp only [Bool.and_eq_true, decide_eq_true_eq]
      omega
    have hat : items.filter (fun x => !decide (x.1 < n) && decide (x.1 < n + 1)) =
        items.filter (·.1 == n) := List.filter_congr fun x _ => by
      rw [Bool.eq_iff_iff]
      simp only [Bool.and_eq_true, Bool.not_eq_true', decide_eq_false_iff_not, decide_eq_true_eq, beq_iff_eq]
      omega
    rw [hbelow, hat] at hsplit
    exact hsplit.symm

/-- What all cells did is what the first did, the second, and so on, up to the order. -/
theorem gathered_perm {α : Type} (f : Event → Option α) {n : Nat} (hn : ∀ e ∈ events, e.1 < n) :
    (gathered f events).Perm ((List.range n).flatMap fun i => (eventsOf i events).filterMap f) := by
  have hall : events.filter (·.1 < n) = events := List.filter_eq_self.mpr fun e he => decide_eq_true (hn e he)
  have hperm := (perm_flatMap_filter events n).filterMap (f ·.2)
  rw [hall, List.filterMap_flatMap] at hperm
  refine hperm.trans (.of_eq (List.flatMap_congr fun i _ => ?_))
  unfold eventsOf
  rw [List.filterMap_map]
  rfl

/-! ## The events of one cell -/

/-- The calls that one job asks for: none without a source, else one. -/
inductive JobCalls (c : Compiler) (library : String) (outputDir : Path) :
    Job → List Invocation → Prop where
  | skipped (cell : Cell) : JobCalls c library outputDir (cell, none) []
  | compiled {cell : Cell} {source : Path} {call : Invocation} :
      c.Asks library outputDir cell source call →
      JobCalls c library outputDir (cell, some source) [call]

/-- There are as many calls as jobs with a source. -/
theorem length_flatten_calls {calls : List (List Invocation)}
    (hc : List.Forall₂ (c.JobCalls library outputDir) jobs calls) :
    calls.flatten.length + jobs.countP (·.2.isNone) = jobs.length := by
  induction hc with
  | nil => rfl
  | cons hcall _ ih =>
    cases hcall with
    | skipped cell =>
      rw [List.flatten_cons, List.nil_append, List.countP_cons_of_pos rfl, List.length_cons]
      omega
    | compiled _ =>
      rw [List.flatten_cons, List.length_append, List.length_singleton,
        List.countP_cons_of_neg (by simp), List.length_cons]
      omega

theorem Ends.calls (he : c.Ends library outputDir job es outcome) :
    c.JobCalls library outputDir job (es.filterMap Event.call?) := by
  cases he with
  | skipped cell => exact .skipped cell
  | refused hask _ => exact .compiled hask
  | missing hask _ => exact .compiled hask
  | unread hask _ => exact .compiled hask
  | built hask _ => exact .compiled hask

theorem Ends.numbers (he : c.Ends library outputDir job es outcome) : es.filterMap Event.number? = [] := by
  cases he <;> rfl

theorem Ends.notices (he : c.Ends library outputDir job es outcome) : es.filterMap Event.notice? = [] := by
  cases he <;> rfl

theorem Ends.fits (he : c.Ends library outputDir job es outcome) : c.Fits library job outcome := by
  cases he with
  | skipped cell => rfl
  | refused _ _ => rfl
  | missing _ _ => rfl
  | unread _ _ => rfl
  | built _ _ => exact ⟨rfl, rfl, rfl, rfl⟩

section

variable {total : Nat} (ht : c.Through library outputDir total job es outcome)
include ht

theorem Through.calls : c.JobCalls library outputDir job (es.filterMap Event.call?) := by
  obtain ⟨before, number, rfl, he⟩ := ht
  rw [List.filterMap_append]
  exact (List.append_nil _).symm ▸ he.calls

/-- A cell is told the number that it was counted with, once. -/
theorem Through.notices : ∃ number, es.filterMap Event.number? = [number] ∧
    es.filterMap Event.notice? = [⟨number, total⟩] := by
  obtain ⟨before, number, rfl, he⟩ := ht
  refine ⟨number, ?_, ?_⟩
  · rw [List.filterMap_append, he.numbers]
    rfl
  · rw [List.filterMap_append, he.notices]
    rfl

theorem Through.fits : c.Fits library job outcome := by
  obtain ⟨before, number, rfl, he⟩ := ht
  exact he.fits

end

/-! ## A course that finishes -/

/-- The tasks came to these outcomes. -/
def Settled (tasks : List Task) (outcomes : List CellResult) : Prop :=
  List.Forall₂ (fun task outcome => task.stage = .shown outcome) tasks outcomes

theorem exists_settled (hs : s.isFinished = true) : ∃ outcomes, Settled s.tasks outcomes := by
  have hall := isFinished_iff.mp hs
  generalize s.tasks = tasks at hall
  induction tasks with
  | nil => exact ⟨[], .nil⟩
  | cons task rest ih =>
    obtain ⟨⟨outcome, he⟩, hrest⟩ := List.forall_mem_cons.mp hall
    obtain ⟨outcomes, hsettled⟩ := ih hrest
    exact ⟨outcome :: outcomes, .cons he hsettled⟩

section

variable (ha : c.runner.Answers) (hc : c.Course library outputDir (.starting h jobs) events s)
  (hs : s.isFinished = true)
include ha hc hs

/-- In a finished course every job is through. -/
theorem Course.through {i : Nat} {job : Job} (hj : jobs[i]? = some job) :
    ∃ task outcome, s.tasks[i]? = some task ∧ task.job = job ∧ task.stage = .shown outcome ∧
      c.Through library outputDir jobs.length job (eventsOf i events) outcome := by
  have hk := hc.keeps ha
  rw [← hk.jobs_eq, List.getElem?_map] at hj
  obtain ⟨task, ht, rfl⟩ := Option.map_eq_some_iff.mp hj
  obtain ⟨outcome, he⟩ := isFinished_iff.mp hs task (List.mem_of_getElem? ht)
  have hp := hk.passed i task ht
  rw [he] at hp
  exact ⟨task, outcome, ht, rfl, he, hp⟩

/-- Each cell made its calls, and nothing else was called. -/
theorem Course.calls_perm : ∃ calls, List.Forall₂ (c.JobCalls library outputDir) jobs calls ∧
    (gathered Event.call? events).Perm calls.flatten := by
  refine ⟨(List.range jobs.length).map fun i => (eventsOf i events).filterMap Event.call?, ?_, ?_⟩
  · rw [List.forall₂_iff_get]
    refine ⟨by simp, fun i hi hi' => ?_⟩
    obtain ⟨-, outcome, -, -, -, ht⟩ := hc.through ha hs (List.getElem?_eq_getElem hi)
    simpa using ht.calls
  · rw [← List.flatMap_def]
    exact gathered_perm _ (hc.keeps ha).within

/-- **The observer is told every number once.** -/
theorem Course.notices_perm : (gathered Event.notice? events).Perm
    ((List.range' 1 jobs.length).map (⟨·, jobs.length⟩)) := by
  have hk := hc.keeps ha
  have hcell : ∀ i ∈ List.range jobs.length, ∃ number,
      (eventsOf i events).filterMap Event.number? = [number] ∧
      (eventsOf i events).filterMap Event.notice? = [⟨number, jobs.length⟩] := fun i hi => by
    obtain ⟨-, outcome, -, -, -, ht⟩ := hc.through ha hs (List.getElem?_eq_getElem (List.mem_range.mp hi))
    exact ht.notices
  have hnumbers := gathered_perm Event.number? hk.within
  have hcount : s.completed = jobs.length := by
    have hlength := hnumbers.length_eq
    rw [hk.numbers, List.length_range', List.length_flatMap,
      List.map_congr_left (fun i hi => show _ = 1 by
        obtain ⟨number, hn, -⟩ := hcell i hi
        rw [hn, List.length_singleton]),
      List.map_const', List.sum_replicate_nat, List.length_range, Nat.mul_one] at hlength
    exact hlength
  calc gathered Event.notice? events
    _ ~ (List.range jobs.length).flatMap fun i => (eventsOf i events).filterMap Event.notice? :=
      gathered_perm _ hk.within
    _ = ((List.range jobs.length).flatMap fun i => (eventsOf i events).filterMap Event.number?).map
        (⟨·, jobs.length⟩) := by
      rw [List.map_flatMap]
      refine List.flatMap_congr fun i hi => ?_
      obtain ⟨number, hn, ht⟩ := hcell i hi
      rw [hn, ht, List.map_singleton]
    _ ~ (gathered Event.number? events).map (⟨·, jobs.length⟩) := hnumbers.symm.map _
    _ = (List.range' 1 jobs.length).map (⟨·, jobs.length⟩) := by rw [hk.numbers, hcount]

end

/-! ## The report of finished workers -/

theorem count_eq {task : Task} (he : task.stage = .shown outcome) (r : MatrixResult) :
    count r task = r.add task.cell outcome := by
  unfold count
  rw [he]
  rfl

/-- The report counts what the tasks came to. -/
theorem counts_of_settled {tasks : List Task} {outcomes : List CellResult} (hset : Settled tasks outcomes) :
    ∀ {finished : List Job} {r : MatrixResult}, c.Counts library finished r →
      ((finished ++ tasks.map Task.job).map (·.1)).Nodup →
      (∀ task ∈ tasks, ∀ outcome, task.stage = .shown outcome → c.Fits library task.job outcome) →
      c.Counts library (finished ++ tasks.map Task.job) (tasks.foldl count r) ∧
        (tasks.foldl count r).failed = r.failed + outcomes.count .failed ∧
        (tasks.foldl count r).attempted = r.attempted := by
  induction hset with
  | nil =>
    intro finished r hr _ _
    rw [List.map_nil, List.append_nil]
    exact ⟨hr, rfl, rfl⟩
  | @cons task outcome rest outcomes he hset ih =>
    intro finished r hr hn hfits
    obtain ⟨hfit, hrest⟩ := List.forall_mem_cons.mp hfits
    have hnew : task.job.1 ∉ finished.map (·.1) := fun hm => by
      rw [List.map_append, List.nodup_append] at hn
      exact hn.2.2 _ hm _ (List.mem_cons_self ..) rfl
    obtain ⟨hcounts, hfailed, hattempted⟩ := ih (hr.add hnew (hfit outcome he))
      (by rwa [List.append_assoc, List.singleton_append]) hrest
    rw [List.append_assoc, List.singleton_append] at hcounts
    rw [List.foldl_cons, count_eq he]
    refine ⟨hcounts, hfailed.trans ?_, hattempted.trans (add_attempted ..)⟩
    cases outcome with
    | built a =>
      rw [List.count_cons_of_ne (by simp)]
      rfl
    | failed =>
      rw [List.count_cons_self]
      show r.failed + 1 + _ = _
      omega
    | missingSource =>
      rw [List.count_cons_of_ne (by simp)]
      rfl

/-- What is recorded of a new cell is what it was built to. -/
theorem get?_add_iff {r : MatrixResult} {cell : Cell} (hfree : r.units.get? cell = none) (outcome : CellResult)
    (other : Cell) (a : Artifact) : (r.add cell outcome).units.get? other = some a ↔
      other = cell ∧ outcome = .built a ∨ r.units.get? other = some a := by
  cases outcome with
  | built b =>
    rw [MatrixResult.add, OrderedMap.get?_insert]
    by_cases he : other = cell
    · subst he
      simp [hfree]
    · simp [he]
  | failed => simp [MatrixResult.add]
  | missingSource => simp [MatrixResult.add]

/-- The units of a report are what the tasks were built to. -/
theorem get?_of_settled {tasks : List Task} {outcomes : List CellResult} (hset : Settled tasks outcomes)
    (cell : Cell) (a : Artifact) : ∀ {r : MatrixResult}, (tasks.map (·.cell)).Nodup →
      (∀ task ∈ tasks, r.units.get? task.cell = none) →
      ((tasks.foldl count r).units.get? cell = some a ↔
        (∃ task ∈ tasks, task.cell = cell ∧ task.stage = .shown (.built a)) ∨
          r.units.get? cell = some a) := by
  induction hset with
  | nil => exact fun _ _ => by simp
  | @cons task outcome rest outcomes he hset ih =>
    intro r hn hfree
    obtain ⟨hnew, hn⟩ := List.nodup_cons.mp hn
    obtain ⟨hfree, hrest⟩ := List.forall_mem_cons.mp hfree
    rw [List.foldl_cons, count_eq he, ih hn fun other ho => ?_, get?_add_iff hfree, List.exists_mem_cons_iff, he]
    · rw [Stage.shown.injEq, eq_comm (a := cell), or_assoc, or_left_comm]
    · have hne : other.cell ≠ task.cell := fun h => hnew (List.mem_map.mpr ⟨other, ho, h⟩)
      cases hg : (r.add task.cell outcome).units.get? other.cell with
      | none => rfl
      | some b =>
        rcases (get?_add_iff hfree outcome other.cell b).mp hg with ⟨h, -⟩ | h
        · exact absurd h hne
        · exact absurd h (by rw [hrest other ho]; nofun)

/-! ## The matrix under every schedule -/

/-- What workers did for the jobs, from `h` on, and what the report and the trace say of it. -/
structure Tally (c : Compiler) (library : String) (outputDir : Path) (jobs : List Job) (h : Host)
    (events : List (Nat × Event)) (report : MatrixResult) (h' : Host) : Prop where
  /-- Every cell came to its outcome as its call and its file decided. It is recorded exactly if it was
  built, and the report counts those that failed. -/
  outcomes : ∃ outcomes : List CellResult, outcomes.length = jobs.length ∧
    (∀ (i : Nat) job outcome, jobs[i]? = some job → outcomes[i]? = some outcome →
      c.Through library outputDir jobs.length job (eventsOf i events) outcome ∧
        ∀ a, report.units.get? job.1 = some a ↔ outcome = .built a) ∧
    report.failed = outcomes.count .failed
  /-- One call for each cell with a source, none for any other. -/
  calls : ∃ calls, List.Forall₂ (c.JobCalls library outputDir) jobs calls ∧
    (gathered Event.call? events).Perm calls.flatten
  compiles : h'.trace.compiles = h.trace.compiles ++ gathered Event.call? events
  /-- Every number is told once, with the number of all cells. -/
  notices : (gathered Event.notice? events).Perm
    ((List.range' 1 report.attempted).map (⟨·, report.attempted⟩))
  progress : h'.trace.progress = h.trace.progress ++ gathered Event.notice? events

/-- A finished course is tallied, and its report counts every job. -/
theorem Course.tally (ha : c.runner.Answers) (hn : (jobs.map (·.1)).Nodup)
    (hc : c.Course library outputDir (.starting h jobs) events s) (hs : s.isFinished = true) :
    c.Counts library jobs (s.report library) ∧ (s.report library).attempted = jobs.length ∧
      c.Tally library outputDir jobs h events (s.report library) s.host := by
  have hk := hc.keeps ha
  obtain ⟨outcomes, hset⟩ := exists_settled hs
  have hcells : (s.tasks.map (·.cell)).Nodup := by
    rw [← hk.jobs_eq, List.map_map] at hn
    exact hn
  have hfits : ∀ task ∈ s.tasks, ∀ outcome, task.stage = .shown outcome → c.Fits library task.job outcome := by
    intro task hm outcome he
    obtain ⟨i, ht⟩ := List.mem_iff_getElem?.mp hm
    have hp := hk.passed i task ht
    rw [he] at hp
    exact Through.fits hp
  obtain ⟨hcounts, hfailed, hattempted⟩ := counts_of_settled hset (Counts.nil c library s.tasks.length)
    (by rwa [List.nil_append, hk.jobs_eq]) hfits
  rw [List.nil_append, hk.jobs_eq] at hcounts
  replace hattempted : (s.report library).attempted = jobs.length := hattempted.trans hk.length_tasks
  refine ⟨hcounts, hattempted, ⟨outcomes, ?_, fun i job outcome hj ho => ?_, ?_⟩, hc.calls_perm ha hs,
    hk.compiles, ?_, hk.progress⟩
  · rw [← hset.length_eq, hk.length_tasks]
  · obtain ⟨task, outcome', ht, rfl, he, hthrough⟩ := hc.through ha hs hj
    obtain rfl : outcome' = outcome := by
      obtain ⟨hi, rfl⟩ := List.getElem?_eq_some_iff.mp ht
      obtain ⟨hi', rfl⟩ := List.getElem?_eq_some_iff.mp ho
      exact Stage.shown.inj (he.symm.trans (List.forall₂_iff_get.mp hset |>.2 i hi hi'))
    refine ⟨hthrough, fun a => ?_⟩
    rw [show (s.report library).units.get? task.job.1 = some a ↔ _ from
      get?_of_settled hset task.cell a hcells fun _ _ => rfl]
    constructor
    · rintro (⟨other, hm, hcell, hbuilt⟩ | hnone)
      · obtain rfl := List.inj_on_of_nodup_map hcells hm (List.mem_of_getElem? ht) hcell
        exact Stage.shown.inj (he.symm.trans hbuilt)
      · cases hnone
    · rintro rfl
      exact Or.inl ⟨task, List.mem_of_getElem? ht, rfl, he⟩
  · exact hfailed.trans (Nat.zero_add _)
  · rw [hattempted]
    exact hc.notices_perm ha hs

/-- **A matrix run accounts for every cell, whatever order its workers take the cells in.**  Once the
output directory is made and the workers are started, no schedule gets stuck or has more than five steps
for a cell, and whatever schedule finishes returns a report: its cells are the product of architectures,
different levels and different functions; each of them is built, failed or without a source; what is
recorded as built is one of them; and calls and notices are tallied as `Tally` says.  The run that builds
one cell after the other is one of these. -/
theorem matrixRun_accounts {accepts : Architecture → Bool}
    (hp : Registry.probe accepts = .ok c.registry) (ha : c.runner.Answers) (library : String)
    (sourceDir : Path) (functions : List String) (outputDir : Path) {h : Host} {files : FileTree}
    (hd : h.files.makeDirectories h.cwd outputDir = .ok files)
    (hw : c.options.jobs.toNat ≤ h.threadLimit) :
    let started : Host := { h with files := files }
    let jobs := c.jobsFor started sourceDir functions
    (∀ turns s, (Pool.starting started jobs).after c library outputDir turns = some s →
      turns.length ≤ 5 * jobs.length ∧
        ∀ (i : Nat) task, s.tasks[i]? = some task → task.stage.outcome? = none →
          ∃ s', s.advance c library outputDir i = some s') ∧
    (∃ report h', Runs (c.runMatrix library sourceDir functions outputDir).outcome h (.ok report) h' ∧
      c.MatrixRun library sourceDir functions outputDir h (.ok report) h') ∧
    ∀ r h', c.MatrixRun library sourceDir functions outputDir h r h' →
      ∃ report, r = .ok report ∧ (c.cellsFor functions).Nodup ∧
        report.attempted = c.registry.available.length * c.options.levels.toFinset.card *
          functions.toFinset.card ∧
        report.succeeded + report.failed + report.missingSource = report.attempted ∧
        report.missingSource = (c.cellsFor functions).countP
          (fun cell => (Sources.find? files h.cwd sourceDir cell.function).isNone) ∧
        (∀ cell a, report.units.get? cell = some a →
          cell ∈ c.cellsFor functions ∧ c.Describes library cell a) ∧
        ∃ s events, c.Course library outputDir (.starting started jobs) events s ∧ s.host = h' ∧
          c.Tally library outputDir jobs started events report h' := by
  intro started jobs
  have hjobs : jobs.map (·.1) = c.cellsFor functions := jobsFor_cells ..
  have hnodup := nodup_cellsFor hp functions
  refine ⟨fun turns s hs => ⟨Pool.length_le_of_after hs, fun i task ht hstage => exists_advance ha ht hstage⟩,
    ?_, fun r h' hr => ?_⟩
  · obtain ⟨report, h', hrun⟩ := buildCells_ends ha library outputDir (c.cellsFor functions).length jobs 0
      ⟨library, .empty, (c.cellsFor functions).length, 0, 0⟩ started
    have hr : Runs (c.runMatrix library sourceDir functions outputDir).outcome h (.ok report) h' :=
      runs_runMatrix.mpr (Or.inr ⟨files, hd, Or.inr ⟨hw, report, rfl, hrun⟩⟩)
    exact ⟨report, h', hr, matrixRun_of_runMatrix hr⟩
  · cases hr with
    | noDirectory he => cases hd.symm.trans he
    | noWorkers _ hlt => exact absurd hlt (Nat.not_lt.mpr hw)
    | @finished files' turns s hd' _ hs hfin =>
      obtain rfl : files = files' := Except.ok.inj (hd.symm.trans hd')
      have harch : ∀ job ∈ jobs, job.1.architecture ∈ c.registry.ids := fun job hj =>
        (mem_cells.mp (hjobs ▸ List.mem_map_of_mem hj)).1
      obtain ⟨events, -, hcourse⟩ := exists_course ha harch turns hs
      obtain ⟨⟨hsum, hmissing, hunits⟩, hattempted, htally⟩ :=
        hcourse.tally ha (by rw [hjobs]; exact hnodup) hfin
      refine ⟨s.report library, rfl, hnodup, ?_, hsum.trans hattempted.symm, ?_, fun cell a hg => ?_,
        s, events, hcourse, rfl, htally⟩
      · rw [hattempted, ← List.length_map (·.1), hjobs, cellsFor, length_cells, length_distinct,
          length_distinct, Registry.ids, List.length_map]
      · rw [hmissing]
        exact List.countP_map ..
      · obtain ⟨⟨source, hm⟩, hdesc⟩ := hunits cell a hg
        have hcell : cell ∈ jobs.map (·.1) := List.mem_map.mpr ⟨_, hm, rfl⟩
        exact ⟨hjobs ▸ hcell, hdesc⟩

/-- Six architectures, two different levels and two different functions, one of them with a source: twelve
calls, and the numbers up to twenty-four, whatever the schedule. -/
theorem repeated_names_are_compiled_once :
    let c : Compiler := ⟨⟨Architecture.catalog⟩, .writing [0],
      { CompileSettings.standard with levels := ["-O0", "-O2", "-O0"] }⟩
    let h : Host := ⟨⟨[(["src"], .directory), (["src", "f.c"], .file (.bytes []) false)]⟩, [], [],
      ⟨0, 0⟩, "", 4, .empty⟩
    Registry.probe (fun _ => true) = .ok c.registry ∧ c.runner.Answers ∧
      c.options.jobs.toNat ≤ h.threadLimit ∧
      (∃ files, h.files.makeDirectories h.cwd ⟨"/out"⟩ = .ok files) ∧
      (∃ r h', c.MatrixRun "lib" ⟨"/src"⟩ ["f", "g", "f"] ⟨"/out"⟩ h r h') ∧
      ∀ r h', c.MatrixRun "lib" ⟨"/src"⟩ ["f", "g", "f"] ⟨"/out"⟩ h r h' →
        ∃ report, r = .ok report ∧ report.attempted = 24 ∧ report.missingSource = 12 ∧
          report.succeeded + report.failed = 12 ∧ h'.trace.compiles.length = 12 ∧
          h'.trace.progress.Perm ((List.range' 1 24).map (⟨·, 24⟩)) := by
  intro c h
  have hp : Registry.probe (fun _ => true) = .ok c.registry := by decide
  have ha : c.runner.Answers := Runner.writing_answers [0]
  have hw : c.options.jobs.toNat ≤ h.threadLimit := by decide
  let missing (files : FileTree) : Nat := (c.cellsFor ["f", "g", "f"]).countP fun cell =>
    (Sources.find? files h.cwd ⟨"/src"⟩ cell.function).isNone
  have hmade : ((h.files.makeDirectories h.cwd ⟨"/out"⟩).toOption.map missing) = some 12 := by
    decide +kernel
  cases hd : h.files.makeDirectories h.cwd ⟨"/out"⟩ with
  | error e =>
    rw [hd] at hmade
    cases hmade
  | ok files =>
    rw [hd] at hmade
    obtain ⟨-, ⟨report, h', -, hrun⟩, hall⟩ :=
      matrixRun_accounts hp ha "lib" ⟨"/src"⟩ ["f", "g", "f"] ⟨"/out"⟩ hd hw
    refine ⟨hp, ha, hw, ⟨files, rfl⟩, ⟨_, h', hrun⟩, fun r h' hr => ?_⟩
    obtain ⟨report, rfl, -, hattempted, hsum, hmissing, -, s, events, -, -, htally⟩ := hall r h' hr
    have hn : report.attempted = 24 := hattempted
    have hm : report.missingSource = 12 := hmissing.trans (Option.some.inj hmade)
    refine ⟨report, rfl, hn, hm, by omega, ?_, ?_⟩
    · obtain ⟨calls, hcalls, hperm⟩ := htally.calls
      have hlength : h'.trace.compiles.length = calls.flatten.length := by
        rw [htally.compiles]
        exact hperm.length_eq
      have hsources := length_flatten_calls hcalls
      rw [show (c.jobsFor { h with files := files } ⟨"/src"⟩ ["f", "g", "f"]).countP (·.2.isNone) = 12 from
        (List.countP_map ..).trans (Option.some.inj hmade)] at hsources
      have hjobs : (c.jobsFor { h with files := files } ⟨"/src"⟩ ["f", "g", "f"]).length = 24 := by
        rw [← List.length_map (·.1), jobsFor_cells]
        rfl
      omega
    · have hnotices := htally.notices
      rw [hn] at hnotices
      rw [htally.progress]
      exact hnotices

end CipherCorpus.Compiler
