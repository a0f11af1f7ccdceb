import CipherCorpus.Proofs.Compile.Footprint
import CipherCorpus.Proofs.Compile.Turns

/-!
# One worker

A matrix run builds one cell after the other.  The steps of a cell in a row are what building it does
(`reaches_runCell`), so building all cells is a schedule that finishes (`reaches_buildCells`), and what a
matrix run returns is what workers may return (`matrixRun_of_runMatrix`).
-/

namespace CipherCorpus.Compiler

variable {c : Compiler} {library : String} {outputDir : Path} {jobs : List Job} {h g g' : Host}
  {s s' : Pool} {task : Task} {i : Nat}

/-- Some schedule leads from one pool to the other. -/
def Reaches (c : Compiler) (library : String) (outputDir : Path) (s s' : Pool) : Prop :=
  ∃ turns, s.after c library outputDir turns = some s'

theorem Reaches.refl (s : Pool) : c.Reaches library outputDir s s := ⟨[], rfl⟩

theorem Reaches.trans {s1 : Pool} (h1 : c.Reaches library outputDir s s1)
    (h2 : c.Reaches library outputDir s1 s') : c.Reaches library outputDir s s' := by
  obtain ⟨turns, h1⟩ := h1
  obtain ⟨turns', h2⟩ := h2
  exact ⟨turns ++ turns', by rw [Pool.after_append, h1, Option.bind_some, h2]⟩

theorem Reaches.step (ha : s.advance c library outputDir i = some s') : c.Reaches library outputDir s s' :=
  ⟨[i], by rw [Pool.after, ha]; rfl⟩

theorem Pool.put_put (s : Pool) (i : Nat) (g g' : Host) (task task' : Task) :
    (s.put i g task).put i g' task' = s.put i g' task' := by
  unfold put
  rw [List.set_set]

theorem Pool.getElem?_put (hi : i < s.tasks.length) (g : Host) (task : Task) :
    (s.put i g task).tasks[i]? = some task := List.getElem?_set_self hi

theorem isFinished_iff : s.isFinished = true ↔ ∀ task ∈ s.tasks, ∃ outcome, task.stage = .shown outcome := by
  unfold Pool.isFinished
  rw [List.all_eq_true]
  refine forall₂_congr fun task _ => ?_
  cases task.stage <;> simp [Stage.outcome?]

theorem reaches_work (hi : i < s.tasks.length) {stage : Stage}
    (hw : c.work library outputDir task g = some (stage, g')) :
    c.Reaches library outputDir (s.put i g task) (s.put i g' { task with stage := stage }) := by
  refine Reaches.step (i := i) ?_
  unfold Pool.advance
  rw [Pool.getElem?_put hi]
  dsimp only
  split
  · next outcome he =>
    unfold work at hw
    rw [he] at hw
    cases hw
  · next outcome number he =>
    unfold work at hw
    rw [he] at hw
    cases hw
  · rw [show (s.put i g task).host = g from rfl, hw, ← Pool.put_put s i g g' task]
    rfl

/-- The steps of one cell in a row are what building it does. -/
theorem reaches_runCell {cell : Cell} {source? : Option Path} {outcome : CellResult}
    (hi : i < s.tasks.length) (hr : Runs (c.runCell library outputDir cell source?) g outcome g') :
    c.Reaches library outputDir (s.put i g ⟨cell, source?, .waiting⟩)
      (s.put i g' ⟨cell, source?, .ended outcome⟩) := by
  rcases runs_runCell.mp hr with ⟨rfl, rfl, rfl⟩ | ⟨source, compiled, rfl, hc, ho⟩
  · exact reaches_work hi rfl
  · have hcompile := reaches_work (s := s) hi (work_waiting_eq_some.mpr ⟨compiled, hc, rfl⟩)
    cases compiled with
    | false =>
      rw [if_neg Bool.false_ne_true] at ho hcompile
      rw [ho]
      exact hcompile
    | true =>
      rw [if_pos rfl] at ho hcompile
      rw [ho]
      refine hcompile.trans ?_
      unfold found
      cases hsize : sizeOf? g' (binaryPath library outputDir cell) with
      | none =>
        refine reaches_work hi ?_
        unfold work
        dsimp only
        rw [hsize]
      | some size =>
        have hmeasured : c.work library outputDir ⟨cell, some source, .compiled source⟩ g' =
            some (.measured source size, g') := by
          unfold work
          dsimp only
          rw [hsize]
        exact (reaches_work hi hmeasured).trans (reaches_work hi rfl)

/-- Counting one task in a report. -/
def count (r : MatrixResult) (task : Task) : MatrixResult :=
  match task.stage.outcome? with
  | some outcome => r.add task.cell outcome
  | none => r

/-- **Building the cells one after the other is a schedule.** -/
theorem reaches_buildCells (rest : List Job) : ∀ {done : List Task} {report r : MatrixResult} {g g' : Host},
    Runs (c.buildCells library outputDir (done.length + rest.length) done.length report rest) g r g' →
    ∃ tasks, c.Reaches library outputDir
        ⟨g, done.length, done ++ rest.map fun job => ⟨job.1, job.2, .waiting⟩⟩
        ⟨g', done.length + rest.length, done ++ tasks⟩ ∧ tasks.length = rest.length ∧
      (∀ task ∈ tasks, ∃ outcome, task.stage = .shown outcome) ∧ r = tasks.foldl count report := by
  induction rest with
  | nil =>
    intro done report r g g' hr
    obtain ⟨rfl, rfl⟩ := runs_pure.mp hr
    refine ⟨[], ?_, rfl, List.forall_mem_nil _, rfl⟩
    simpa using Reaches.refl _
  | cons job rest ih =>
    intro done report r g g' hr
    obtain ⟨cell, source?⟩ := job
    unfold buildCells at hr
    obtain ⟨outcome, g1, hcell, hr⟩ := runs_bind.mp hr
    obtain ⟨u, g2, hfin, hr⟩ := runs_bind.mp hr
    have htold := runs_modify.mp hfin
    let waiting : List Task := rest.map fun job => ⟨job.1, job.2, .waiting⟩
    let pool (g : Host) (n : Nat) (stage : Stage) : Pool :=
      ⟨g, n, done ++ ⟨cell, source?, stage⟩ :: waiting⟩
    have hput : ∀ (g0 g : Host) (n : Nat) (x y : Stage),
        Pool.put (pool g0 n x) done.length g ⟨cell, source?, y⟩ = pool g n y := by
      intro g0 g n x y
      unfold Pool.put
      simp [pool]
    have hended : c.Reaches library outputDir (pool g done.length .waiting)
        (pool g1 done.length (.ended outcome)) := by
      have h := reaches_runCell (s := pool g done.length .waiting) (i := done.length) (by simp [pool]) hcell
      rwa [hput, hput] at h
    have hcounted : c.Reaches library outputDir (pool g1 done.length (.ended outcome))
        (pool g1 (done.length + 1) (.counted outcome (done.length + 1))) := by
      refine Reaches.step (i := done.length) ?_
      unfold Pool.advance
      simp [pool]
    have hshown : c.Reaches library outputDir (pool g1 (done.length + 1) (.counted outcome (done.length + 1)))
        (pool g2 (done.length + 1) (.shown outcome)) := by
      refine Reaches.step (i := done.length) ?_
      unfold Pool.advance
      simp [htold, pool, waiting]
    have hlength : (done ++ [⟨cell, source?, .shown outcome⟩] : List Task).length = done.length + 1 := by simp
    have htotal : (done ++ [⟨cell, source?, .shown outcome⟩] : List Task).length + rest.length =
        done.length + (rest.length + 1) := by
      rw [hlength]
      omega
    rw [← hlength, List.length_cons, ← htotal] at hr
    obtain ⟨tasks, hreach, hmore, hall, rfl⟩ := ih hr
    rw [htotal, hlength, List.append_assoc, List.append_assoc] at hreach
    exact ⟨⟨cell, source?, .shown outcome⟩ :: tasks, hended.trans (hcounted.trans (hshown.trans hreach)),
      by rw [List.length_cons, hmore, List.length_cons], List.forall_mem_cons.mpr ⟨⟨outcome, rfl⟩, hall⟩, rfl⟩

/-- **All cells of a matrix, one after the other, are built by a schedule that finishes.** -/
theorem reaches_finished {r : MatrixResult}
    (hr : Runs (c.buildCells library outputDir jobs.length 0 ⟨library, .empty, jobs.length, 0, 0⟩ jobs) h r g) :
    ∃ s, c.Reaches library outputDir (.starting h jobs) s ∧ s.isFinished = true ∧ s.report library = r ∧
      s.host = g := by
  have hlength : jobs.length = ([] : List Task).length + jobs.length := (Nat.zero_add _).symm
  have hrun : Runs (c.buildCells library outputDir (([] : List Task).length + jobs.length)
    ([] : List Task).length ⟨library, .empty, jobs.length, 0, 0⟩ jobs) h r g := hlength ▸ hr
  obtain ⟨tasks, hreach, hmore, hall, rfl⟩ := reaches_buildCells jobs hrun
  refine ⟨_, hreach, isFinished_iff.mpr hall, ?_, rfl⟩
  rw [← hmore]
  rfl

/-- **What a matrix run returns is what workers may return.** -/
theorem matrixRun_of_runMatrix {sourceDir : Path} {functions : List String}
    {r : Except MatrixFailure MatrixResult}
    (hr : Runs (c.runMatrix library sourceDir functions outputDir).outcome h r g) :
    c.MatrixRun library sourceDir functions outputDir h r g := by
  rcases runs_runMatrix.mp hr with ⟨e, hm, rfl, rfl⟩ | ⟨files, hm, ⟨hw, rfl, rfl⟩ | ⟨hw, report, rfl, hrun⟩⟩
  · exact .noDirectory hm
  · exact .noWorkers hm hw
  · rw [← jobsFor_cells c { h with files := files } sourceDir functions, List.length_map] at hrun
    obtain ⟨s, ⟨turns, hs⟩, hfin, rfl, rfl⟩ := reaches_finished hrun
    exact .finished hm hw hs hfin

end CipherCorpus.Compiler
