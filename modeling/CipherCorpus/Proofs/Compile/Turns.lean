import CipherCorpus.Compile.Workers
import CipherCorpus.Proofs.Compile.Matrix

/-!
# What the turns of workers do

A turn of a cell does one thing (`Turn`): it passes over a cell without a source, asks the runner,
measures or hashes a binary, counts the cell, or tells the observer.  A schedule is a course of such
turns (`exists_course`), and what happened in it to one cell decides how far the cell is (`Passed`):

    waiting --asked--> compiled --measured--> measured --hashed--> ended --counted--> shown

By induction along the course this holds of every cell, the numbers were counted in order, and the trace
of the machine is what was asked and told (`Course.keeps`).  Every step brings a cell forward, so a
schedule has at most five of them for a cell (`Pool.length_le_of_after`); and while the runner answers, a
cell that is not through has a next one (`exists_advance`).
-/

namespace CipherCorpus.Compiler

variable {c : Compiler} {library : String} {outputDir : Path} {jobs : List Job} {h g : Host}
  {s s' : Pool} {task : Task} {i : Nat}

/-- What happens in a turn. -/
inductive Event where
  | skipped
  | asked (call : Invocation) (answer : Except ToolError ToolOutput)
  | measured (size? : Option UInt64)
  | hashed (md5 : Except FileError String)
  | counted (number : Nat)
  | shown (notice : Progress)

namespace Event

def call? : Event → Option Invocation
  | asked call _ => some call
  | _ => none

def number? : Event → Option Nat
  | counted number => some number
  | _ => none

def notice? : Event → Option Progress
  | shown notice => some notice
  | _ => none

end Event

/-- The pool with another host and another task in one place. -/
def Pool.put (s : Pool) (i : Nat) (g : Host) (task : Task) : Pool :=
  { s with host := g, tasks := s.tasks.set i task }

/-- The host when the observer has been told. -/
def told (h : Host) (notice : Progress) : Host :=
  { h with trace := { h.trace with progress := h.trace.progress ++ [notice] } }

/-- What the turn of one cell is, and what it leaves. -/
inductive Turn (c : Compiler) (library : String) (outputDir : Path) (s : Pool) (i : Nat) :
    Event → Pool → Prop where
  | skip {cell : Cell} : s.tasks[i]? = some ⟨cell, none, .waiting⟩ →
      Turn c library outputDir s i .skipped (s.put i s.host ⟨cell, none, .ended .missingSource⟩)
  | compile {cell : Cell} {source : Path} {call : Invocation} {answer : Except ToolError ToolOutput}
      {g : Host} : s.tasks[i]? = some ⟨cell, some source, .waiting⟩ →
      c.Asks library outputDir cell source call → Runs (c.runner call) s.host answer g →
      succeeded answer = true →
      Turn c library outputDir s i (.asked call answer)
        (s.put i (noted g call) ⟨cell, some source, .compiled source⟩)
  | refuse {cell : Cell} {source : Path} {call : Invocation} {answer : Except ToolError ToolOutput}
      {g : Host} : s.tasks[i]? = some ⟨cell, some source, .waiting⟩ →
      c.Asks library outputDir cell source call → Runs (c.runner call) s.host answer g →
      succeeded answer = false →
      Turn c library outputDir s i (.asked call answer)
        (s.put i (noted g call) ⟨cell, some source, .ended .failed⟩)
  | measure {cell : Cell} {source? : Option Path} {source : Path} {size : UInt64} :
      s.tasks[i]? = some ⟨cell, source?, .compiled source⟩ →
      sizeOf? s.host (binaryPath library outputDir cell) = some size →
      Turn c library outputDir s i (.measured (some size))
        (s.put i s.host ⟨cell, source?, .measured source size⟩)
  | missing {cell : Cell} {source? : Option Path} {source : Path} :
      s.tasks[i]? = some ⟨cell, source?, .compiled source⟩ →
      sizeOf? s.host (binaryPath library outputDir cell) = none →
      Turn c library outputDir s i (.measured none) (s.put i s.host ⟨cell, source?, .ended .failed⟩)
  | hash {cell : Cell} {source? : Option Path} {source : Path} {size : UInt64} {md5 : String} :
      s.tasks[i]? = some ⟨cell, source?, .measured source size⟩ →
      md5Of s.host (binaryPath library outputDir cell) = .ok md5 →
      Turn c library outputDir s i (.hashed (.ok md5)) (s.put i s.host ⟨cell, source?, .ended
        (.built (c.artifactOf library cell source (binaryPath library outputDir cell) size md5))⟩)
  | unread {cell : Cell} {source? : Option Path} {source : Path} {size : UInt64} {e : FileError} :
      s.tasks[i]? = some ⟨cell, source?, .measured source size⟩ →
      md5Of s.host (binaryPath library outputDir cell) = .error e →
      Turn c library outputDir s i (.hashed (.error e)) (s.put i s.host ⟨cell, source?, .ended .failed⟩)
  | count {cell : Cell} {source? : Option Path} {outcome : CellResult} :
      s.tasks[i]? = some ⟨cell, source?, .ended outcome⟩ →
      Turn c library outputDir s i (.counted (s.completed + 1))
        { s.put i s.host ⟨cell, source?, .counted outcome (s.completed + 1)⟩ with
          completed := s.completed + 1 }
  | tell {cell : Cell} {source? : Option Path} {outcome : CellResult} {number : Nat} :
      s.tasks[i]? = some ⟨cell, source?, .counted outcome number⟩ →
      Turn c library outputDir s i (.shown ⟨number, s.tasks.length⟩)
        (s.put i (told s.host ⟨number, s.tasks.length⟩) ⟨cell, source?, .shown outcome⟩)

/-! ## Schedules -/

namespace Pool

theorem after_append (turns turns' : List Nat) : ∀ {s : Pool},
    s.after c library outputDir (turns ++ turns') =
      (s.after c library outputDir turns).bind (·.after c library outputDir turns') := by
  induction turns with
  | nil => exact fun {_} => rfl
  | cons i rest ih =>
    intro s
    rw [List.cons_append, after, after, Option.bind_assoc]
    exact congrArg _ (funext fun s' => ih)

theorem after_concat (turns : List Nat) (i : Nat) :
    s.after c library outputDir (turns ++ [i]) =
      (s.after c library outputDir turns).bind (·.advance c library outputDir i) := by
  rw [after_append]
  refine congrArg _ (funext fun s1 => ?_)
  show (s1.advance c library outputDir i).bind some = s1.advance c library outputDir i
  cases s1.advance c library outputDir i with
  | none => rfl
  | some s2 => rfl

/-- A step of one cell is a step of its work, or counts its outcome, or shows it. -/
theorem advance_eq_some (ha : s.advance c library outputDir i = some s') :
    ∃ task, s.tasks[i]? = some task ∧
      ((∃ stage h, c.work library outputDir task s.host = some (stage, h) ∧
          s' = s.put i h { task with stage := stage }) ∨
        (∃ outcome, task.stage = .ended outcome ∧
          s' = { s.put i s.host { task with stage := .counted outcome (s.completed + 1) } with
            completed := s.completed + 1 }) ∨
        ∃ outcome number, task.stage = .counted outcome number ∧
          s' = s.put i (told s.host ⟨number, s.tasks.length⟩) { task with stage := .shown outcome }) := by
  unfold advance at ha
  cases ht : s.tasks[i]? with
  | none =>
    rw [ht] at ha
    cases ha
  | some task =>
    rw [ht] at ha
    refine ⟨task, rfl, ?_⟩
    dsimp only at ha
    split at ha
    · next outcome he =>
      cases ha
      exact Or.inr (Or.inl ⟨outcome, he, rfl⟩)
    · next outcome number he =>
      cases ha
      exact Or.inr (Or.inr ⟨outcome, number, he, rfl⟩)
    · obtain ⟨r, hw, rfl⟩ := Option.map_eq_some_iff.mp ha
      exact Or.inl ⟨r.1, r.2, hw, rfl⟩

end Pool

/-- The first step of a cell with a source is its compile. -/
theorem work_waiting_eq_some {cell : Cell} {source : Path} {stage : Stage} :
    c.work library outputDir ⟨cell, some source, .waiting⟩ h = some (stage, g) ↔
      ∃ compiled, Runs (c.compileSource source (binaryPath library outputDir cell) cell.architecture
          cell.optimization c.options.compiler []) h compiled g ∧
        stage = if compiled then .compiled source else .ended .failed := by
  unfold work Runs
  dsimp only
  generalize (c.compileSource source (binaryPath library outputDir cell) cell.architecture
    cell.optimization c.options.compiler []).run h = r
  constructor
  · intro hw
    split at hw
    · cases hw
      exact ⟨true, rfl, rfl⟩
    · cases hw
      exact ⟨false, rfl, rfl⟩
    · cases hw
  · rintro ⟨compiled, rfl, rfl⟩
    cases compiled with
    | false => rfl
    | true => rfl

/-- While the runner answers, a cell that is not through has a turn. -/
theorem exists_advance (ha : c.runner.Answers) (ht : s.tasks[i]? = some task)
    (hstage : task.stage.outcome? = none) : ∃ s', s.advance c library outputDir i = some s' := by
  have hwork : (∃ r, c.work library outputDir task s.host = some r) →
      (∀ outcome, task.stage ≠ .ended outcome) → (∀ outcome number, task.stage ≠ .counted outcome number) →
      ∃ s', s.advance c library outputDir i = some s' := by
    rintro ⟨r, hw⟩ hended hcounted
    unfold Pool.advance
    rw [ht]
    dsimp only
    split
    · next outcome he => exact absurd he (hended outcome)
    · next outcome number he => exact absurd he (hcounted outcome number)
    · rw [hw]
      exact ⟨_, rfl⟩
  obtain ⟨cell, source?, stage⟩ := task
  cases stage with
  | waiting =>
    refine hwork ?_ nofun nofun
    cases source? with
    | none => exact ⟨_, rfl⟩
    | some source =>
      obtain ⟨compiled, g, hr⟩ := compileSource_ends ha source (binaryPath library outputDir cell)
        cell.architecture cell.optimization c.options.compiler s.host
      exact ⟨_, work_waiting_eq_some.mpr ⟨compiled, hr, rfl⟩⟩
  | compiled source =>
    refine hwork ?_ nofun nofun
    unfold work
    dsimp only
    split
    · exact ⟨_, rfl⟩
    · exact ⟨_, rfl⟩
  | measured source size => exact hwork ⟨_, rfl⟩ nofun nofun
  | ended outcome =>
    unfold Pool.advance
    rw [ht]
    exact ⟨_, rfl⟩
  | counted outcome number =>
    unfold Pool.advance
    rw [ht]
    exact ⟨_, rfl⟩
  | shown outcome => cases hstage

/-- **Every step of a cell of an available architecture is a turn.** -/
theorem turn_of_advance (harch : ∀ task ∈ s.tasks, task.cell.architecture ∈ c.registry.ids)
    (ha : s.advance c library outputDir i = some s') : ∃ e, c.Turn library outputDir s i e s' := by
  obtain ⟨⟨cell, source?, stage⟩, ht, ⟨next, g, hw, rfl⟩ | ⟨outcome, he, rfl⟩ | ⟨outcome, number, he, rfl⟩⟩ :=
    Pool.advance_eq_some ha
  · cases stage with
    | waiting =>
      cases source? with
      | none =>
        cases hw
        exact ⟨_, .skip ht⟩
      | some source =>
        obtain ⟨compiled, hr, rfl⟩ := work_waiting_eq_some.mp hw
        rcases runs_compileSource.mp hr with ⟨hnone, -⟩ | ⟨profile, answer, g, hf, hcall, hc, rfl⟩
        · obtain ⟨a, hm, hid⟩ := List.mem_map.mp (harch _ (List.mem_of_getElem? ht))
          exact absurd (beq_iff_eq.mpr hid) (List.find?_eq_none.mp hnone a hm)
        · cases compiled with
          | true => exact ⟨_, .compile ht (asks_callFor hf source) hcall hc.symm⟩
          | false => exact ⟨_, .refuse ht (asks_callFor hf source) hcall hc.symm⟩
    | compiled source =>
      unfold work at hw
      dsimp only at hw
      split at hw
      · next hs =>
        cases hw
        exact ⟨_, .missing ht hs⟩
      · next size hs =>
        cases hw
        exact ⟨_, .measure ht hs⟩
    | measured source size =>
      cases hw
      unfold Compiler.hashed
      dsimp only
      cases hm : md5Of s.host (binaryPath library outputDir cell) with
      | error e => exact ⟨_, .unread ht hm⟩
      | ok md5 => exact ⟨_, .hash ht hm⟩
    | ended outcome => cases hw
    | counted outcome number => cases hw
    | shown outcome => cases hw
  · obtain rfl : stage = .ended outcome := he
    exact ⟨_, .count ht⟩
  · obtain rfl : stage = .counted outcome number := he
    exact ⟨_, .tell ht⟩

/-! ## How many steps a schedule has -/

/-- How many steps a cell may still take. -/
def Stage.remaining : Stage → Nat
  | waiting => 5
  | compiled _ => 4
  | measured _ _ => 3
  | ended _ => 2
  | counted _ _ => 1
  | shown _ => 0

theorem remaining_work {stage : Stage} (hw : c.work library outputDir task h = some (stage, g)) :
    stage.remaining < task.stage.remaining := by
  obtain ⟨cell, source?, old⟩ := task
  cases old with
  | waiting =>
    have hlt : ∀ n : Nat, n ≤ 4 → n < Stage.waiting.remaining := fun n hn => Nat.lt_succ_of_le hn
    cases source? with
    | none =>
      cases hw
      exact hlt 2 (by decide)
    | some source =>
      obtain ⟨compiled, -, rfl⟩ := work_waiting_eq_some.mp hw
      cases compiled with
      | false => exact hlt 2 (by decide)
      | true => exact hlt 4 (by decide)
  | compiled source =>
    have hlt : ∀ n : Nat, n ≤ 3 → n < (Stage.compiled source).remaining := fun n hn =>
      Nat.lt_succ_of_le hn
    unfold work at hw
    dsimp only at hw
    split at hw
    · cases hw
      exact hlt 2 (by decide)
    · cases hw
      exact hlt 3 (by decide)
  | measured source size =>
    cases hw
    exact Nat.lt_succ_self 2
  | ended outcome => cases hw
  | counted outcome number => cases hw
  | shown outcome => cases hw

theorem total_set_lt {α : Type} (f : α → Nat) {x : α} : ∀ {l : List α} {i : Nat} {y : α}, l[i]? = some y →
    f x < f y → total ((l.set i x).map f) < total (l.map f) := by
  intro l
  induction l with
  | nil => exact fun h => by cases h
  | cons z rest ih =>
    intro i y hi hlt
    cases i with
    | zero =>
      cases hi
      simpa using hlt
    | succ i => simpa using ih hi hlt

namespace Pool

/-- How many steps the cells may still take. -/
def remaining (s : Pool) : Nat := total (s.tasks.map (·.stage.remaining))

theorem remaining_advance (ha : s.advance c library outputDir i = some s') : s'.remaining < s.remaining := by
  obtain ⟨task, ht, ⟨stage, h, hw, rfl⟩ | ⟨outcome, he, rfl⟩ | ⟨outcome, number, he, rfl⟩⟩ :=
    advance_eq_some ha
  · exact total_set_lt _ ht (remaining_work hw)
  · exact total_set_lt _ ht (by rw [he]; exact Nat.one_lt_two)
  · exact total_set_lt _ ht (by rw [he]; exact Nat.one_pos)

theorem length_le_remaining : ∀ {turns : List Nat} {s : Pool},
    s.after c library outputDir turns = some s' → turns.length + s'.remaining ≤ s.remaining := by
  intro turns
  induction turns with
  | nil =>
    intro s hs
    cases hs
    simp
  | cons i rest ih =>
    intro s hs
    obtain ⟨s1, ha, hs⟩ := Option.bind_eq_some_iff.mp hs
    have hlt := remaining_advance ha
    have hle := ih hs
    rw [List.length_cons]
    omega

theorem remaining_starting (h : Host) (jobs : List Job) : (starting h jobs).remaining = 5 * jobs.length := by
  induction jobs with
  | nil => rfl
  | cons job rest ih =>
    have hfive : (starting h (job :: rest)).remaining = 5 + (starting h rest).remaining := rfl
    rw [hfive, ih, List.length_cons]
    omega

/-- A schedule has at most five steps for a cell. -/
theorem length_le_of_after {turns : List Nat}
    (hs : (starting h jobs).after c library outputDir turns = some s) : turns.length ≤ 5 * jobs.length := by
  have hle := length_le_remaining hs
  rw [remaining_starting] at hle
  omega

end Pool

/-! ## What has happened to a cell -/

/-- How a job comes to its outcome. -/
inductive Ends (c : Compiler) (library : String) (outputDir : Path) :
    Job → List Event → CellResult → Prop where
  | skipped (cell : Cell) : Ends c library outputDir (cell, none) [.skipped] .missingSource
  | refused {cell : Cell} {source : Path} {call : Invocation} {answer : Except ToolError ToolOutput} :
      c.Asks library outputDir cell source call → succeeded answer = false →
      Ends c library outputDir (cell, some source) [.asked call answer] .failed
  | missing {cell : Cell} {source : Path} {call : Invocation} {answer : Except ToolError ToolOutput} :
      c.Asks library outputDir cell source call → succeeded answer = true →
      Ends c library outputDir (cell, some source) [.asked call answer, .measured none] .failed
  | unread {cell : Cell} {source : Path} {call : Invocation} {answer : Except ToolError ToolOutput}
      {size : UInt64} {e : FileError} :
      c.Asks library outputDir cell source call → succeeded answer = true →
      Ends c library outputDir (cell, some source)
        [.asked call answer, .measured (some size), .hashed (.error e)] .failed
  | built {cell : Cell} {source : Path} {call : Invocation} {answer : Except ToolError ToolOutput}
      {size : UInt64} {md5 : String} :
      c.Asks library outputDir cell source call → succeeded answer = true →
      Ends c library outputDir (cell, some source)
        [.asked call answer, .measured (some size), .hashed (.ok md5)]
        (.built (c.artifactOf library cell source (binaryPath library outputDir cell) size md5))

/-- A job came to its outcome, was counted, and of `total` cells its number was told. -/
def Through (c : Compiler) (library : String) (outputDir : Path) (total : Nat) (job : Job)
    (es : List Event) (outcome : CellResult) : Prop :=
  ∃ before number, es = before ++ [.counted number, .shown ⟨number, total⟩] ∧
    c.Ends library outputDir job before outcome

/-- What has happened to a job that is so far. -/
def Passed (c : Compiler) (library : String) (outputDir : Path) (total : Nat) (job : Job)
    (es : List Event) : Stage → Prop
  | .waiting => es = []
  | .compiled source => ∃ call answer, job.2 = some source ∧ c.Asks library outputDir job.1 source call ∧
      succeeded answer = true ∧ es = [.asked call answer]
  | .measured source size => ∃ call answer, job.2 = some source ∧
      c.Asks library outputDir job.1 source call ∧ succeeded answer = true ∧
      es = [.asked call answer, .measured (some size)]
  | .ended outcome => c.Ends library outputDir job es outcome
  | .counted outcome number => ∃ before, es = before ++ [.counted number] ∧
      c.Ends library outputDir job before outcome
  | .shown outcome => c.Through library outputDir total job es outcome

def Task.job (task : Task) : Job := (task.cell, task.source?)

/-- **A turn brings one task from what has happened to it to what has happened then.** -/
theorem Turn.passed {e : Event} (ht : c.Turn library outputDir s i e s') :
    ∃ task next, s.tasks[i]? = some task ∧ s'.tasks = s.tasks.set i next ∧ next.job = task.job ∧
      ∀ es, c.Passed library outputDir s.tasks.length task.job es task.stage →
        c.Passed library outputDir s.tasks.length task.job (es ++ [e]) next.stage := by
  cases ht with
  | skip ht =>
    refine ⟨_, _, ht, rfl, rfl, ?_⟩
    rintro es rfl
    exact .skipped _
  | compile ht hask hr hs =>
    refine ⟨_, _, ht, rfl, rfl, ?_⟩
    rintro es rfl
    exact ⟨_, _, rfl, hask, hs, rfl⟩
  | refuse ht hask hr hs =>
    refine ⟨_, _, ht, rfl, rfl, ?_⟩
    rintro es rfl
    exact .refused hask hs
  | measure ht hs =>
    refine ⟨_, _, ht, rfl, rfl, ?_⟩
    rintro es ⟨call, answer, hsrc, hask, ho, rfl⟩
    exact ⟨call, answer, hsrc, hask, ho, rfl⟩
  | missing ht hs =>
    refine ⟨⟨_, _, _⟩, _, ht, rfl, rfl, ?_⟩
    rintro es ⟨call, answer, rfl, hask, ho, rfl⟩
    exact .missing hask ho
  | hash ht hm =>
    refine ⟨_, _, ht, rfl, rfl, ?_⟩
    rintro es ⟨call, answer, rfl, hask, ho, rfl⟩
    exact .built hask ho
  | unread ht hm =>
    refine ⟨_, _, ht, rfl, rfl, ?_⟩
    rintro es ⟨call, answer, rfl, hask, ho, rfl⟩
    exact .unread hask ho
  | count ht => exact ⟨_, _, ht, rfl, rfl, fun es he => ⟨es, rfl, he⟩⟩
  | tell ht =>
    refine ⟨_, _, ht, rfl, rfl, ?_⟩
    rintro es ⟨before, rfl, he⟩
    exact ⟨before, _, List.append_assoc .., he⟩

/-- The trace grows by what is asked and told in a turn. -/
theorem Turn.trace (ha : c.runner.Answers) {e : Event} (ht : c.Turn library outputDir s i e s') :
    s'.host.trace.compiles = s.host.trace.compiles ++ e.call?.toList ∧
      s'.host.trace.progress = s.host.trace.progress ++ e.notice?.toList := by
  -- only the runner could write into the trace on its own, and it does not
  have hasked : ∀ {call answer g}, Runs (c.runner call) s.host answer g →
      (noted g call).trace.compiles = s.host.trace.compiles ++ [call] ∧
        (noted g call).trace.progress = s.host.trace.progress ++ [] := by
    intro call answer g hr
    obtain ⟨answer', g', hr', hkept⟩ := ha call s.host
    obtain ⟨-, rfl⟩ := hr.unique hr'
    unfold noted
    rw [hkept, List.append_nil]
    exact ⟨rfl, rfl⟩
  have hsame : s.host.trace.compiles = s.host.trace.compiles ++ [] ∧
      s.host.trace.progress = s.host.trace.progress ++ [] :=
    ⟨(List.append_nil _).symm, (List.append_nil _).symm⟩
  cases ht with
  | skip ht => exact hsame
  | compile ht hask hr hs => exact hasked hr
  | refuse ht hask hr hs => exact hasked hr
  | measure ht hs => exact hsame
  | missing ht hs => exact hsame
  | hash ht hm => exact hsame
  | unread ht hm => exact hsame
  | count ht => exact hsame
  | tell ht => exact ⟨hsame.1, rfl⟩

/-- Cells are counted one by one. -/
theorem Turn.numbers {e : Event} (ht : c.Turn library outputDir s i e s') :
    List.range' 1 s'.completed = List.range' 1 s.completed ++ e.number?.toList := by
  have hsame : List.range' 1 s.completed = List.range' 1 s.completed ++ [] := (List.append_nil _).symm
  cases ht with
  | count ht =>
    rw [show ({ s.put i s.host _ with completed := s.completed + 1 } : Pool).completed = s.completed + 1
      from rfl, List.range'_1_concat, Nat.add_comm]
    rfl
  | skip ht => exact hsame
  | compile ht hask hr hs => exact hsame
  | refuse ht hask hr hs => exact hsame
  | measure ht hs => exact hsame
  | missing ht hs => exact hsame
  | hash ht hm => exact hsame
  | unread ht hm => exact hsame
  | tell ht => exact hsame

/-! ## Courses -/

/-- Turns one after the other, each with the cell that took it. -/
inductive Course (c : Compiler) (library : String) (outputDir : Path) (s : Pool) :
    List (Nat × Event) → Pool → Prop where
  | start : Course c library outputDir s [] s
  | turn {events : List (Nat × Event)} {s1 s2 : Pool} {i : Nat} {e : Event} :
      Course c library outputDir s events s1 → c.Turn library outputDir s1 i e s2 →
      Course c library outputDir s (events ++ [(i, e)]) s2

/-- What happened to one cell. -/
def eventsOf (i : Nat) (events : List (Nat × Event)) : List Event :=
  (events.filter (·.1 == i)).map (·.2)

/-- What all turns together did, of one kind. -/
def gathered {α : Type} (f : Event → Option α) (events : List (Nat × Event)) : List α :=
  events.filterMap (f ·.2)

theorem eventsOf_concat_self (i : Nat) (events : List (Nat × Event)) (e : Event) :
    eventsOf i (events ++ [(i, e)]) = eventsOf i events ++ [e] := by
  simp [eventsOf, List.filter_append]

theorem eventsOf_concat_ne {i j : Nat} (hne : i ≠ j) (events : List (Nat × Event)) (e : Event) :
    eventsOf j (events ++ [(i, e)]) = eventsOf j events := by
  simp [eventsOf, List.filter_append, hne]

theorem gathered_concat {α : Type} (f : Event → Option α) (events : List (Nat × Event)) (i : Nat)
    (e : Event) : gathered f (events ++ [(i, e)]) = gathered f events ++ (f e).toList := by
  unfold gathered
  rw [List.filterMap_append, List.filterMap_cons, List.filterMap_nil]
  cases f e with
  | none => rfl
  | some x => rfl

/-- What every turn keeps. -/
structure Keeps (c : Compiler) (library : String) (outputDir : Path) (jobs : List Job) (h : Host)
    (events : List (Nat × Event)) (s : Pool) : Prop where
  jobs_eq : s.tasks.map Task.job = jobs
  within : ∀ e ∈ events, e.1 < jobs.length
  passed : ∀ (i : Nat) task, s.tasks[i]? = some task →
    c.Passed library outputDir jobs.length task.job (eventsOf i events) task.stage
  numbers : gathered Event.number? events = List.range' 1 s.completed
  compiles : s.host.trace.compiles = h.trace.compiles ++ gathered Event.call? events
  progress : s.host.trace.progress = h.trace.progress ++ gathered Event.notice? events

theorem keeps_starting : c.Keeps library outputDir jobs h [] (.starting h jobs) where
  jobs_eq := by
    unfold Pool.starting
    rw [List.map_map]
    exact List.map_id jobs
  within := nofun
  passed i task ht := by
    obtain ⟨job, -, rfl⟩ := List.mem_map.mp (List.mem_of_getElem? ht)
    rfl
  numbers := rfl
  compiles := (List.append_nil _).symm
  progress := (List.append_nil _).symm

theorem map_set_of_getElem? {α β : Type} (f : α → β) {l : List α} {x y : α} (hx : l[i]? = some x)
    (he : f y = f x) : (l.set i y).map f = l.map f := by
  rw [List.map_set, he]
  refine List.ext_getElem? fun j => ?_
  by_cases hj : i = j
  · subst hj
    rw [List.getElem?_set_self', List.getElem?_map, hx]
    rfl
  · rw [List.getElem?_set_ne hj]

theorem Keeps.length_tasks {events : List (Nat × Event)} (hk : c.Keeps library outputDir jobs h events s) :
    s.tasks.length = jobs.length := by
  rw [← hk.jobs_eq, List.length_map]

theorem Keeps.turn (ha : c.runner.Answers) {events : List (Nat × Event)} {e : Event}
    (hk : c.Keeps library outputDir jobs h events s) (ht : c.Turn library outputDir s i e s') :
    c.Keeps library outputDir jobs h (events ++ [(i, e)]) s' := by
  obtain ⟨task, next, hget, htasks, hjob, hpassed⟩ := ht.passed
  rw [hk.length_tasks] at hpassed
  obtain ⟨hcompiles, hprogress⟩ := ht.trace ha
  have hlt : i < jobs.length := by
    rw [← hk.length_tasks]
    exact (List.getElem?_eq_some_iff.mp hget).1
  refine ⟨?_, fun x hx => ?_, fun j other hj => ?_, ?_, ?_, ?_⟩
  · rw [htasks, map_set_of_getElem? _ hget hjob, hk.jobs_eq]
  · rcases List.mem_append.mp hx with hx | hx
    · exact hk.within x hx
    · rw [List.mem_singleton.mp hx]
      exact hlt
  · rw [htasks] at hj
    by_cases hij : i = j
    · subst hij
      rw [List.getElem?_set_self', hget] at hj
      obtain rfl : next = other := Option.some.inj hj
      rw [eventsOf_concat_self, hjob]
      exact hpassed _ (hk.passed i task hget)
    · rw [List.getElem?_set_ne hij] at hj
      rw [eventsOf_concat_ne hij]
      exact hk.passed j other hj
  · rw [gathered_concat, hk.numbers, ht.numbers]
  · rw [gathered_concat, hcompiles, hk.compiles, List.append_assoc]
  · rw [gathered_concat, hprogress, hk.progress, List.append_assoc]

/-- **What every turn keeps holds of a whole course.** -/
theorem Course.keeps (ha : c.runner.Answers) {events : List (Nat × Event)}
    (hc : c.Course library outputDir (.starting h jobs) events s) :
    c.Keeps library outputDir jobs h events s := by
  induction hc with
  | start => exact keeps_starting
  | turn _ ht ih => exact ih.turn ha ht

/-- A schedule for cells of available architectures is a course. -/
theorem exists_course (ha : c.runner.Answers) (harch : ∀ job ∈ jobs, job.1.architecture ∈ c.registry.ids)
    (turns : List Nat) : ∀ {s : Pool}, (Pool.starting h jobs).after c library outputDir turns = some s →
      ∃ events, events.map (·.1) = turns ∧ c.Course library outputDir (.starting h jobs) events s := by
  induction turns using List.reverseRecOn with
  | nil =>
    intro s hs
    cases hs
    exact ⟨[], rfl, .start⟩
  | append_singleton turns i ih =>
    intro s hs
    rw [Pool.after_concat] at hs
    obtain ⟨s1, hs1, hadvance⟩ := Option.bind_eq_some_iff.mp hs
    obtain ⟨events, rfl, hcourse⟩ := ih hs1
    have hjobs := (hcourse.keeps ha).jobs_eq
    obtain ⟨e, ht⟩ := turn_of_advance
      (fun task hm => harch task.job (hjobs ▸ List.mem_map_of_mem hm)) hadvance
    exact ⟨events ++ [(i, e)], by simp, hcourse.turn ht⟩

end CipherCorpus.Compiler
