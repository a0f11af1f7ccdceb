import CipherCorpus.Proofs.Sources.Cache
import CipherCorpus.Sources.Callers
import Mathlib.Algebra.Order.BigOperators.Group.Finset
import Mathlib.Data.Fintype.BigOperators

/-!
# Runs of a crew

A step of a crew is told apart by the stage of the caller that takes it (`Crew.Advances`), and it changes
the stage of no other caller.

* A run has at most nine steps for each caller (`Crew.Reaches.length_le`).
* Callers of one tree have one lock, and only the one that has taken it is inside (`Crew.Guarded`).
* A caller that is not disturbed does what `SourceCache.tree` does (`Crew.goes_tree`).
-/

namespace CipherCorpus.SourceCache

variable {a : SourceCache} {name : String} {version url : Option String} {h h' : Host}
  {answer : Except SourceError Path} {n : Nat} {calls : Fin n → Call} {trace : List (Fin n × Move)}

/-! ## One caller -/

/-- Some of the steps that fill the cache, and then the path. -/
def performAll (a : SourceCache) (cached : Path) (r : Request) : List Work → Attempt SourceError Path
  | [] => return cached
  | w :: rest => do
    a.perform cached r w
    a.performAll cached r rest

theorem tree_eq (a : SourceCache) (name : String) (version url : Option String) :
    a.tree name version url = (do
      if ← inspect (·.isThere (a.treePath name version)) then return a.treePath name version
      let r ← Attempt.ofOutcome (request name url)
      a.performAll (a.treePath name version) r filling) := rfl

theorem runs_tree_of_hit (hit : h.isThere (a.treePath name version) = true) :
    Runs (a.tree name version url).outcome h answer h' ↔
      answer = .ok (a.treePath name version) ∧ h' = h := by
  rw [tree_eq, Attempt.runs_inspect_bind]
  rw [if_pos hit, Attempt.outcome_pure, runs_pure]

theorem runs_tree_of_miss (hmiss : h.isThere (a.treePath name version) = false) :
    Runs (a.tree name version url).outcome h answer h' ↔
      (∃ e, request name url = .error e ∧ answer = .error e ∧ h' = h) ∨
      ∃ r, request name url = .ok r ∧
        Runs (a.performAll (a.treePath name version) r filling).outcome h answer h' := by
  rw [tree_eq, Attempt.runs_inspect_bind]
  rw [if_neg (by rw [hmiss]; decide), Attempt.runs_bind, Attempt.outcome_ofOutcome]
  simp only [runs_pure]
  constructor
  · rintro (⟨r, h1, ⟨hr, rfl⟩, hk⟩ | ⟨e, ⟨he, rfl⟩, rfl⟩)
    · exact Or.inr ⟨r, hr.symm, hk⟩
    · exact Or.inl ⟨e, he.symm, rfl, rfl⟩
  · rintro (⟨e, he, rfl, rfl⟩ | ⟨r, hr, hk⟩)
    · exact Or.inr ⟨e, ⟨he.symm, rfl⟩, rfl⟩
    · exact Or.inl ⟨r, h, ⟨hr.symm, rfl⟩, hk⟩

/-- Work that ends with the path goes through each of its steps. -/
theorem runs_performAll_cons {cached p : Path} {r : Request} {w : Work} {rest : List Work} :
    Runs (a.performAll cached r (w :: rest)).outcome h (.ok p) h' ↔
      ∃ h1, Runs (a.perform cached r w).outcome h (.ok ()) h1 ∧
        Runs (a.performAll cached r rest).outcome h1 (.ok p) h' := by
  show Runs (a.perform cached r w >>= fun _ => a.performAll cached r rest).outcome h (.ok p) h' ↔ _
  rw [Attempt.runs_bind]
  constructor
  · rintro (⟨u, h1, hw, hrest⟩ | ⟨e, -, he⟩)
    · exact ⟨h1, hw, hrest⟩
    · cases he
  · rintro ⟨h1, hw, hrest⟩
    exact Or.inl ⟨(), h1, hw, hrest⟩

/-! ## Steps of a crew -/

namespace Crew

variable {s s' s1 : Crew n} {i j : Fin n} {m : Move} {stage : Stage}

@[simp] theorem setStage_self (s : Crew n) (i : Fin n) (stage : Stage) :
    (s.setStage i stage).stages i = stage := if_pos rfl

theorem setStage_ne (s : Crew n) (stage : Stage) (hj : j ≠ i) :
    (s.setStage i stage).stages j = s.stages j := if_neg hj

@[simp] theorem setStage_host (s : Crew n) (i : Fin n) (stage : Stage) :
    (s.setStage i stage).host = s.host := rfl

@[simp] theorem setStage_locks (s : Crew n) (i : Fin n) (stage : Stage) :
    (s.setStage i stage).locks = s.locks := rfl

@[simp] theorem setStage_taken (s : Crew n) (i : Fin n) (stage : Stage) :
    (s.setStage i stage).taken = s.taken := rfl

/-- What a step of a caller can be, by the stage of the caller. -/
inductive Advances (a : SourceCache) (calls : Fin n → Call) (s : Crew n) (i : Fin n) :
    Move → Crew n → Prop where
  | known {lock} : s.stages i = .arriving →
      s.locks.lookup (a.treePath (calls i).name (calls i).version).text = some lock →
      Advances a calls s i .lookUp (s.setStage i (.waiting lock))
  | new : s.stages i = .arriving →
      s.locks.lookup (a.treePath (calls i).name (calls i).version).text = none →
      Advances a calls s i .lookUp ({ s with
        locks := ((a.treePath (calls i).name (calls i).version).text, s.locks.length) :: s.locks }.setStage i
          (.waiting s.locks.length))
  | take {lock} : s.stages i = .waiting lock → lock ∉ s.taken →
      Advances a calls s i .take ({ s with taken := lock :: s.taken }.setStage i (.holding lock))
  | hit {lock} : s.stages i = .holding lock →
      s.host.isThere (a.treePath (calls i).name (calls i).version) = true →
      Advances a calls s i .test
        (s.setStage i (.leaving lock (.ok (a.treePath (calls i).name (calls i).version))))
  | miss {lock r} : s.stages i = .holding lock →
      s.host.isThere (a.treePath (calls i).name (calls i).version) = false →
      request (calls i).name (calls i).url = .ok r →
      Advances a calls s i .test
        (s.setStage i (.toDo lock r (a.treePath (calls i).name (calls i).version) filling))
  | refused {lock e} : s.stages i = .holding lock →
      s.host.isThere (a.treePath (calls i).name (calls i).version) = false →
      request (calls i).name (calls i).url = .error e →
      Advances a calls s i .test (s.setStage i (.leaving lock (.error e)))
  | done {lock r w rest h} : s.stages i = .working lock r w rest →
      Runs (a.perform (a.treePath (calls i).name (calls i).version) r w).outcome s.host (.ok ()) h →
      Advances a calls s i (.perform w) ({ s with host := h }.setStage i
        (.toDo lock r (a.treePath (calls i).name (calls i).version) rest))
  | failed {lock r w rest e h} : s.stages i = .working lock r w rest →
      Runs (a.perform (a.treePath (calls i).name (calls i).version) r w).outcome s.host (.error e) h →
      Advances a calls s i (.perform w) ({ s with host := h }.setStage i (.leaving lock (.error e)))
  | release {lock answer} : s.stages i = .leaving lock answer →
      Advances a calls s i .release
        ({ s with taken := s.taken.erase lock }.setStage i (.returned answer))

theorem advances_of_advance (ha : s.advance a calls i = some (m, s')) : Advances a calls s i m s' := by
  unfold advance at ha
  dsimp only at ha
  cases hs : s.stages i with
  | arriving =>
    simp only [hs, Option.some.injEq, Prod.mk.injEq] at ha
    obtain ⟨rfl, rfl⟩ := ha
    unfold lookUp
    split
    · next hl => exact .known hs hl
    · next hl => exact .new hs hl
  | waiting lock =>
    simp only [hs] at ha
    split at ha
    · cases ha
    · next hfree =>
      cases ha
      exact .take hs hfree
  | holding lock =>
    simp only [hs, Option.some.injEq, Prod.mk.injEq] at ha
    obtain ⟨rfl, rfl⟩ := ha
    unfold test
    dsimp only
    split
    · next hit => exact .hit hs hit
    · next hmiss =>
      rw [Bool.not_eq_true] at hmiss
      split
      · next hr => exact .miss hs hmiss hr
      · next hr => exact .refused hs hmiss hr
  | working lock r w rest =>
    simp only [hs] at ha
    split at ha
    · next hr =>
      cases ha
      exact .done hs hr
    · next hr =>
      cases ha
      exact .failed hs hr
    · cases ha
  | leaving lock answer =>
    simp only [hs, Option.some.injEq, Prod.mk.injEq] at ha
    obtain ⟨rfl, rfl⟩ := ha
    exact .release hs
  | returned answer =>
    simp only [hs] at ha
    cases ha

/-- A step changes the stage of the caller that takes it, and of no other. -/
theorem Advances.stages_ne (ha : Advances a calls s i m s') (hj : j ≠ i) : s'.stages j = s.stages j := by
  cases ha with
  | known _ _ => exact setStage_ne _ _ hj
  | new _ _ => exact setStage_ne _ _ hj
  | take _ _ => exact setStage_ne _ _ hj
  | hit _ _ => exact setStage_ne _ _ hj
  | miss _ _ _ => exact setStage_ne _ _ hj
  | refused _ _ _ => exact setStage_ne _ _ hj
  | done _ _ => exact setStage_ne _ _ hj
  | failed _ _ => exact setStage_ne _ _ hj
  | release _ => exact setStage_ne _ _ hj

/-- What holds of all callers goes on to hold when it holds of the one that takes a step. -/
theorem Advances.forall_stages {P : Fin n → Stage → Prop} (ha : Advances a calls s i m s')
    (hi : P i (s'.stages i)) (hs : ∀ j, P j (s.stages j)) : ∀ j, P j (s'.stages j) := by
  intro j
  by_cases hj : j = i
  · subst hj
    exact hi
  · rw [ha.stages_ne hj]
    exact hs j

end Crew

/-! ## Runs are finite -/

namespace Stage

/-- How many steps a caller has before it at most. -/
def left : Stage → Nat
  | arriving => 9
  | waiting _ => 8
  | holding _ => 7
  | working _ _ _ rest => rest.length + 2
  | leaving _ _ => 1
  | returned _ => 0

theorem left_toDo (lock : Nat) (r : Request) (cached : Path) (works : List Work) :
    (toDo lock r cached works).left = works.length + 1 := by
  cases works with
  | nil => rfl
  | cons w rest => rfl

end Stage

namespace Crew

variable {s s' : Crew n} {i : Fin n} {m : Move}

/-- A step brings its caller nearer to the end. -/
theorem Advances.left_lt (ha : Advances a calls s i m s') :
    (s'.stages i).left < (s.stages i).left := by
  cases ha with
  | known hs _ =>
    rw [hs, setStage_self]
    exact Nat.lt_succ_self 8
  | new hs _ =>
    rw [hs, setStage_self]
    exact Nat.lt_succ_self 8
  | take hs _ =>
    rw [hs, setStage_self]
    exact Nat.lt_succ_self 7
  | hit hs _ =>
    rw [hs, setStage_self]
    exact Nat.succ_lt_succ (by decide : 0 < 6)
  | miss hs _ _ =>
    rw [hs, setStage_self, Stage.left_toDo]
    exact Nat.lt_succ_self 6
  | refused hs _ _ =>
    rw [hs, setStage_self]
    exact Nat.succ_lt_succ (by decide : 0 < 6)
  | done hs _ =>
    rw [hs, setStage_self, Stage.left_toDo]
    exact Nat.lt_succ_self _
  | failed hs _ =>
    rw [hs, setStage_self]
    exact Nat.succ_lt_succ (Nat.succ_pos _)
  | release hs =>
    rw [hs, setStage_self]
    exact Nat.one_pos

/-- How many steps a crew has before it at most. -/
def left (s : Crew n) : Nat := ∑ i, (s.stages i).left

theorem Advances.total_left_lt (ha : Advances a calls s i m s') : s'.left < s.left := by
  refine Finset.sum_lt_sum (fun j _ => ?_) ⟨i, Finset.mem_univ i, ha.left_lt⟩
  by_cases hj : j = i
  · subst hj
    exact Nat.le_of_lt ha.left_lt
  · rw [ha.stages_ne hj]

/-- **Every run is finite**: it has at most nine steps for each caller. -/
theorem Reaches.length_le (hr : (starting n h).Reaches a calls trace s) : trace.length ≤ 9 * n := by
  have hleft : trace.length + s.left ≤ 9 * n := by
    induction hr with
    | start =>
      have hsum : (starting n h).left = ∑ _i : Fin n, 9 := rfl
      rw [hsum, Finset.sum_const, Finset.card_univ, Fintype.card_fin]
      simp [Nat.mul_comm]
    | step _ ha ih =>
      have hlt := (advances_of_advance ha).total_left_lt
      rw [List.length_append, List.length_singleton]
      omega
  omega

end Crew

/-! ## One lock -/

/-- The lock that a caller waits for or has. -/
def Stage.lock? : Stage → Option Nat
  | arriving => none
  | waiting lock => some lock
  | holding lock => some lock
  | working lock _ _ _ => some lock
  | leaving lock _ => some lock
  | returned _ => none

@[simp] theorem Stage.lock?_toDo (lock : Nat) (r : Request) (cached : Path) (works : List Work) :
    (toDo lock r cached works).lock? = some lock := by
  cases works with
  | nil => rfl
  | cons w rest => rfl

@[simp] theorem Stage.isInside_toDo (lock : Nat) (r : Request) (cached : Path) (works : List Work) :
    (toDo lock r cached works).isInside = true := by
  cases works with
  | nil => rfl
  | cons w rest => rfl

namespace Crew

variable {s s' : Crew n} {i j : Fin n} {m : Move} {cached : Path}

/-- There is one lock, and when it is taken one caller is inside. -/
structure Guarded (cached : Path) (s : Crew n) : Prop where
  table : s.locks = [] ∨ s.locks = [(cached.text, 0)]
  lock_eq : ∀ i, ∀ lock ∈ (s.stages i).lock?, lock = 0
  alone : (s.taken = [] ∧ ∀ i, (s.stages i).isInside = false) ∨
    ∃ i, s.taken = [0] ∧ (s.stages i).isInside = true ∧ ∀ j, (s.stages j).isInside = true → j = i

theorem guarded_starting (cached : Path) (n : Nat) (h : Host) : (starting n h).Guarded cached where
  table := Or.inl rfl
  lock_eq := nofun
  alone := Or.inl ⟨rfl, fun _ => rfl⟩

namespace Guarded

theorem taken_of_inside (hg : s.Guarded cached) (hi : (s.stages i).isInside = true) :
    s.taken = [0] ∧ ∀ j, (s.stages j).isInside = true → j = i := by
  rcases hg.alone with ⟨-, hout⟩ | ⟨j, ht, -, hall⟩
  · rw [hout i] at hi
    cases hi
  · obtain rfl := hall i hi
    exact ⟨ht, hall⟩

/-- Where the caller of a step was inside before and after it or neither, the others do not matter. -/
theorem alone_of_same (hg : s.Guarded cached) (ha : Advances a calls s i m s')
    (ht : s'.taken = s.taken) (hin : (s'.stages i).isInside = (s.stages i).isInside) :
    (s'.taken = [] ∧ ∀ i, (s'.stages i).isInside = false) ∨
      ∃ i, s'.taken = [0] ∧ (s'.stages i).isInside = true ∧
        ∀ j, (s'.stages j).isInside = true → j = i := by
  have hsame : ∀ j, (s'.stages j).isInside = (s.stages j).isInside := by
    intro j
    by_cases hj : j = i
    · subst hj
      exact hin
    · rw [ha.stages_ne hj]
  simp only [hsame, ht]
  exact hg.alone

/-- A caller that looks its lock up gets the one lock there is. -/
theorem lookup_eq (hg : s.Guarded cached) {lock : Nat} (hl : s.locks.lookup cached.text = some lock) :
    lock = 0 := by
  rcases hg.table with ht | ht
  · rw [ht] at hl
    cases hl
  · rw [ht] at hl
    simpa using hl.symm

theorem nil_of_lookup (hg : s.Guarded cached) (hl : s.locks.lookup cached.text = none) :
    s.locks = [] := by
  rcases hg.table with ht | ht
  · exact ht
  · rw [ht] at hl
    simp at hl

theorem step (hg : s.Guarded cached)
    (hcalls : ∀ i, a.treePath (calls i).name (calls i).version = cached)
    (ha : Advances a calls s i m s') : s'.Guarded cached := by
  have hlock : (∀ lock ∈ (s'.stages i).lock?, lock = 0) → ∀ j, ∀ lock ∈ (s'.stages j).lock?, lock = 0 :=
    fun hi => ha.forall_stages (P := fun _ stage => ∀ lock ∈ stage.lock?, lock = 0) hi hg.lock_eq
  have hold : ∀ {lock}, (s.stages i).lock? = some lock → (s'.stages i).lock? = some lock →
      ∀ lock ∈ (s'.stages i).lock?, lock = 0 := by
    intro lock hs hs' lock' hm
    rw [hs', ← hs] at hm
    exact hg.lock_eq i lock' hm
  have hcase := ha
  cases ha with
  | known hs hl =>
    rw [hcalls i] at hl
    refine ⟨hg.table, hlock fun lock hm => ?_, hg.alone_of_same hcase rfl (by rw [hs, setStage_self]; rfl)⟩
    rw [setStage_self] at hm
    cases hm
    exact hg.lookup_eq hl
  | new hs hl =>
    rw [hcalls i] at hl
    have hnil := hg.nil_of_lookup hl
    refine ⟨Or.inr ?_, hlock fun lock hm => ?_,
      hg.alone_of_same hcase rfl (by rw [hs, setStage_self]; rfl)⟩
    · rw [setStage_locks, hcalls i, hnil]
      rfl
    · rw [setStage_self] at hm
      cases hm
      rw [hnil]
      rfl
  | take hs hfree =>
    have h0 := hg.lock_eq i _ (by rw [hs]; rfl)
    subst h0
    refine ⟨hg.table, hlock (hold (by rw [hs]; rfl) (by rw [setStage_self]; rfl)), Or.inr ?_⟩
    rcases hg.alone with ⟨ht, hout⟩ | ⟨j, ht, -, -⟩
    · refine ⟨i, by rw [setStage_taken, ht], by rw [setStage_self]; rfl, fun j hj => ?_⟩
      by_contra hne
      rw [setStage_ne _ _ hne] at hj
      rw [hout j] at hj
      cases hj
    · rw [ht] at hfree
      exact absurd List.mem_cons_self hfree
  | hit hs _ =>
    exact ⟨hg.table, hlock (hold (by rw [hs]; rfl) (by rw [setStage_self]; rfl)),
      hg.alone_of_same hcase rfl (by rw [hs, setStage_self]; rfl)⟩
  | miss hs _ _ =>
    exact ⟨hg.table, hlock (hold (by rw [hs]; rfl) (by rw [setStage_self, Stage.lock?_toDo])),
      hg.alone_of_same hcase rfl (by rw [hs, setStage_self, Stage.isInside_toDo]; rfl)⟩
  | refused hs _ _ =>
    exact ⟨hg.table, hlock (hold (by rw [hs]; rfl) (by rw [setStage_self]; rfl)),
      hg.alone_of_same hcase rfl (by rw [hs, setStage_self]; rfl)⟩
  | done hs _ =>
    exact ⟨hg.table, hlock (hold (by rw [hs]; rfl) (by rw [setStage_self, Stage.lock?_toDo])),
      hg.alone_of_same hcase rfl (by rw [hs, setStage_self, Stage.isInside_toDo]; rfl)⟩
  | failed hs _ =>
    exact ⟨hg.table, hlock (hold (by rw [hs]; rfl) (by rw [setStage_self]; rfl)),
      hg.alone_of_same hcase rfl (by rw [hs, setStage_self]; rfl)⟩
  | release hs =>
    have h0 := hg.lock_eq i _ (by rw [hs]; rfl)
    subst h0
    refine ⟨hg.table, hlock fun lock hm => ?_, Or.inl ?_⟩
    · rw [setStage_self] at hm
      cases hm
    · obtain ⟨ht, hall⟩ := hg.taken_of_inside (i := i) (by rw [hs]; rfl)
      refine ⟨by rw [setStage_taken, ht]; rfl, fun j => ?_⟩
      by_cases hj : j = i
      · subst hj
        rw [setStage_self]
        rfl
      · rw [setStage_ne _ _ hj]
        cases hin : (s.stages j).isInside with
        | false => rfl
        | true => exact absurd (hall j hin) hj

theorem of_reaches (hcalls : ∀ i, a.treePath (calls i).name (calls i).version = cached)
    (hr : (starting n h).Reaches a calls trace s) : s.Guarded cached := by
  induction hr with
  | start => exact guarded_starting cached n h
  | step _ ha ih => exact ih.step hcalls (advances_of_advance ha)

end Guarded

end Crew

/-! ## A caller that is not disturbed -/

namespace Crew

variable {s s1 s' : Crew n} {i : Fin n} {steps more : List Move} {cached : Path} {r : Request}

/-- Caller `i` takes these steps in a row. -/
structure Goes (a : SourceCache) (calls : Fin n → Call) (i : Fin n) (s : Crew n) (steps : List Move)
    (s' : Crew n) : Prop where
  run : ∀ {s0 : Crew n} {trace}, s0.Reaches a calls trace s →
    s0.Reaches a calls (trace ++ steps.map fun m => (i, m)) s'
  others : ∀ j, j ≠ i → s'.stages j = s.stages j

theorem Goes.refl (a : SourceCache) (calls : Fin n → Call) (i : Fin n) (s : Crew n) :
    Goes a calls i s [] s :=
  ⟨fun hr => by simpa using hr, fun _ _ => rfl⟩

theorem Goes.trans (h1 : Goes a calls i s steps s1) (h2 : Goes a calls i s1 more s') :
    Goes a calls i s (steps ++ more) s' := by
  refine ⟨fun hr => ?_, fun j hj => (h2.others j hj).trans (h1.others j hj)⟩
  rw [List.map_append, ← List.append_assoc]
  exact h2.run (h1.run hr)

theorem Goes.single {m : Move} (ha : s.advance a calls i = some (m, s')) : Goes a calls i s [m] s' :=
  ⟨fun hr => .step hr ha, fun _ hj => (advances_of_advance ha).stages_ne hj⟩

/-- A caller with work before it does it up to the first step that fails. -/
theorem goes_performAll (calls : Fin n → Call) (i : Fin n) (lock : Nat)
    (hcached : a.treePath (calls i).name (calls i).version = cached) (works : List Work) : ∀ {s : Crew n}, s.stages i = .toDo lock r cached works →
    Runs (a.performAll cached r works).outcome s.host answer h' →
    ∃ done s', done <+: works ∧ (works ≠ [] → done ≠ []) ∧ Goes a calls i s (done.map .perform) s' ∧
      s'.stages i = .leaving lock answer ∧ s'.host = h' ∧ s'.taken = s.taken := by
  induction works with
  | nil =>
    intro s hs hr
    obtain ⟨rfl, rfl⟩ := runs_pure.mp hr
    exact ⟨[], s, List.prefix_refl _, fun hne => absurd rfl hne, .refl a calls i s, hs, rfl, rfl⟩
  | cons w rest ih =>
    intro s hs hr
    rcases Attempt.runs_bind.mp hr with ⟨u, h1, hw, hrest⟩ | ⟨e, hw, rfl⟩
    · have hstep : s.advance a calls i =
          some (.perform w, { s with host := h1 }.setStage i (.toDo lock r cached rest)) := by
        unfold advance
        simp only [hs, Stage.toDo, hcached]
        rw [show (a.perform cached r w).outcome.run s.host = .ok (.ok (), h1) from hw]
      obtain ⟨done, s', hpre, -, hgoes, hend, hhost, htaken⟩ :=
        ih (s := { s with host := h1 }.setStage i (.toDo lock r cached rest)) (setStage_self _ _ _) hrest
      refine ⟨w :: done, s', (List.prefix_cons_inj w).mpr hpre, fun _ => by simp, ?_, hend, hhost, htaken⟩
      exact (Goes.single hstep).trans hgoes
    · have hstep : s.advance a calls i =
          some (.perform w, { s with host := h' }.setStage i (.leaving lock (.error e))) := by
        unfold advance
        simp only [hs, Stage.toDo, hcached]
        rw [show (a.perform cached r w).outcome.run s.host = .ok (.error e, h') from hw]
      exact ⟨[w], _, by simp, fun _ => by simp, .single hstep, setStage_self _ _ _, rfl, rfl⟩

/-- A caller finds its lock in the table, or makes it. -/
theorem exists_lookUp (a : SourceCache) (calls : Fin n → Call) (hs : s.stages i = .arriving) :
    ∃ lock s1, s.advance a calls i = some (.lookUp, s1) ∧ s1.stages i = .waiting lock ∧
      s1.host = s.host ∧ s1.taken = s.taken := by
  unfold advance
  simp only [hs]
  unfold lookUp
  split
  · exact ⟨_, _, rfl, setStage_self _ _ _, rfl, rfl⟩
  · exact ⟨_, _, rfl, setStage_self _ _ _, rfl, rfl⟩

/-- The test of a path that is not there, with something to fetch, begins the work. -/
theorem advance_of_miss (calls : Fin n → Call) {lock : Nat} (hs : s.stages i = .holding lock)
    (hmiss : s.host.isThere (a.treePath (calls i).name (calls i).version) = false)
    (hreq : request (calls i).name (calls i).url = .ok r) :
    s.advance a calls i = some (.test,
      s.setStage i (.toDo lock r (a.treePath (calls i).name (calls i).version) filling)) := by
  unfold advance
  simp only [hs]
  unfold test
  simp only [hmiss, hreq]
  rfl

/-- **A caller that is not disturbed does what a single call does**: when no lock is taken it goes through
its steps, and then the machine and the answer are those of `SourceCache.tree`. -/
theorem goes_tree (calls : Fin n → Call) (i : Fin n) (hs : s.stages i = .arriving) (hfree : s.taken = [])
    (hmiss : s.host.isThere (a.treePath (calls i).name (calls i).version) = false)
    (hreq : request (calls i).name (calls i).url = .ok r)
    (hr : Runs (a.tree (calls i).name (calls i).version (calls i).url).outcome s.host answer h') :
    ∃ done s', done <+: filling ∧ done ≠ [] ∧
      Goes a calls i s (.lookUp :: .take :: .test :: (done.map .perform ++ [.release])) s' ∧
      s'.stages i = .returned answer ∧ s'.host = h' ∧ s'.taken = [] := by
  obtain ⟨lock, s1, hlook, hs1, hhost1, htaken1⟩ := exists_lookUp a calls hs
  have hfree1 : lock ∉ s1.taken := by
    rw [htaken1, hfree]
    exact List.not_mem_nil
  have htake : s1.advance a calls i =
      some (.take, { s1 with taken := lock :: s1.taken }.setStage i (.holding lock)) := by
    unfold advance
    simp only [hs1, if_neg hfree1]
  generalize hs2 : { s1 with taken := lock :: s1.taken }.setStage i (.holding lock) = s2 at htake
  have hstage2 : s2.stages i = .holding lock := by rw [← hs2, setStage_self]
  have hhost2 : s2.host = s.host := by rw [← hs2, setStage_host, hhost1]
  have htest := advance_of_miss calls hstage2 (by rw [hhost2]; exact hmiss) hreq
  rcases (runs_tree_of_miss hmiss).mp hr with ⟨e, he, -, -⟩ | ⟨r', hr', hwork⟩
  · cases hreq.symm.trans he
  · cases hreq.symm.trans hr'
    obtain ⟨done, s3, hpre, hne, hgoes, hs3, hhost3, htaken3⟩ := goes_performAll calls i lock rfl filling
      (setStage_self s2 i _) (by rw [setStage_host, hhost2]; exact hwork)
    have hrelease : s3.advance a calls i = some (.release,
        { s3 with taken := s3.taken.erase lock }.setStage i (.returned answer)) := by
      unfold advance
      simp only [hs3]
    refine ⟨done, { s3 with taken := s3.taken.erase lock }.setStage i (.returned answer), hpre,
      hne (by decide), ?_, setStage_self _ _ _, hhost3, ?_⟩
    · exact (Goes.single hlook).trans ((Goes.single htake).trans
        ((Goes.single htest).trans (hgoes.trans (.single hrelease))))
    · rw [setStage_taken]
      show s3.taken.erase lock = []
      rw [htaken3, setStage_taken, ← hs2, setStage_taken, htaken1, hfree]
      exact List.erase_cons_head lock []

end Crew

end CipherCorpus.SourceCache
