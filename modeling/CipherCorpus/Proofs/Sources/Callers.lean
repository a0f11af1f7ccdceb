import CipherCorpus.Proofs.Sources.Crew

/-!
# Callers share one fetch

Any number of callers look for one cached tree at once, which is not there at the start. When each of
them alone would get it, then in every run of the crew

* one caller fetches, and no other one does;
* every caller that has returned has the path, and the machine is then as a single caller would have left
  it, so the tree is complete (`callers_share_one_fetch`).

While a caller has not returned some caller can take a step, so every run can be brought to its end
(`exists_all_returned`).

The machine is as it was at the start, or on the way of the one caller that fetches, or as that caller
left it (`Phase`): the others wait for the lock, or find the tree when they have it.
-/

namespace CipherCorpus.SourceCache

variable {a : SourceCache} {name : String} {version url : Option String} {h h' : Host} {n : Nat}
  {trace : List (Fin n × Move)}

/-! ## One fetch -/

/-- How many times a run fetches. -/
def fetches (trace : List (Fin n × Move)) : Nat := trace.countP (·.2 == .perform .fetch)

theorem fetches_append (trace more : List (Fin n × Move)) :
    fetches (trace ++ more) = fetches trace + fetches more := List.countP_append

theorem fetches_concat (trace : List (Fin n × Move)) (i : Fin n) (m : Move) :
    fetches (trace ++ [(i, m)]) = fetches trace + if m = .perform .fetch then 1 else 0 := by
  rw [fetches_append]
  unfold fetches
  rw [List.countP_singleton]
  simp

/-- Every caller asks for the same tree, at an address of its own. -/
def sameTree (name : String) (version : Option String) (urls : Fin n → Option String) (i : Fin n) : Call :=
  ⟨name, version, urls i⟩

/-- A caller alone on `h` gets the tree, and leaves `h'`. -/
def Gets (a : SourceCache) (name : String) (version url : Option String) (h h' : Host) : Prop :=
  Runs (a.tree name version url).outcome h (.ok (a.treePath name version)) h' ∧
    h'.isThere (a.treePath name version) = true

namespace Stage

/-- The caller has not come to its lock. -/
def isQueued : Stage → Bool
  | arriving => true
  | waiting _ => true
  | _ => false

/-- No caller has fetched: the stage is before the test of the path, or before the first step of work. -/
def IsBefore (r? : Except SourceError Request) : Stage → Prop
  | working _ r w rest => r? = .ok r ∧ w :: rest = filling
  | leaving _ _ => False
  | returned _ => False
  | _ => True

/-- The tree is there: there is no work, and every answer is the path. -/
def IsAfter (cached : Path) : Stage → Prop
  | working .. => False
  | leaving _ answer => answer = .ok cached
  | returned answer => answer = .ok cached
  | _ => True

theorem isAfter_of_isQueued {cached : Path} {stage : Stage} (h : stage.isQueued = true) :
    stage.IsAfter cached := by
  cases stage <;> trivial

end Stage

variable {urls : Fin n → Option String} {start : Host}

/-- How far a crew has come with filling the cache. -/
inductive Phase (a : SourceCache) (name : String) (version : Option String) (urls : Fin n → Option String)
    (start : Host) (trace : List (Fin n × Move)) (s : Crew n) : Prop where
  | before : s.host = start → fetches trace = 0 →
      (∀ i, (s.stages i).IsBefore (request name (urls i))) → Phase a name version urls start trace s
  /-- A caller that has fetched is on its way: what it has to do yet leads to its end. -/
  | during {j lock r w rest h} : fetches trace = 1 → (j, .perform .fetch) ∈ trace →
      a.Gets name version (urls j) start h → s.stages j = .working lock r w rest →
      .fetch ∉ w :: rest →
      Runs (a.performAll (a.treePath name version) r (w :: rest)).outcome s.host
        (.ok (a.treePath name version)) h →
      (∀ i, i ≠ j → (s.stages i).isQueued = true) → Phase a name version urls start trace s
  | after {j} : fetches trace = 1 → (j, .perform .fetch) ∈ trace →
      a.Gets name version (urls j) start s.host →
      (∀ i, (s.stages i).IsAfter (a.treePath name version)) → Phase a name version urls start trace s

/-- A caller that alone would get the tree has something to fetch, and its work ends with the path. -/
theorem Gets.request_eq (hget : a.Gets name version url h h')
    (hmiss : h.isThere (a.treePath name version) = false) :
    ∃ r, request name url = .ok r ∧ Runs (a.performAll (a.treePath name version) r filling).outcome h
      (.ok (a.treePath name version)) h' := by
  rcases (runs_tree_of_miss hmiss).mp hget.1 with ⟨e, -, he, -⟩ | ⟨r, hr, hwork⟩
  · cases he
  · exact ⟨r, hr, hwork⟩

/-- The next step of work that ends with the path does not fail. -/
theorem performed_of_runs {cached p : Path} {r : Request} {w : Work} {rest : List Work} {h1 : Host}
    {x : Except SourceError Unit}
    (hwork : Runs (a.performAll cached r (w :: rest)).outcome h (.ok p) h')
    (hstep : Runs (a.perform cached r w).outcome h x h1) :
    x = .ok () ∧ Runs (a.performAll cached r rest).outcome h1 (.ok p) h' := by
  obtain ⟨h2, hw, hrest⟩ := runs_performAll_cons.mp hwork
  obtain ⟨rfl, rfl⟩ := hstep.unique hw
  exact ⟨rfl, hrest⟩

/-- Callers of one tree share one lock. -/
theorem guarded_of_reaches {s : Crew n}
    (hr : (Crew.starting n start).Reaches a (sameTree name version urls) trace s) :
    s.Guarded (a.treePath name version) := by
  have hcalls : ∀ i, a.treePath (sameTree name version urls i).name
      (sameTree name version urls i).version = a.treePath name version := fun _ => rfl
  exact Crew.Guarded.of_reaches hcalls hr

namespace Phase

variable {s s' : Crew n} {i : Fin n} {m : Move}

/-- Before the fetch: the caller inside may test the path and be the one to fetch. -/
theorem step_before (hg : s.Guarded (a.treePath name version))
    (hmiss : start.isThere (a.treePath name version) = false)
    (halone : ∃ h, a.Gets name version (urls i) start h)
    (hhost : s.host = start) (hcount : fetches trace = 0)
    (hall : ∀ i, (s.stages i).IsBefore (request name (urls i)))
    (ha : s.Advances a (sameTree name version urls) i m s') :
    Phase a name version urls start (trace ++ [(i, m)]) s' := by
  obtain ⟨h, hget⟩ := halone
  obtain ⟨r0, hreq, hwork⟩ := hget.request_eq hmiss
  have hforall : (s'.stages i).IsBefore (request name (urls i)) →
      ∀ j, (s'.stages j).IsBefore (request name (urls j)) := fun hi =>
    ha.forall_stages (P := fun j stage => stage.IsBefore (request name (urls j))) hi hall
  have hcount' : m ≠ .perform .fetch → fetches (trace ++ [(i, m)]) = 0 := by
    intro hm
    rw [fetches_concat, hcount, if_neg hm]
  cases ha with
  | known _ _ =>
    exact .before hhost (hcount' (by decide)) (hforall (by rw [Crew.setStage_self]; trivial))
  | new _ _ =>
    exact .before hhost (hcount' (by decide)) (hforall (by rw [Crew.setStage_self]; trivial))
  | take _ _ =>
    exact .before hhost (hcount' (by decide)) (hforall (by rw [Crew.setStage_self]; trivial))
  | hit _ hit =>
    rw [hhost] at hit
    exact absurd (hmiss.symm.trans hit) (by decide)
  | miss _ _ hr =>
    refine .before hhost (hcount' (by decide)) (hforall ?_)
    rw [Crew.setStage_self]
    exact ⟨hr, rfl⟩
  | refused _ _ hr =>
    have he := hr.symm.trans hreq
    cases he
  | done hs hw =>
    have hbefore := hall i
    rw [hs] at hbefore
    obtain ⟨hr, hwr⟩ := hbefore
    cases hreq.symm.trans hr
    cases hwr
    rw [hhost] at hw
    obtain ⟨-, hrest⟩ := performed_of_runs hwork hw
    refine .during (by rw [fetches_concat, hcount, if_pos rfl]) (by simp) hget
      (Crew.setStage_self _ _ _) (by decide) hrest fun j hj => ?_
    -- the caller that works is the only one inside
    obtain ⟨-, honly⟩ := hg.taken_of_inside (i := i) (by rw [hs]; rfl)
    have hout : (s.stages j).isInside ≠ true := fun hin => hj (honly j hin)
    have hbefore := hall j
    rw [Crew.setStage_ne _ _ hj]
    show (s.stages j).isQueued = true
    cases hsj : s.stages j with
    | arriving => rfl
    | waiting lock => rfl
    | returned answer =>
      rw [hsj] at hbefore
      exact hbefore.elim
    | _ =>
      rw [hsj] at hout
      exact absurd rfl hout
  | failed hs hw =>
    have hbefore := hall i
    rw [hs] at hbefore
    obtain ⟨hr, hwr⟩ := hbefore
    cases hreq.symm.trans hr
    cases hwr
    rw [hhost] at hw
    obtain ⟨he, -⟩ := performed_of_runs hwork hw
    cases he
  | release hs =>
    have hbefore := hall i
    rw [hs] at hbefore
    exact hbefore.elim

/-- While one caller is on its way the others queue, and each of its steps leads on. -/
theorem step_during {j : Fin n} {lock : Nat} {r : Request} {w : Work} {rest : List Work} {h : Host}
    (hg : s.Guarded (a.treePath name version)) (hcount : fetches trace = 1)
    (hmem : (j, .perform .fetch) ∈ trace) (hget : a.Gets name version (urls j) start h)
    (hs : s.stages j = .working lock r w rest) (hfetch : .fetch ∉ w :: rest)
    (hwork : Runs (a.performAll (a.treePath name version) r (w :: rest)).outcome s.host
      (.ok (a.treePath name version)) h)
    (hqueue : ∀ i, i ≠ j → (s.stages i).isQueued = true)
    (ha : s.Advances a (sameTree name version urls) i m s') :
    Phase a name version urls start (trace ++ [(i, m)]) s' := by
  have hmem' : (j, .perform .fetch) ∈ trace ++ [(i, m)] := List.mem_append_left _ hmem
  have hcount' : m ≠ .perform .fetch → fetches (trace ++ [(i, m)]) = 1 := by
    intro hm
    rw [fetches_concat, hcount, if_neg hm]
  by_cases hi : i = j
  · subst hi
    have hcase := ha
    cases ha with
    | done hs' hw =>
      cases hs'.symm.trans hs
      obtain ⟨-, hrest⟩ := performed_of_runs hwork hw
      have hne : Move.perform w ≠ .perform .fetch := by
        intro he
        cases he
        exact hfetch List.mem_cons_self
      cases rest with
      | nil =>
        obtain ⟨-, rfl⟩ := runs_pure.mp hrest
        refine .after (hcount' hne) hmem' hget fun k => ?_
        by_cases hk : k = i
        · subst hk
          rw [Crew.setStage_self]
          rfl
        · rw [hcase.stages_ne hk]
          exact Stage.isAfter_of_isQueued (hqueue k hk)
      | cons w' rest =>
        refine .during (hcount' hne) hmem' hget (Crew.setStage_self _ _ _)
          (fun hm => hfetch (List.mem_cons_of_mem _ hm)) hrest fun k hk => ?_
        rw [hcase.stages_ne hk]
        exact hqueue k hk
    | failed hs' hw =>
      cases hs'.symm.trans hs
      obtain ⟨he, -⟩ := performed_of_runs hwork hw
      cases he
    | _ => simp_all only [reduceCtorEq]
  · have hji : j ≠ i := fun e => hi e.symm
    have hqi := hqueue i hi
    -- a caller in the queue can look its lock up; the lock itself is taken
    have hstay : m ≠ .perform .fetch → s'.host = s.host → (s'.stages i).isQueued = true →
        Phase a name version urls start (trace ++ [(i, m)]) s' := by
      intro hm hhost hq
      refine .during (hcount' hm) hmem' hget ((ha.stages_ne hji).trans hs) hfetch (hhost ▸ hwork) ?_
      intro k hk
      by_cases hki : k = i
      · subst hki
        exact hq
      · rw [ha.stages_ne hki]
        exact hqueue k hk
    cases ha with
    | known _ _ => exact hstay (by decide) rfl (by rw [Crew.setStage_self]; rfl)
    | new _ _ => exact hstay (by decide) rfl (by rw [Crew.setStage_self]; rfl)
    | take hs' hfree =>
      have h0 := hg.lock_eq i _ (by rw [hs']; rfl)
      obtain ⟨ht, -⟩ := hg.taken_of_inside (i := j) (by rw [hs]; rfl)
      rw [h0, ht] at hfree
      exact absurd List.mem_cons_self hfree
    | _ => simp_all only [Stage.isQueued, reduceCtorEq]

/-- Once the tree is there every caller finds it. -/
theorem step_after {j : Fin n} (hcount : fetches trace = 1) (hmem : (j, .perform .fetch) ∈ trace)
    (hget : a.Gets name version (urls j) start s.host)
    (hall : ∀ i, (s.stages i).IsAfter (a.treePath name version))
    (ha : s.Advances a (sameTree name version urls) i m s') :
    Phase a name version urls start (trace ++ [(i, m)]) s' := by
  have hstay : m ≠ .perform .fetch → s'.host = s.host →
      (s'.stages i).IsAfter (a.treePath name version) →
      Phase a name version urls start (trace ++ [(i, m)]) s' := by
    intro hm hhost hi
    refine .after (j := j) ?_ (List.mem_append_left _ hmem) (hhost ▸ hget)
      (ha.forall_stages (P := fun _ stage => stage.IsAfter (a.treePath name version)) hi hall)
    rw [fetches_concat, hcount, if_neg hm]
  have hafter := hall i
  cases ha with
  | known _ _ => exact hstay (by decide) rfl (by rw [Crew.setStage_self]; trivial)
  | new _ _ => exact hstay (by decide) rfl (by rw [Crew.setStage_self]; trivial)
  | take _ _ => exact hstay (by decide) rfl (by rw [Crew.setStage_self]; trivial)
  | hit _ _ => exact hstay (by decide) rfl (by rw [Crew.setStage_self]; rfl)
  | miss _ hmiss _ => exact absurd (hmiss.symm.trans hget.2) (by decide)
  | refused _ hmiss _ => exact absurd (hmiss.symm.trans hget.2) (by decide)
  | done hs _ =>
    rw [hs] at hafter
    exact hafter.elim
  | failed hs _ =>
    rw [hs] at hafter
    exact hafter.elim
  | release hs =>
    rw [hs] at hafter
    exact hstay (by decide) rfl (by rw [Crew.setStage_self]; exact hafter)

theorem of_reaches (hmiss : start.isThere (a.treePath name version) = false)
    (halone : ∀ i, ∃ h, a.Gets name version (urls i) start h)
    (hr : (Crew.starting n start).Reaches a (sameTree name version urls) trace s) :
    Phase a name version urls start trace s := by
  induction hr with
  | start => exact .before rfl rfl fun _ => trivial
  | @step trace m i s1 s2 hr ha ih =>
    have hg := guarded_of_reaches hr
    have ha := Crew.advances_of_advance ha
    cases ih with
    | before hhost hcount hall => exact step_before hg hmiss (halone i) hhost hcount hall ha
    | during hcount hmem hget hs hfetch hwork hqueue =>
      exact step_during hg hcount hmem hget hs hfetch hwork hqueue ha
    | after hcount hmem hget hall => exact step_after hcount hmem hget hall ha

/-- Work that is next can be done. -/
theorem exists_performed (hp : Phase a name version urls start trace s)
    (hmiss : start.isThere (a.treePath name version) = false)
    (halone : ∀ i, ∃ h, a.Gets name version (urls i) start h) {lock : Nat} {r : Request} {w : Work}
    {rest : List Work} (hs : s.stages i = .working lock r w rest) :
    ∃ h, Runs (a.perform (a.treePath name version) r w).outcome s.host (.ok ()) h := by
  cases hp with
  | before hhost _ hall =>
    have hbefore := hall i
    rw [hs] at hbefore
    obtain ⟨hr, hwr⟩ := hbefore
    obtain ⟨h, hget⟩ := halone i
    obtain ⟨r0, hreq, hwork⟩ := hget.request_eq hmiss
    cases hreq.symm.trans hr
    rw [← hwr, ← hhost] at hwork
    obtain ⟨h1, hw, -⟩ := runs_performAll_cons.mp hwork
    exact ⟨h1, hw⟩
  | @during j lock' r' w' rest' h _ _ _ hs' _ hwork hqueue =>
    by_cases hi : i = j
    · subst hi
      cases hs'.symm.trans hs
      obtain ⟨h1, hw, -⟩ := runs_performAll_cons.mp hwork
      exact ⟨h1, hw⟩
    · have hq := hqueue i hi
      rw [hs] at hq
      cases hq
  | after _ _ _ hall =>
    have hafter := hall i
    rw [hs] at hafter
    exact hafter.elim

end Phase

/-- Unless all have returned, some caller can take a step: the one inside, or else any other. -/
theorem exists_advance {s : Crew n} (hg : s.Guarded (a.treePath name version))
    (hp : Phase a name version urls start trace s)
    (hmiss : start.isThere (a.treePath name version) = false)
    (halone : ∀ i, ∃ h, a.Gets name version (urls i) start h) :
    (∀ i, (s.stages i).isReturned = true) ∨
      ∃ i m s', s.advance a (sameTree name version urls) i = some (m, s') := by
  rcases hg.alone with ⟨hfree, hout⟩ | ⟨i, -, hin, -⟩
  · by_cases hall : ∀ i, (s.stages i).isReturned = true
    · exact Or.inl hall
    · right
      obtain ⟨i, hi⟩ := not_forall.mp hall
      have hout := hout i
      refine ⟨i, ?_⟩
      unfold Crew.advance
      cases hs : s.stages i with
      | arriving => exact ⟨_, _, rfl⟩
      | waiting lock =>
        simp only [hfree]
        exact ⟨_, _, rfl⟩
      | returned answer =>
        rw [hs] at hi
        exact absurd rfl hi
      | _ =>
        rw [hs] at hout
        cases hout
  · right
    refine ⟨i, ?_⟩
    cases hs : s.stages i with
    | holding lock =>
      unfold Crew.advance
      simp only [hs]
      exact ⟨_, _, rfl⟩
    | working lock r w rest =>
      obtain ⟨h, hw⟩ := hp.exists_performed hmiss halone hs
      unfold Crew.advance
      simp only [hs]
      rw [show (a.perform (a.treePath (sameTree name version urls i).name
        (sameTree name version urls i).version) r w).outcome.run s.host = .ok (.ok (), h) from hw]
      exact ⟨_, _, rfl⟩
    | leaving lock answer =>
      unfold Crew.advance
      simp only [hs]
      exact ⟨_, _, rfl⟩
    | _ =>
      rw [hs] at hin
      cases hin

/-- Every run can be brought to its end. -/
theorem exists_all_returned {s : Crew n} (hmiss : start.isThere (a.treePath name version) = false)
    (halone : ∀ i, ∃ h, a.Gets name version (urls i) start h)
    (hr : (Crew.starting n start).Reaches a (sameTree name version urls) trace s) :
    ∃ more s', (Crew.starting n start).Reaches a (sameTree name version urls) (trace ++ more) s' ∧
      ∀ i, (s'.stages i).isReturned = true := by
  -- each step brings a run nearer to the bound on its length
  induction hk : 9 * n - trace.length using Nat.strong_induction_on generalizing trace s with
  | _ k ih =>
    have hg := guarded_of_reaches hr
    have hp : Phase a name version urls start trace s := .of_reaches hmiss halone hr
    rcases exists_advance hg hp hmiss halone with hall | ⟨i, m, s1, ha⟩
    · exact ⟨[], s, by simpa using hr, hall⟩
    · have hr1 := hr.step ha
      have hlength := hr1.length_le
      rw [List.length_append, List.length_singleton] at hlength
      obtain ⟨more, s', hr', hall⟩ := ih _
        (by rw [List.length_append, List.length_singleton]; omega) hr1 rfl
      exact ⟨(i, m) :: more, s', by simpa using hr', hall⟩

/-! ## Main result -/

/-- **Callers share one fetch.**  Callers look for one tree that is not cached, and each of them alone
would get it.  However their steps are interleaved: at most one of them fetches; when a caller has
returned it has the path, one fetch was made, and the machine is as the caller that fetched would have
left it alone; unless all have returned some caller can take a step, and the run has at most nine steps
for each caller. -/
theorem callers_share_one_fetch {s : Crew n} (hmiss : start.isThere (a.treePath name version) = false)
    (halone : ∀ i, ∃ h, a.Gets name version (urls i) start h)
    (hr : (Crew.starting n start).Reaches a (sameTree name version urls) trace s) :
    fetches trace ≤ 1 ∧
    (∀ i answer, s.stages i = .returned answer →
      answer = .ok (a.treePath name version) ∧ fetches trace = 1 ∧
        ∃ j, (j, .perform .fetch) ∈ trace ∧ a.Gets name version (urls j) start s.host) ∧
    ((∀ i, (s.stages i).isReturned = true) ∨
      ∃ i m s', s.advance a (sameTree name version urls) i = some (m, s')) ∧
    trace.length ≤ 9 * n := by
  have hg := guarded_of_reaches hr
  have hp : Phase a name version urls start trace s := .of_reaches hmiss halone hr
  refine ⟨?_, ?_, exists_advance hg hp hmiss halone, hr.length_le⟩
  · cases hp with
    | before _ hcount _ => omega
    | during hcount _ _ _ _ _ _ => omega
    | after hcount _ _ _ => omega
  · intro i answer hi
    cases hp with
    | before _ _ hall =>
      have hbefore := hall i
      rw [hi] at hbefore
      exact hbefore.elim
    | @during j _ _ _ _ _ _ _ _ hs _ _ hqueue =>
      by_cases hij : i = j
      · subst hij
        cases hs.symm.trans hi
      · have hq := hqueue i hij
        rw [hi] at hq
        cases hq
    | after hcount hmem hget hall =>
      have hafter := hall i
      rw [hi] at hafter
      exact ⟨hafter, hcount, _, hmem, hget⟩

/-! ## Examples -/

/-- Whether a tree is had, on a host that then passes a test. -/
def yieldsTree (a : SourceCache) (name : String) (version url : Option String) (h : Host)
    (p : Host → Bool) : Bool :=
  match (a.tree name version url).outcome.run h with
  | .ok (.ok _, h') => p h'
  | _ => false

theorem exists_of_yieldsTree {p : Host → Bool} (hy : a.yieldsTree name version url h p = true) :
    ∃ h', Runs (a.tree name version url).outcome h (.ok (a.treePath name version)) h' ∧ p h' = true := by
  unfold yieldsTree at hy
  split at hy
  · next path h' hr =>
    obtain rfl := tree_path hr
    exact ⟨h', hr, hy⟩
  · cases hy

/-- A zip archive of one file `f.c`. -/
def zipOfFile : List UInt8 :=
  [80, 75, 3, 4, 20, 0, 0, 0, 0, 0, 0, 0, 33, 0, 51, 98, 135, 230, 6, 0, 0, 0, 6, 0, 0, 0, 3, 0,
  0, 0, 102, 46, 99, 105, 110, 116, 32, 102, 59, 80, 75, 1, 2, 20, 3, 20, 0, 0, 0, 0, 0, 0, 0,
  33, 0, 51, 98, 135, 230, 6, 0, 0, 0, 6, 0, 0, 0, 3, 0, 0, 0, 0, 0, 0, 0, 0, 0, 0, 0, 128, 1,
  0, 0, 0, 0, 102, 46, 99, 80, 75, 5, 6, 0, 0, 0, 0, 1, 0, 1, 0, 49, 0, 0, 0, 39, 0, 0, 0, 0, 0]

/-- A zip archive of one link `l` to `../.staging-x`. -/
def zipOfLink : List UInt8 :=
  [80, 75, 3, 4, 20, 0, 0, 0, 0, 0, 0, 0, 33, 0, 210, 178, 175, 86, 13, 0, 0, 0, 13, 0, 0, 0, 1,
  0, 0, 0, 108, 46, 46, 47, 46, 115, 116, 97, 103, 105, 110, 103, 45, 120, 80, 75, 1, 2, 20, 3,
  20, 0, 0, 0, 0, 0, 0, 0, 33, 0, 210, 178, 175, 86, 13, 0, 0, 0, 13, 0, 0, 0, 1, 0, 0, 0, 0, 0,
  0, 0, 0, 0, 0, 0, 255, 161, 0, 0, 0, 0, 108, 80, 75, 5, 6, 0, 0, 0, 0, 1, 0, 1, 0, 47, 0, 0,
  0, 44, 0, 0, 0, 0, 0]

/-- A cache that is filled from one archive. -/
def filledFrom (data : List UInt8) : SourceCache := ⟨⟨"/s"⟩, .delivering data⟩

/-- A machine without files. -/
def bareHost : Host := ⟨.empty, [], [], ⟨0, 0⟩, "", 1, .empty⟩

/-- Two callers and an archive of a file. -/
theorem two_callers_share_one_fetch :
    let a := filledFrom zipOfFile
    let urls : Fin 2 → Option String := fun _ => some "http://h/x.zip"
    bareHost.isThere (a.treePath "x" none) = false ∧ (∀ i, ∃ h, a.Gets "x" none (urls i) bareHost h) ∧
      ∃ trace s, (Crew.starting 2 bareHost).Reaches a (sameTree "x" none urls) trace s ∧
        s.stages 0 = .returned (.ok ⟨"/s/x"⟩) ∧ s.stages 1 = .returned (.ok ⟨"/s/x"⟩) ∧
        fetches trace = 1 := by
  intro a urls
  have hmiss : bareHost.isThere (a.treePath "x" none) = false := by decide +kernel
  have halone : ∀ i, ∃ h, a.Gets "x" none (urls i) bareHost h := by
    intro i
    have hy : a.yieldsTree "x" none (some "http://h/x.zip") bareHost
        (fun h => h.isThere (a.treePath "x" none)) = true := by decide +kernel
    obtain ⟨h, hr, hthere⟩ := exists_of_yieldsTree hy
    exact ⟨h, hr, hthere⟩
  obtain ⟨trace, s, hr, hall⟩ := exists_all_returned hmiss halone .start
  have hplace : a.treePath "x" none = ⟨"/s/x"⟩ := by decide +kernel
  have hreturned : ∀ i, s.stages i = .returned (.ok ⟨"/s/x"⟩) ∧ fetches trace = 1 := by
    intro i
    have hi := hall i
    cases hs : s.stages i with
    | returned answer =>
      obtain ⟨-, hanswer, -⟩ := callers_share_one_fetch hmiss halone hr
      obtain ⟨rfl, hone, -⟩ := hanswer i answer hs
      exact ⟨by rw [hplace], hone⟩
    | _ =>
      rw [hs] at hi
      cases hi
  exact ⟨hmiss, halone, trace, s, hr, (hreturned 0).1, (hreturned 1).1, (hreturned 0).2⟩

/-- What is done of filling the cache, when anything is done, holds one fetch. -/
theorem count_fetch_of_prefix {done : List Work} (hpre : done <+: filling) (hne : done ≠ []) :
    done.count .fetch = 1 := by
  obtain ⟨rest, hrest⟩ := hpre
  cases done with
  | nil => exact absurd rfl hne
  | cons w done =>
    obtain ⟨rfl, htail⟩ := List.cons.inj hrest
    have hnone : .fetch ∉ done := by
      intro hm
      have hall : .fetch ∈ [Work.reset, .unpack, .place, .discard] :=
        htail ▸ List.mem_append_left rest hm
      exact absurd hall (by decide)
    rw [List.count_cons_self, List.count_eq_zero_of_not_mem hnone]

theorem fetches_of_goes (i : Fin n) (done : List Work) :
    fetches ((Move.lookUp :: .take :: .test :: (done.map Move.perform ++ [.release])).map fun m => (i, m)) =
      done.count .fetch := by
  have hdone : fetches ((done.map Move.perform).map fun m => (i, m)) = done.count .fetch := by
    unfold fetches
    rw [List.countP_map, List.countP_map]
    refine List.countP_congr fun w _ => ?_
    simp
  unfold fetches at hdone ⊢
  simp only [List.map_cons, List.map_append, List.countP_cons, List.countP_append, hdone,
    List.map_nil, List.countP_nil]
  rfl

/-- An archive of a single link: the link is moved as if it were a directory.  It then leads nowhere, so
the next caller does not see a tree and fetches again, although each of them alone gets the path. -/
theorem moved_link_is_fetched_twice :
    let a := filledFrom zipOfLink
    let urls : Fin 2 → Option String := fun _ => some "http://h/x.zip"
    bareHost.isThere (a.treePath "x" none) = false ∧
      (∀ i, ∃ h, Runs (a.tree "x" none (urls i)).outcome bareHost (.ok (a.treePath "x" none)) h) ∧
      ∃ trace s, (Crew.starting 2 bareHost).Reaches a (sameTree "x" none urls) trace s ∧
        s.stages 0 = .returned (.ok (a.treePath "x" none)) ∧
        s.stages 1 = .returned (.ok (a.treePath "x" none)) ∧ fetches trace = 2 := by
  intro a urls
  have hmiss : bareHost.isThere (a.treePath "x" none) = false := by decide +kernel
  have hy : a.yieldsTree "x" none (some "http://h/x.zip") bareHost (fun h =>
      !h.isThere (a.treePath "x" none) &&
        a.yieldsTree "x" none (some "http://h/x.zip") h fun _ => true) = true := by decide +kernel
  obtain ⟨h1, hr1, hnext⟩ := exists_of_yieldsTree hy
  obtain ⟨hmiss1, hnext⟩ := Bool.and_eq_true_iff.mp hnext
  rw [Bool.not_eq_true'] at hmiss1
  obtain ⟨h2, hr2, -⟩ := exists_of_yieldsTree hnext
  rcases (runs_tree_of_miss hmiss).mp hr1 with ⟨e, -, he, -⟩ | ⟨r, hreq, -⟩
  · cases he
  obtain ⟨done1, s1, hpre1, hne1, hgoes1, hs1, hhost1, htaken1⟩ :=
    Crew.goes_tree (sameTree "x" none urls) 0 (s := Crew.starting 2 bareHost) rfl rfl hmiss hreq hr1
  have harrive : s1.stages 1 = .arriving := hgoes1.others 1 (by decide)
  subst hhost1
  obtain ⟨done2, s2, hpre2, hne2, hgoes2, hs2, -, -⟩ :=
    Crew.goes_tree (sameTree "x" none urls) 1 harrive htaken1 hmiss1 hreq hr2
  refine ⟨hmiss, fun _ => ⟨_, hr1⟩, _, s2, hgoes2.run (hgoes1.run .start), ?_, hs2, ?_⟩
  · rw [hgoes2.others 0 (by decide)]
    exact hs1
  · rw [List.nil_append]
    rw [fetches_append, fetches_of_goes, fetches_of_goes, count_fetch_of_prefix hpre1 hne1,
      count_fetch_of_prefix hpre2 hne2]

end CipherCorpus.SourceCache
