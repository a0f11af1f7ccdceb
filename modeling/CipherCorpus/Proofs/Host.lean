import CipherCorpus.Host

/-!
# Runs of actions

`Runs x h a h'` says that the action `x`, started on the host `h`, ends with the answer `a` on the host
`h'`.  An action that is cut short has no such run, any other has exactly one (`Runs.unique`).  The
`runs_` lemmas take a run of a composed action apart into runs of its parts; an attempt is taken apart
through its `outcome`.
-/

namespace CipherCorpus

variable {α β ε ε' : Type}

/-- The action `x`, started on `h`, ends with `a` on `h'`. -/
def Runs (x : Action α) (h : Host) (a : α) (h' : Host) : Prop := x.run h = .ok (a, h')

theorem Runs.unique {x : Action α} {h h1 h2 : Host} {a b : α} (ha : Runs x h a h1)
    (hb : Runs x h b h2) : a = b ∧ h1 = h2 := by
  have h := Except.ok.inj (Eq.trans (Eq.symm ha) hb)
  exact ⟨congrArg Prod.fst h, congrArg Prod.snd h⟩

/-! ## Actions -/

@[simp] theorem runs_pure {a b : α} {h h' : Host} : Runs (pure a) h b h' ↔ b = a ∧ h' = h := by
  constructor
  · intro hr
    cases hr
    exact ⟨rfl, rfl⟩
  · rintro ⟨rfl, rfl⟩
    rfl

@[simp] theorem runs_bind {x : Action α} {f : α → Action β} {h h' : Host} {b : β} :
    Runs (x >>= f) h b h' ↔ ∃ a h1, Runs x h a h1 ∧ Runs (f a) h1 b h' := by
  unfold Runs
  rw [StateT.run_bind]
  cases x.run h with
  | error e => simp [bind, Except.bind]
  | ok r =>
    obtain ⟨a, h1⟩ := r
    constructor
    · intro hr
      exact ⟨a, h1, rfl, hr⟩
    · rintro ⟨a', h1', hx, hr⟩
      cases hx
      exact hr

@[simp] theorem runs_map {x : Action α} {f : α → β} {h h' : Host} {b : β} :
    Runs (f <$> x) h b h' ↔ ∃ a, Runs x h a h' ∧ b = f a := by
  rw [map_eq_pure_bind, runs_bind]
  constructor
  · rintro ⟨a, h1, hx, hb⟩
    obtain ⟨rfl, rfl⟩ := runs_pure.mp hb
    exact ⟨a, hx, rfl⟩
  · rintro ⟨a, hx, rfl⟩
    exact ⟨a, h', hx, runs_pure.mpr ⟨rfl, rfl⟩⟩

@[simp] theorem runs_get {h h' a : Host} : Runs get h a h' ↔ a = h ∧ h' = h := by
  constructor
  · intro hr
    cases hr
    exact ⟨rfl, rfl⟩
  · rintro ⟨rfl, rfl⟩
    rfl

@[simp] theorem runs_modify {f : Host → Host} {h h' : Host} {u : PUnit} :
    Runs (modify f) h u h' ↔ h' = f h := by
  constructor
  · intro hr
    cases hr
    rfl
  · rintro rfl
    rfl

@[simp] theorem runs_inspect {f : Host → α} {h h' : Host} {a : α} :
    Runs (inspect f) h a h' ↔ a = f h ∧ h' = h := by
  constructor
  · intro hr
    cases hr
    exact ⟨rfl, rfl⟩
  · rintro ⟨rfl, rfl⟩
    rfl

/-! ## Attempts -/

namespace Attempt

@[simp] theorem outcome_pure (a : α) : (pure a : Attempt ε α).outcome = pure (.ok a) := rfl

@[simp] theorem outcome_throw (e : ε) : (throw e : Attempt ε α).outcome = pure (.error e) := rfl

@[simp] theorem outcome_ofOutcome (x : Except ε α) : (ofOutcome x).outcome = pure x := rfl

/-- An attempt goes on after a success and ends at the first failure. -/
theorem runs_bind {x : Attempt ε α} {f : α → Attempt ε β} {h h' : Host} {r : Except ε β} :
    Runs (x >>= f).outcome h r h' ↔
      (∃ a h1, Runs x.outcome h (.ok a) h1 ∧ Runs (f a).outcome h1 r h') ∨
      ∃ e, Runs x.outcome h (.error e) h' ∧ r = .error e := by
  have hb : (x >>= f).outcome = x.outcome >>= fun y =>
      match y with
      | .ok a => (f a).outcome
      | .error e => pure (.error e) := by
    refine congrArg (x.outcome >>= ·) (funext fun y => ?_)
    cases y with
    | ok a => rfl
    | error e => rfl
  rw [hb, CipherCorpus.runs_bind]
  constructor
  · rintro ⟨y, h1, hx, hy⟩
    cases y with
    | ok a => exact Or.inl ⟨a, h1, hx, hy⟩
    | error e =>
      obtain ⟨rfl, rfl⟩ := runs_pure.mp hy
      exact Or.inr ⟨e, hx, rfl⟩
  · rintro (⟨a, h1, hx, hf⟩ | ⟨e, hx, rfl⟩)
    · exact ⟨.ok a, h1, hx, hf⟩
    · exact ⟨.error e, h', hx, runs_pure.mpr ⟨rfl, rfl⟩⟩

theorem run_bind (x : Attempt ε β) (k : β → Attempt ε α) (h : Host) :
    (x >>= k).outcome.run h = match x.outcome.run h with
      | .error abort => .error abort
      | .ok (.error e, h') => .ok (.error e, h')
      | .ok (.ok v, h') => (k v).outcome.run h' := by
  show (x.outcome >>= fun y => (ExceptT.bindCont k y : Action (Except ε α))).run h = _
  rw [StateT.run_bind]
  rcases x.outcome.run h with abort | ⟨e | v, h'⟩
  · rfl
  · rfl
  · rfl

/-- After a success an attempt does what the rest of it does, be it cut short or not. -/
theorem run_bind_of_runs {x : Attempt ε β} {k : β → Attempt ε α} {v : β} {h h' : Host}
    (hx : Runs x.outcome h (.ok v) h') : (x >>= k).outcome.run h = (k v).outcome.run h' := by
  rw [run_bind, show x.outcome.run h = .ok (.ok v, h') from hx]

@[simp] theorem runs_inWords {x : Attempt ε α} {f : ε → ε'} {h h' : Host} {r : Except ε' α} :
    Runs (x.inWords f).outcome h r h' ↔ ∃ y, Runs x.outcome h y h' ∧ r = y.mapError f := by
  have hm : (x.inWords f).outcome = (fun y => y.mapError f) <$> x.outcome := rfl
  rw [hm, runs_map]

/-- A success in other words is that success. -/
theorem eq_ok_of_mapError {x : Except ε α} {f : ε → ε'} {a : α} (h : x.mapError f = .ok a) :
    x = .ok a := by
  cases x with
  | error e => cases h
  | ok b =>
    cases h
    rfl

@[simp] theorem runs_ofAction {x : Action α} {h h' : Host} {r : Except ε α} :
    Runs (ofAction x : Attempt ε α).outcome h r h' ↔ ∃ a, Runs x h a h' ∧ r = .ok a := by
  have hm : (ofAction x : Attempt ε α).outcome = Except.ok <$> x := rfl
  rw [hm, runs_map]

/-- After an action that cannot fail an attempt goes on. -/
theorem runs_ofAction_bind {x : Action β} {k : β → Attempt ε α} {h h' : Host} {r : Except ε α} :
    Runs (ofAction x >>= k).outcome h r h' ↔
      ∃ a h1, Runs x h a h1 ∧ Runs (k a).outcome h1 r h' := by
  rw [runs_bind]
  simp only [runs_ofAction]
  constructor
  · rintro (⟨a, h1, ⟨a', hx, ha⟩, hk⟩ | ⟨e, ⟨a, -, ha⟩, -⟩)
    · cases ha
      exact ⟨a, h1, hx, hk⟩
    · cases ha
  · rintro ⟨a, h1, hx, hk⟩
    exact Or.inl ⟨a, h1, ⟨a, hx, rfl⟩, hk⟩

/-- A first failure ends an attempt, told in the words of the caller. -/
theorem runs_inWords_bind {x : Attempt ε β} {w : ε → ε'} {k : β → Attempt ε' α} {h h' : Host}
    {r : Except ε' α} : Runs (x.inWords w >>= k).outcome h r h' ↔
      (∃ a h1, Runs x.outcome h (.ok a) h1 ∧ Runs (k a).outcome h1 r h') ∨
      ∃ e, Runs x.outcome h (.error e) h' ∧ r = .error (w e) := by
  rw [runs_bind]
  simp only [runs_inWords]
  constructor
  · rintro (⟨a, h1, ⟨y, hx, ha⟩, hk⟩ | ⟨e, ⟨y, hx, he⟩, rfl⟩)
    · cases y with
      | ok a' =>
        cases ha
        exact Or.inl ⟨a, h1, hx, hk⟩
      | error e => cases ha
    · cases y with
      | ok a' => cases he
      | error e' =>
        cases he
        exact Or.inr ⟨e', hx, rfl⟩
  · rintro (⟨a, h1, hx, hk⟩ | ⟨e, hx, rfl⟩)
    · exact Or.inl ⟨a, h1, ⟨.ok a, hx, rfl⟩, hk⟩
    · exact Or.inr ⟨w e, ⟨.error e, hx, rfl⟩, rfl⟩

@[simp] theorem runs_get {h h' : Host} {r : Except ε Host} :
    Runs (get : Attempt ε Host).outcome h r h' ↔ r = .ok h ∧ h' = h := by
  constructor
  · intro hr
    cases hr
    exact ⟨rfl, rfl⟩
  · rintro ⟨rfl, rfl⟩
    rfl

@[simp] theorem runs_set {h h' g : Host} {r : Except ε PUnit} :
    Runs (set g : Attempt ε PUnit).outcome h r h' ↔ r = .ok ⟨⟩ ∧ h' = g := by
  constructor
  · intro hr
    cases hr
    exact ⟨rfl, rfl⟩
  · rintro ⟨rfl, rfl⟩
    rfl

@[simp] theorem runs_modify {f : Host → Host} {h h' : Host} {r : Except ε PUnit} :
    Runs (modify f : Attempt ε PUnit).outcome h r h' ↔ r = .ok ⟨⟩ ∧ h' = f h := by
  constructor
  · intro hr
    cases hr
    exact ⟨rfl, rfl⟩
  · rintro ⟨rfl, rfl⟩
    rfl

@[simp] theorem runs_inspect {f : Host → α} {h h' : Host} {r : Except ε α} :
    Runs (inspect f : Attempt ε α).outcome h r h' ↔ r = .ok (f h) ∧ h' = h := by
  constructor
  · intro hr
    cases hr
    exact ⟨rfl, rfl⟩
  · rintro ⟨rfl, rfl⟩
    rfl

theorem run_inspect_bind {f : Host → β} {k : β → Attempt ε α} {h : Host} :
    (inspect f >>= k).outcome.run h = (k (f h)).outcome.run h := rfl

theorem runs_inspect_bind {f : Host → β} {k : β → Attempt ε α} {h h' : Host} {r : Except ε α} :
    Runs (inspect f >>= k).outcome h r h' ↔ Runs (k (f h)).outcome h r h' := Iff.rfl

theorem runs_get_bind {f : Host → Attempt ε α} {h h' : Host} {r : Except ε α} :
    Runs (get >>= f).outcome h r h' ↔ Runs (f h).outcome h r h' := Iff.rfl

/-- A change of the files is made or leaves the host as it is. -/
theorem runs_change {f : FileTree → Key → Except FileError FileTree} {h h' : Host}
    {r : Except FileError Unit} : Runs (change f).outcome h r h' ↔
      (∃ files, f h.files h.cwd = .ok files ∧ r = .ok () ∧ h' = { h with files := files }) ∨
      ∃ e, f h.files h.cwd = .error e ∧ r = .error e ∧ h' = h := by
  unfold change
  rw [runs_get_bind]
  cases hf : f h.files h.cwd with
  | ok files =>
    show Runs (set { h with files := files } : Attempt FileError PUnit).outcome h r h' ↔ _
    rw [runs_set]
    constructor
    · rintro ⟨rfl, rfl⟩
      exact Or.inl ⟨files, rfl, rfl, rfl⟩
    · rintro (⟨files', hf', rfl, rfl⟩ | ⟨e, hf', -, -⟩)
      · cases hf'
        exact ⟨rfl, rfl⟩
      · cases hf'
  | error e =>
    show Runs (throw e : Attempt FileError Unit).outcome h r h' ↔ _
    rw [outcome_throw, runs_pure]
    constructor
    · rintro ⟨rfl, rfl⟩
      exact Or.inr ⟨e, rfl, rfl, rfl⟩
    · rintro (⟨files', hf', -, -⟩ | ⟨e', hf', rfl, rfl⟩)
      · cases hf'
      · cases hf'
        exact ⟨rfl, rfl⟩

/-- An attempt that begins with a change of the files goes on with the changed files. -/
theorem runs_change_bind {f : FileTree → Key → Except FileError FileTree} {w : FileError → ε}
    {k : Unit → Attempt ε α} {h h' : Host} {r : Except ε α} :
    Runs ((change f).inWords w >>= k).outcome h r h' ↔
      (∃ files, f h.files h.cwd = .ok files ∧ Runs (k ()).outcome { h with files := files } r h') ∨
      ∃ e, f h.files h.cwd = .error e ∧ r = .error (w e) ∧ h' = h := by
  rw [runs_inWords_bind]
  simp only [runs_change]
  constructor
  · rintro (⟨u, h1, ⟨files, hf, -, rfl⟩ | ⟨e, -, hu, -⟩, hk⟩ | ⟨e, ⟨files, -, he, -⟩ | ⟨e', hf, he, rfl⟩,
      rfl⟩)
    · exact Or.inl ⟨files, hf, hk⟩
    · cases hu
    · cases he
    · cases he
      exact Or.inr ⟨e, hf, rfl, rfl⟩
  · rintro (⟨files, hf, hk⟩ | ⟨e, hf, rfl, rfl⟩)
    · exact Or.inl ⟨(), _, Or.inl ⟨files, hf, trivial, rfl⟩, hk⟩
    · exact Or.inr ⟨e, Or.inr ⟨e, hf, rfl, rfl⟩, rfl⟩

/-! ## Attempts that are never cut short -/

/-- Started on any host, the attempt ends. -/
def Finishes (x : Attempt ε α) : Prop := ∀ h, ∃ r h', Runs x.outcome h r h'

theorem finishes_pure (a : α) : Finishes (pure a : Attempt ε α) := fun h => ⟨.ok a, h, runs_pure.mpr ⟨rfl, rfl⟩⟩

theorem finishes_throw (e : ε) : Finishes (throw e : Attempt ε α) :=
  fun h => ⟨.error e, h, runs_pure.mpr ⟨rfl, rfl⟩⟩

theorem Finishes.bind {x : Attempt ε α} {f : α → Attempt ε β} (hx : Finishes x)
    (hf : ∀ a, Finishes (f a)) : Finishes (x >>= f) := by
  intro h
  obtain ⟨r, h1, hr⟩ := hx h
  cases r with
  | error e => exact ⟨.error e, h1, runs_bind.mpr (Or.inr ⟨e, hr, rfl⟩)⟩
  | ok a =>
    obtain ⟨r', h', hr'⟩ := hf a h1
    exact ⟨r', h', runs_bind.mpr (Or.inl ⟨a, h1, hr, hr'⟩)⟩

theorem Finishes.inWords {x : Attempt ε α} (hx : Finishes x) (f : ε → ε') : Finishes (x.inWords f) := by
  intro h
  obtain ⟨r, h', hr⟩ := hx h
  exact ⟨r.mapError f, h', runs_inWords.mpr ⟨r, hr, rfl⟩⟩

theorem finishes_ofAction {x : Action α} (hx : ∀ h, ∃ a h', Runs x h a h') :
    Finishes (ofAction x : Attempt ε α) := by
  intro h
  obtain ⟨a, h', hr⟩ := hx h
  exact ⟨.ok a, h', runs_ofAction.mpr ⟨a, hr, rfl⟩⟩

theorem finishes_get : Finishes (get : Attempt ε Host) := fun h => ⟨.ok h, h, runs_get.mpr ⟨rfl, rfl⟩⟩

theorem finishes_set (g : Host) : Finishes (set g : Attempt ε PUnit) :=
  fun _ => ⟨.ok ⟨⟩, g, runs_set.mpr ⟨rfl, rfl⟩⟩

theorem finishes_modify (f : Host → Host) : Finishes (modify f : Attempt ε PUnit) :=
  fun h => ⟨.ok ⟨⟩, f h, runs_modify.mpr ⟨rfl, rfl⟩⟩

theorem finishes_inspect (f : Host → α) : Finishes (inspect f : Attempt ε α) :=
  fun h => ⟨.ok (f h), h, runs_inspect.mpr ⟨rfl, rfl⟩⟩

theorem finishes_change (f : FileTree → Key → Except FileError FileTree) : Finishes (change f) := by
  intro h
  cases hf : f h.files h.cwd with
  | ok files => exact ⟨_, _, runs_change.mpr (Or.inl ⟨files, hf, rfl, rfl⟩)⟩
  | error e => exact ⟨_, _, runs_change.mpr (Or.inr ⟨e, hf, rfl, rfl⟩)⟩

end Attempt

end CipherCorpus
