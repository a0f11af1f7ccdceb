import CipherCorpus.Command.Report
import CipherCorpus.Proofs.Host

/-!
# Taking a command apart

`r.Does h x h'` says that the command `r`, started on the host `h`, ends with `x` on the host `h'`,
whatever lines stand on the screen.  The `Does.` lemmas take a composed command apart; what only prints
leaves the host as it is (`Does.forIn`, `Does.tell`).

`r.Prints h lines a h'` says that `r` succeeds with `a` and prints `lines`.  The `Prints.` lemmas put a
command together from its steps.
-/

namespace CipherCorpus.Command.Report

variable {α β : Type} {h h' : Host}

/-- After some lines `r`, started on `h`, ends with `x` on `h'`. -/
def Does (r : Report α) (h : Host) (x : Except Failure α) (h' : Host) : Prop :=
  ∃ lines lines', Runs (r.run.run lines) h (x, lines') h'

theorem does_of_outcome {r : Report Unit} {x : Except Failure Unit} {text : String}
    (hr : Runs r.outcome h (x, text) h') : r.Does h x h' := by
  obtain ⟨⟨y, lines⟩, h1, hrun, hp⟩ := runs_bind.mp hr
  obtain ⟨he, rfl⟩ := runs_pure.mp hp
  cases he
  exact ⟨[], lines, hrun⟩

namespace Does

theorem pure {a : α} {x : Except Failure α} (hd : Does (pure a) h x h') : x = .ok a ∧ h' = h := by
  obtain ⟨lines, lines', hr⟩ := hd
  obtain ⟨he, rfl⟩ := runs_pure.mp hr
  cases he
  exact ⟨rfl, rfl⟩

theorem throw {e : Failure} {x : Except Failure α} (hd : Does (throw e) h x h') :
    x = .error e ∧ h' = h := by
  obtain ⟨lines, lines', hr⟩ := hd
  obtain ⟨he, rfl⟩ := runs_pure.mp hr
  cases he
  exact ⟨rfl, rfl⟩

/-- A command goes on after a success and ends at the first failure. -/
theorem bind {r : Report α} {f : α → Report β} {x : Except Failure β} (hd : Does (r >>= f) h x h') :
    (∃ a h1, Does r h (.ok a) h1 ∧ Does (f a) h1 x h') ∨
      ∃ e, Does r h (.error e) h' ∧ x = .error e := by
  obtain ⟨lines, lines', hr⟩ := hd
  rw [ExceptT.run_bind, StateT.run_bind] at hr
  obtain ⟨⟨y, between⟩, h1, hfirst, hrest⟩ := runs_bind.mp hr
  cases y with
  | ok a => exact Or.inl ⟨a, h1, ⟨lines, between, hfirst⟩, between, lines', hrest⟩
  | error e =>
    obtain ⟨he, rfl⟩ := runs_pure.mp hrest
    cases he
    exact Or.inr ⟨e, ⟨lines, between, hfirst⟩, rfl⟩

theorem tell {line : String} {x : Except Failure Unit} (hd : Does (Command.tell line) h x h') :
    x = .ok () ∧ h' = h := by
  obtain ⟨lines, lines', hr⟩ := hd
  obtain ⟨he, rfl⟩ := runs_pure.mp hr
  cases he
  exact ⟨rfl, rfl⟩

/-- A line may be printed first. -/
theorem tell_bind {line : String} {k : Unit → Report α} {x : Except Failure α}
    (hd : Does (Command.tell line >>= k) h x h') : Does (k ()) h x h' := by
  rcases hd.bind with ⟨u, h1, ht, hk⟩ | ⟨e, ht, -⟩
  · obtain ⟨-, rfl⟩ := ht.tell
    exact hk
  · cases ht.tell.1

theorem perform {a : Attempt Failure α} {x : Except Failure α} (hd : Does (Command.perform a) h x h') :
    Runs a.outcome h x h' := by
  obtain ⟨lines, lines', hr⟩ := hd
  obtain ⟨y, h1, hrun, hp⟩ := runs_bind.mp hr
  obtain ⟨he, rfl⟩ := runs_pure.mp hp
  cases he
  exact hrun

theorem act {a : Action α} {x : Except Failure α} (hd : Does (Command.act a) h x h') :
    ∃ y, x = .ok y ∧ Runs a h y h' := by
  obtain ⟨lines, lines', hr⟩ := hd
  have hm : (Command.act a).run.run lines = (fun y => (Except.ok y, lines)) <$> a := by
    simp [Command.act]
  rw [hm] at hr
  obtain ⟨y, hrun, he⟩ := runs_map.mp hr
  cases he
  exact ⟨y, rfl, hrun⟩

theorem act_bind {a : Action α} {k : α → Report β} {x : Except Failure β}
    (hd : Does (Command.act a >>= k) h x h') : ∃ y h1, Runs a h y h1 ∧ Does (k y) h1 x h' := by
  rcases hd.bind with ⟨y, h1, ha, hk⟩ | ⟨e, ha, -⟩
  · obtain ⟨z, he, hrun⟩ := ha.act
    cases he
    exact ⟨y, h1, hrun, hk⟩
  · obtain ⟨z, he, -⟩ := ha.act
    cases he

/-- A command may look at the host first. -/
theorem look_bind {f : Host → α} {k : α → Report β} {x : Except Failure β}
    (hd : Does (Command.look f >>= k) h x h') : Does (k (f h)) h x h' := by
  obtain ⟨y, h1, hrun, hk⟩ := hd.act_bind
  obtain ⟨rfl, rfl⟩ := runs_inspect.mp hrun
  exact hk

/-- What goes through a list and leaves the host alone each time leaves it alone. -/
theorem forIn {l : List α} {s : β} {f : α → β → Report (ForInStep β)} {x : Except Failure β}
    (hf : ∀ a s h y h', Does (f a s) h y h' → h' = h) (hd : Does (forIn l s f) h x h') : h' = h := by
  induction l generalizing s h with
  | nil => exact hd.pure.2
  | cons a rest ih =>
    rw [List.forIn_cons] at hd
    rcases hd.bind with ⟨step, h1, ha, hk⟩ | ⟨e, ha, -⟩
    · obtain rfl := hf _ _ _ _ _ ha
      cases step with
      | done b => exact hk.pure.2
      | yield b => exact ih hk
    · exact hf _ _ _ _ _ ha

theorem forIn_bind {γ : Type} {l : List α} {s : β} {f : α → β → Report (ForInStep β)} {k : β → Report γ}
    {x : Except Failure γ} (hf : ∀ a s h y h', Does (f a s) h y h' → h' = h)
    (hd : Does (ForIn.forIn l s f >>= k) h x h') : h' = h ∨ ∃ b, Does (k b) h x h' := by
  rcases hd.bind with ⟨b, h1, hl, hk⟩ | ⟨e, hl, -⟩
  · obtain rfl := hl.forIn hf
    exact Or.inr ⟨b, hk⟩
  · exact Or.inl (hl.forIn hf)

end Does

/-! ## What a command prints -/

/-- Started on `h`, `r` ends with `a` on `h'` and prints some lines. -/
def Prints (r : Report α) (h : Host) (lines : List String) (a : α) (h' : Host) : Prop :=
  ∀ before, Runs (r.run.run before) h (.ok a, before ++ lines) h'

theorem Prints.runs_outcome {r : Report Unit} {lines : List String} (hp : r.Prints h lines () h') :
    Runs r.outcome h (.ok (), String.join (lines.map (· ++ "\n"))) h' :=
  runs_bind.mpr ⟨_, h', hp [], runs_pure.mpr ⟨rfl, rfl⟩⟩

theorem prints_pure (a : α) (h : Host) : (pure a : Report α).Prints h [] a h := fun before =>
  runs_pure.mpr ⟨by rw [List.append_nil], rfl⟩

theorem prints_tell (line : String) (h : Host) : (tell line).Prints h [line] () h := fun _ =>
  runs_pure.mpr ⟨rfl, rfl⟩

theorem Prints.bind {r : Report α} {f : α → Report β} {lines lines' : List String} {a : α} {b : β}
    {h1 : Host} (hr : r.Prints h lines a h1) (hf : (f a).Prints h1 lines' b h') :
    (r >>= f).Prints h (lines ++ lines') b h' := by
  intro before
  rw [ExceptT.run_bind, StateT.run_bind, ← List.append_assoc]
  exact runs_bind.mpr ⟨_, h1, hr before, hf _⟩

/-- After a step that prints nothing a command prints what its rest prints. -/
theorem Prints.andThen {r : Report α} {f : α → Report β} {lines : List String} {a : α} {b : β} {h1 : Host}
    (hr : r.Prints h [] a h1) (hf : (f a).Prints h1 lines b h') : (r >>= f).Prints h lines b h' := hr.bind hf

theorem prints_act {a : Action α} {x : α} (hr : Runs a h x h') : (act a).Prints h [] x h' := by
  intro before
  have hm : (act a).run.run before = (fun y => (Except.ok y, before)) <$> a := by
    simp [act]
  rw [hm, List.append_nil]
  exact runs_map.mpr ⟨x, hr, rfl⟩

theorem prints_look (f : Host → α) (h : Host) : (look f).Prints h [] (f h) h :=
  prints_act (runs_inspect.mpr ⟨rfl, rfl⟩)

theorem prints_perform {a : Attempt Failure α} {x : α} (hr : Runs a.outcome h (.ok x) h') :
    (perform a).Prints h [] x h' := by
  intro before
  rw [List.append_nil]
  exact runs_bind.mpr ⟨_, h', hr, runs_pure.mpr ⟨rfl, rfl⟩⟩

/-- Started on `h`, `r` prints some lines and fails with `e` on `h'`. -/
def Stops (r : Report α) (h : Host) (lines : List String) (e : Failure) (h' : Host) : Prop :=
  ∀ before, Runs (r.run.run before) h (.error e, before ++ lines) h'

theorem Stops.runs_outcome {r : Report Unit} {lines : List String} {e : Failure} (hs : r.Stops h lines e h') :
    Runs r.outcome h (.error e, String.join (lines.map (· ++ "\n"))) h' :=
  runs_bind.mpr ⟨_, h', hs [], runs_pure.mpr ⟨rfl, rfl⟩⟩

theorem stops_perform {a : Attempt Failure α} {e : Failure} (hr : Runs a.outcome h (.error e) h') :
    (perform a).Stops h [] e h' := by
  intro before
  rw [List.append_nil]
  exact runs_bind.mpr ⟨_, h', hr, runs_pure.mpr ⟨rfl, rfl⟩⟩

/-- A failure ends a command. -/
theorem Stops.bind {r : Report α} {lines : List String} {e : Failure} (hs : r.Stops h lines e h')
    (f : α → Report β) : (r >>= f).Stops h lines e h' := by
  intro before
  rw [ExceptT.run_bind, StateT.run_bind]
  exact runs_bind.mpr ⟨_, h', hs before, runs_pure.mpr ⟨rfl, rfl⟩⟩

/-- A command goes on after a step that prints nothing, until it fails. -/
theorem Prints.andStops {r : Report α} {f : α → Report β} {lines : List String} {a : α} {e : Failure} {h1 : Host}
    (hr : r.Prints h [] a h1) (hf : (f a).Stops h1 lines e h') : (r >>= f).Stops h lines e h' := by
  intro before
  have hfirst := hr before
  rw [List.append_nil] at hfirst
  rw [ExceptT.run_bind, StateT.run_bind]
  exact runs_bind.mpr ⟨_, h1, hfirst, hf before⟩

/-- What goes through a list and prints lines each time prints lines. -/
theorem exists_prints_forIn {l : List α} {f : α → β → Report (ForInStep β)}
    (hf : ∀ a s, ∃ lines s', (f a s).Prints h lines (.yield s') h) (s : β) :
    ∃ lines s', Prints (ForIn.forIn l s f) h lines s' h := by
  induction l generalizing s with
  | nil => exact ⟨[], s, prints_pure s h⟩
  | cons a rest ih =>
    obtain ⟨lines, s1, hfirst⟩ := hf a s
    obtain ⟨lines', s', hrest⟩ := ih s1
    refine ⟨lines ++ lines', s', ?_⟩
    rw [List.forIn_cons]
    exact hfirst.bind hrest

end CipherCorpus.Command.Report
