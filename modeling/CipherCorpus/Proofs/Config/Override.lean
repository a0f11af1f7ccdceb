import CipherCorpus.Config.File
import Mathlib.Data.List.DropRight

/-!
# What overrides do to a configuration

Each of the five settings has a variable, a way to read its values and a place in the configuration
(`Setting`).  One override puts the value of its variable into its own setting, or stops
(`Setting.override`); all of them are the overrides of the settings in order (`overridden_eq`).  By
induction along the settings (`overrideEach_cases`) a run either reaches its end, with every setting as its
variable says, or stops at a setting whose variable cannot be read:

    settings = before ++ s :: after    the overrides of `before` are made, the rest keeps its value

As what a variable says does not depend on the configuration, overriding once more changes nothing.
-/

namespace CipherCorpus

namespace Text

end Text

namespace Config

/-- The settings that can be overridden. -/
inductive Setting where
  | jobs
  | compiler
  | compileSeconds
  | symbolSeconds
  | levels
deriving DecidableEq

namespace Setting

/-- In the order in which their variables are read. -/
def all : List Setting := [jobs, compiler, compileSeconds, symbolSeconds, levels]

/-- The name of the variable behind the lead. -/
def word : Setting → String
  | jobs => "JOBS"
  | compiler => "COMPILER"
  | compileSeconds => "COMPILE_TIMEOUT_SECS"
  | symbolSeconds => "SYMBOL_TIMEOUT_SECS"
  | levels => "OPTIMIZATION_LEVELS"

def variableName (s : Setting) : String := overrideLead ++ s.word

/-- What a setting holds. -/
def Value : Setting → Type
  | jobs => UInt64
  | compiler => String
  | compileSeconds => UInt64
  | symbolSeconds => UInt64
  | levels => List String

/-- Read the text of a variable of the given name. -/
def reader : (s : Setting) → String → String → Except ConfigError s.Value
  | jobs => readNumber
  | compiler => readWord
  | compileSeconds => readNumber
  | symbolSeconds => readNumber
  | levels => readLevels

/-- Read the text of the variable. -/
def read (s : Setting) (value : String) : Except ConfigError s.Value := s.reader s.variableName value

def get : (s : Setting) → Config → s.Value
  | jobs => fun c => c.jobs
  | compiler => fun c => c.compiler
  | compileSeconds => fun c => c.compileSeconds
  | symbolSeconds => fun c => c.symbolSeconds
  | levels => fun c => c.levels

def put : (s : Setting) → Config → s.Value → Config
  | jobs => fun c n => { c with jobs := n }
  | compiler => fun c s => { c with compiler := s }
  | compileSeconds => fun c n => { c with compileSeconds := n }
  | symbolSeconds => fun c n => { c with symbolSeconds := n }
  | levels => fun c l => { c with levels := l }

variable {s t : Setting} {c c' c1 : Config} {lookup : String → Option String} {value : String}
  {e : ConfigError} {settings : List Setting}

@[simp] theorem get_put_self (s : Setting) (c : Config) (x : s.Value) : s.get (s.put c x) = x := by
  cases s <;> rfl

theorem get_put_ne (h : t ≠ s) (c : Config) (x : s.Value) : t.get (s.put c x) = t.get c := by
  cases s <;> cases t <;> first | rfl | exact absurd rfl h

@[simp] theorem libraries_put (s : Setting) (c : Config) (x : s.Value) :
    (s.put c x).libraries = c.libraries := by
  cases s <;> rfl

theorem mem_all (s : Setting) : s ∈ all := by cases s <;> decide

/-- A configuration is its libraries and its settings. -/
theorem config_ext (hl : c'.libraries = c.libraries) (h : ∀ s : Setting, s.get c' = s.get c) :
    c' = c := by
  have h1 : c'.jobs = c.jobs := h jobs
  have h2 : c'.compiler = c.compiler := h compiler
  have h3 : c'.compileSeconds = c.compileSeconds := h compileSeconds
  have h4 : c'.symbolSeconds = c.symbolSeconds := h symbolSeconds
  have h5 : c'.levels = c.levels := h levels
  cases c
  cases c'
  simp_all

/-! ## Values -/

/-- Put the value of the variable, if it is there, into the setting. -/
def override (lookup : String → Option String) (s : Setting) (c : Config) :
    Except ConfigError Unit × Config :=
  match lookup s.variableName with
  | none => (.ok (), c)
  | some value =>
    match s.read value with
    | .ok x => (.ok (), s.put c x)
    | .error e => (.error e, c)

/-- The setting of `c'` has the value of its variable, or without one its value in `c`. -/
def Follows (lookup : String → Option String) (c c' : Config) (s : Setting) : Prop :=
  match lookup s.variableName with
  | none => s.get c' = s.get c
  | some value => s.read value = .ok (s.get c')

/-- `c'` is `c` with the overrides of some settings. -/
structure Overrides (lookup : String → Option String) (settings : List Setting) (c c' : Config) :
    Prop where
  libraries : c'.libraries = c.libraries
  follows : ∀ s ∈ settings, s.Follows lookup c c'
  kept : ∀ s, s ∉ settings → s.get c' = s.get c

/-- The variable of the setting is there and cannot be read. -/
structure Stops (lookup : String → Option String) (s : Setting) (value : String) (e : ConfigError) :
    Prop where
  present : lookup s.variableName = some value
  unreadable : s.read value = .error e

theorem Overrides.nil (lookup : String → Option String) (c : Config) : Overrides lookup [] c c :=
  ⟨rfl, fun _ h => absurd h List.not_mem_nil, fun _ _ => rfl⟩

/-- One override follows its variable and leaves the other settings, or stops and leaves all. -/
theorem override_cases (lookup : String → Option String) (s : Setting) (c : Config) :
    (∃ c', s.override lookup c = (.ok (), c') ∧ Overrides lookup [s] c c') ∨
      ∃ value e, s.override lookup c = (.error e, c) ∧ Stops lookup s value e := by
  unfold override
  cases hv : lookup s.variableName with
  | none =>
    refine Or.inl ⟨c, rfl, rfl, List.forall_mem_singleton.mpr ?_, fun _ _ => rfl⟩
    rw [Follows, hv]
  | some value =>
    dsimp only
    cases hr : s.read value with
    | error e => exact Or.inr ⟨value, e, rfl, hv, hr⟩
    | ok x =>
      refine Or.inl ⟨s.put c x, rfl, libraries_put s c x, List.forall_mem_singleton.mpr ?_, fun t ht => ?_⟩
      · rw [Follows, hv, get_put_self]
        exact hr
      · exact get_put_ne (List.ne_of_not_mem_cons ht) c x

/-! ## Overrides in order -/

/-- The overrides of some settings in order, up to the first that stops. -/
def overrideEach (lookup : String → Option String) :
    List Setting → Config → Except ConfigError Unit × Config
  | [], c => (.ok (), c)
  | s :: rest, c =>
    match s.override lookup c with
    | (.ok (), c1) => overrideEach lookup rest c1
    | (.error e, c1) => (.error e, c1)

/-- A setting follows its variable whatever is done to other settings before and after. -/
theorem Overrides.cons (hs : Overrides lookup [s] c c1) (hn : s ∉ settings)
    (hr : Overrides lookup settings c1 c') : Overrides lookup (s :: settings) c c' := by
  refine ⟨hr.libraries.trans hs.libraries, fun t ht => ?_, fun t ht => ?_⟩
  · rcases List.mem_cons.mp ht with rfl | ht
    · have hf := hs.follows t List.mem_cons_self
      unfold Follows at hf ⊢
      rw [hr.kept t hn]
      exact hf
    · have hne : t ≠ s := fun he => hn (he ▸ ht)
      have hf := hr.follows t ht
      unfold Follows at hf ⊢
      rwa [hs.kept t (by simpa using hne)] at hf
  · rw [List.mem_cons, not_or] at ht
    rw [hr.kept t ht.2, hs.kept t (by simpa using ht.1)]

/-- The overrides of different settings are all made, or made up to one that stops. -/
theorem overrideEach_cases (lookup : String → Option String) (settings : List Setting) :
    ∀ c : Config, settings.Nodup →
      (∃ c', overrideEach lookup settings c = (.ok (), c') ∧ Overrides lookup settings c c') ∨
      ∃ before s after value e c', settings = before ++ s :: after ∧
        overrideEach lookup settings c = (.error e, c') ∧ Overrides lookup before c c' ∧
        Stops lookup s value e := by
  induction settings with
  | nil => exact fun c _ => Or.inl ⟨c, rfl, .nil lookup c⟩
  | cons s rest ih =>
    intro c hn
    obtain ⟨hs, hrest⟩ := List.nodup_cons.mp hn
    rcases override_cases lookup s c with ⟨c1, h1, ho⟩ | ⟨value, e, h1, hstop⟩
    · rcases ih c1 hrest with ⟨c', h, hall⟩ | ⟨before, u, after, value, e, c', rfl, h, hbefore, hstop⟩
      · refine Or.inl ⟨c', ?_, ho.cons hs hall⟩
        rw [overrideEach, h1]
        exact h
      · have hs' : s ∉ before := fun hm => hs (List.mem_append_left _ hm)
        refine Or.inr ⟨s :: before, u, after, value, e, c', rfl, ?_, ho.cons hs' hbefore, hstop⟩
        rw [overrideEach, h1]
        exact h
    · refine Or.inr ⟨[], s, rest, value, e, c, rfl, ?_, .nil lookup c, hstop⟩
      rw [overrideEach, h1]

end Setting

open Setting

variable {lookup : String → Option String}

/-! ## All overrides -/

/-- An override that is followed by others goes on with what it made, unless it stops. -/
theorem run_overrideWith_bind (s : Setting) {k : Unit → Overriding Unit} {rest : List Setting}
    (hk : ∀ c, (k ()).run.run c = overrideEach lookup rest c) (c : Config) :
    (overrideWith lookup s.word s.reader s.put >>= k).run.run c = overrideEach lookup (s :: rest) c := by
  rw [overrideEach]
  unfold overrideWith override Setting.read variableName
  dsimp only
  cases hv : lookup (overrideLead ++ s.word) with
  | none => exact hk c
  | some value =>
    dsimp only
    cases hr : s.reader (overrideLead ++ s.word) value with
    | ok x => exact hk _
    | error e => rfl

/-- The overrides of the environment are those of the settings, in order. -/
theorem overridden_eq (lookup : String → Option String) (c : Config) :
    c.overridden lookup = overrideEach lookup Setting.all c := by
  have hlast : ∀ c, (overrideWith lookup Setting.levels.word Setting.levels.reader
      Setting.levels.put).run.run c = overrideEach lookup [.levels] c := by
    intro c
    rw [← run_overrideWith_bind .levels (k := pure) (fun _ => rfl) c, bind_pure]
  exact run_overrideWith_bind .jobs (fun c => run_overrideWith_bind .compiler
    (fun c => run_overrideWith_bind .compileSeconds
      (fun c => run_overrideWith_bind .symbolSeconds hlast c) c) c) c

/-- All overrides are made, or those in front of one that stops. -/
theorem overridden_cases (lookup : String → Option String) (c : Config) :
    (∃ c', c.overridden lookup = (.ok (), c') ∧ Overrides lookup Setting.all c c') ∨
      ∃ before s after value e c', Setting.all = before ++ s :: after ∧
        c.overridden lookup = (.error e, c') ∧ Overrides lookup before c c' ∧ Stops lookup s value e := by
  rw [overridden_eq]
  exact overrideEach_cases lookup Setting.all c (by decide)

theorem not_stops_of_follows {c c' : Config} {s : Setting} {value : String} {e : ConfigError}
    (hf : Follows lookup c c' s) : ¬ Stops lookup s value e := by
  rintro ⟨hpresent, hread⟩
  rw [Follows, hpresent] at hf
  cases hread.symm.trans hf

/-- A configuration that is read from a file is overridden from the environment and checked. -/
theorem load_of_ofFile {h : Host} {p : Path} {c : Config} (hfile : ofFile h p = .ok c) :
    load h p = match c.overridden h.environmentValue? with
      | (.error e, _) => throw e
      | (.ok (), c) => do
        c.validate
        return c := by
  unfold load
  rw [hfile]
  rfl

end Config

end CipherCorpus
