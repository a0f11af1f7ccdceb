import CipherCorpus.OrderedMap

/-!
# Cells of the build matrix

A cell is one (architecture, optimization level, function) triple of a library. Cells are ordered
field by field, and `Cell.key` joins the fields with underscores for the manifest.
-/

namespace CipherCorpus

/-- One combination that a library is compiled for. -/
structure Cell where
  architecture : String
  optimization : String
  function : String
deriving DecidableEq, Repr, Inhabited

namespace Cell

/-- The fields joined: `architecture_optimization_function`. -/
def key (c : Cell) : String := c.architecture ++ "_" ++ c.optimization ++ "_" ++ c.function

/-- Field by field; the first difference decides. -/
def before (a b : Cell) : Bool :=
  decide (a.architecture < b.architecture) ||
  (a.architecture == b.architecture &&
    (decide (a.optimization < b.optimization) ||
    (a.optimization == b.optimization && decide (a.function < b.function))))

theorem string_eq_of_not_lt {a b : String} (h : ¬ a < b) (h' : ¬ b < a) : a = b :=
  String.le_antisymm (String.not_lt.mp h') (String.not_lt.mp h)

theorem before_iff (a b : Cell) : a.before b = true ↔
    a.architecture < b.architecture ∨ (a.architecture = b.architecture ∧
      (a.optimization < b.optimization ∨
        (a.optimization = b.optimization ∧ a.function < b.function))) := by
  simp [before]

instance : KeyOrder Cell where
  before := Cell.before
  irrefl a := by
    cases h : a.before a with
    | false => rfl
    | true => rw [before_iff] at h; simp at h
  trans {a b c} h h' := by
    rw [before_iff] at *
    rcases h with h | ⟨e, h⟩
    · rcases h' with h' | ⟨e', _⟩
      · exact Or.inl (String.lt_trans h h')
      · exact Or.inl (e' ▸ h)
    · rcases h' with h' | ⟨e', h'⟩
      · exact Or.inl (e ▸ h')
      · refine Or.inr ⟨e.trans e', ?_⟩
        rcases h with h | ⟨f, h⟩
        · rcases h' with h' | ⟨f', _⟩
          · exact Or.inl (String.lt_trans h h')
          · exact Or.inl (f' ▸ h)
        · rcases h' with h' | ⟨f', h'⟩
          · exact Or.inl (f ▸ h')
          · exact Or.inr ⟨f.trans f', String.lt_trans h h'⟩
  total {a b} h h' := by
    have h : ¬ a.before b = true := by simp [h]
    have h' : ¬ b.before a = true := by simp [h']
    rw [before_iff] at h h'
    have e1 : a.architecture = b.architecture :=
      string_eq_of_not_lt (fun x => h (Or.inl x)) (fun x => h' (Or.inl x))
    have e2 : a.optimization = b.optimization :=
      string_eq_of_not_lt (fun x => h (Or.inr ⟨e1, Or.inl x⟩))
        (fun x => h' (Or.inr ⟨e1.symm, Or.inl x⟩))
    have e3 : a.function = b.function :=
      string_eq_of_not_lt (fun x => h (Or.inr ⟨e1, Or.inr ⟨e2, x⟩⟩))
        (fun x => h' (Or.inr ⟨e1.symm, Or.inr ⟨e2.symm, x⟩⟩))
    cases a; cases b; simp_all

end Cell

end CipherCorpus
