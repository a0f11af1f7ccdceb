import CipherCorpus.Config.Validate
import CipherCorpus.Proofs.Compile.Cells
import CipherCorpus.Proofs.Path
import CipherCorpus.Proofs.Text.Lowercase

/-!
# When two cells share an output file

The name of a binary joins library, function, architecture and tag with underscores.  Architectures
hold no underscore, functions and tags may, and the tag forgets dashes and case.  Two cells of a
library have the same name exactly when all fields agree up to the tag (`SameTag`), or when the
longer function swallows the architecture of the other cell (`Overlaps`):

    binaryPath l out a = binaryPath l out b ↔ a.SameTag b ∨ a.Overlaps b ∨ b.Overlaps a
                                                                      (binaryPath_eq_iff)

Without underscores in the levels only the first case is left (`not_overlaps`), so the paths of a matrix
are distinct exactly when the tags of its levels are (`output_paths_distinct_iff`).
-/

namespace CipherCorpus

open Level Text

/-! ## The two ways to share a name -/

namespace Cell

/-- The cells differ at most in dashes and case of the level. -/
def SameTag (a b : Cell) : Prop :=
  a.function = b.function ∧ a.architecture = b.architecture ∧
    tag a.optimization = tag b.optimization

/-- The function of `b` goes on over the architecture of `a` and a part `s` of its tag, and the rest of
that tag reads as architecture and tag of `b`. -/
def Overlaps (a b : Cell) : Prop :=
  ∃ s : String, b.function = a.function ++ "_" ++ a.architecture ++ s ∧
    "_" ++ tag a.optimization = s ++ "_" ++ b.architecture ++ "_" ++ tag b.optimization

end Cell

/-! ## Lemmas -/

theorem toList_binaryName (library function architecture level : String) :
    (binaryName library function architecture level).toList =
      replaceChar '_' '-' library.toList ++ '_' :: (function.toList ++ '_' ::
        (architecture.toList ++ '_' :: ((tag level).toList ++ ".bin".toList))) := by
  unfold binaryName
  simp only [String.toList_append, String.toList_ofList]
  simp [List.append_assoc]

/-- What follows the function in a name. -/
theorem overlaps_iff {a b : Cell} : a.Overlaps b ↔
    ∃ s : List Char, b.function.toList = a.function.toList ++ '_' :: (a.architecture.toList ++ s) ∧
      '_' :: (tag a.optimization).toList =
        s ++ '_' :: (b.architecture.toList ++ '_' :: (tag b.optimization).toList) := by
  unfold Cell.Overlaps
  constructor
  · rintro ⟨s, h, h'⟩
    have h := congrArg String.toList h
    have h' := congrArg String.toList h'
    simp only [String.toList_append] at h h'
    exact ⟨s.toList, by simpa using h, by simpa using h'⟩
  · rintro ⟨s, h, h'⟩
    refine ⟨String.ofList s, String.toList_inj.mp ?_, String.toList_inj.mp ?_⟩
    · simp only [String.toList_append, String.toList_ofList]
      simpa using h
    · simp only [String.toList_append, String.toList_ofList]
      simpa using h'

/-- The part of a name after the library, with the longer function on the right. -/
theorem joined_eq_of_longer {f w x y t u : List Char} (hx : '_' ∉ x) (hy : '_' ∉ y)
    (h : '_' :: (x ++ '_' :: t) = w ++ '_' :: (y ++ '_' :: u)) :
    (w = [] ∧ x = y ∧ t = u) ∨
      ∃ s, f ++ w = f ++ '_' :: (x ++ s) ∧ '_' :: t = s ++ '_' :: (y ++ '_' :: u) := by
  cases w with
  | nil =>
    left
    simp only [List.nil_append, List.cons.injEq, true_and] at h
    obtain ⟨hxy, htu⟩ := (append_sep_inj hx hy).mp h
    exact ⟨rfl, hxy, htu⟩
  | cons c w =>
    right
    simp only [List.cons_append, List.cons.injEq] at h
    obtain ⟨rfl, h⟩ := h
    rcases List.append_eq_append_iff.mp h with ⟨s, hs, hr⟩ | ⟨s, hs, hr⟩
    · exact ⟨s, by rw [hs], hr⟩
    · -- the architecture of the shorter side would hold the separator
      cases s with
      | nil => exact ⟨[], by simpa using hs.symm, by simpa using hr.symm⟩
      | cons d s =>
        simp only [List.cons_append, List.cons.injEq] at hr
        exact absurd (hs ▸ List.mem_append_right w (hr.1 ▸ List.mem_cons_self)) hx

/-- Fields of two cells that join to the same text. -/
theorem joined_eq_iff {f g x y t u : List Char} (hx : '_' ∉ x) (hy : '_' ∉ y) :
    f ++ '_' :: (x ++ '_' :: t) = g ++ '_' :: (y ++ '_' :: u) ↔
      (f = g ∧ x = y ∧ t = u) ∨
      (∃ s, g = f ++ '_' :: (x ++ s) ∧ '_' :: t = s ++ '_' :: (y ++ '_' :: u)) ∨
      (∃ s, f = g ++ '_' :: (y ++ s) ∧ '_' :: u = s ++ '_' :: (x ++ '_' :: t)) := by
  constructor
  · intro h
    rcases List.append_eq_append_iff.mp h with ⟨w, rfl, hw⟩ | ⟨w, rfl, hw⟩
    · rcases joined_eq_of_longer (f := f) hx hy hw with ⟨rfl, hxy, htu⟩ | h
      · exact Or.inl ⟨by simp, hxy, htu⟩
      · exact Or.inr (Or.inl h)
    · rcases joined_eq_of_longer (f := g) hy hx hw with ⟨rfl, hxy, htu⟩ | h
      · exact Or.inl ⟨by simp, hxy.symm, htu.symm⟩
      · exact Or.inr (Or.inr h)
  · rintro (⟨rfl, rfl, rfl⟩ | ⟨s, rfl, h⟩ | ⟨s, rfl, h⟩)
    · rfl
    · rw [h]
      simp
    · rw [h]
      simp

/-- Two cells of a library whose architectures hold no underscore have the same name exactly when they
agree up to the tag or overlap. -/
theorem binaryName_eq_iff (library : String) {a b : Cell} (ha : '_' ∉ a.architecture.toList)
    (hb : '_' ∉ b.architecture.toList) :
    binaryName library a.function a.architecture a.optimization =
        binaryName library b.function b.architecture b.optimization ↔
      a.SameTag b ∨ a.Overlaps b ∨ b.Overlaps a := by
  rw [← String.toList_inj, toList_binaryName, toList_binaryName, List.append_cancel_left_eq,
    List.cons.injEq, overlaps_iff, overlaps_iff]
  have hassoc : ∀ c : Cell, c.function.toList ++ '_' :: (c.architecture.toList ++ '_' ::
      ((tag c.optimization).toList ++ ".bin".toList)) = (c.function.toList ++ '_' ::
      (c.architecture.toList ++ '_' :: (tag c.optimization).toList)) ++ ".bin".toList := by
    intro c
    simp
  rw [hassoc, hassoc, List.append_cancel_right_eq, joined_eq_iff ha hb]
  unfold Cell.SameTag
  simp only [String.toList_inj, true_and]

/-- Both names of a library are absolute or none is, so their paths differ where the names do. -/
theorem binaryPath_inj (library : String) (outputDir : Path) (a b : Cell) :
    Compiler.binaryPath library outputDir a = Compiler.binaryPath library outputDir b ↔
      binaryName library a.function a.architecture a.optimization =
        binaryName library b.function b.architecture b.optimization := by
  constructor
  · intro h
    have hhead : ∀ c : Cell, (binaryName library c.function c.architecture c.optimization).toList.head? =
        (replaceChar '_' '-' library.toList ++ ['_']).head? := by
      intro c
      rw [toList_binaryName]
      cases replaceChar '_' '-' library.toList <;> rfl
    unfold Compiler.binaryPath at h
    by_cases habs : (replaceChar '_' '-' library.toList ++ ['_']).head? = some '/'
    · have hpath : ∀ c : Cell, outputDir.child (binaryName library c.function c.architecture
          c.optimization) = ⟨binaryName library c.function c.architecture c.optimization⟩ := by
        intro c
        have hc := (hhead c).trans habs
        unfold Path.child Path.join Path.isAbsolute
        rw [hc]
        rfl
      rw [hpath, hpath] at h
      exact congrArg Path.text h
    · have h := congrArg String.toList (congrArg Path.text h)
      rw [Path.toList_child _ (by rw [hhead]; exact habs),
        Path.toList_child _ (by rw [hhead]; exact habs), List.append_cancel_left_eq] at h
      exact String.toList_inj.mp h
  · intro h
    unfold Compiler.binaryPath
    rw [h]

/-- A text is cut behind its last separator. -/
theorem exists_eq_append_kept (sep : Char) (s : List Char) :
    ∃ pre kept, s = pre ++ kept ∧ (pre = [] ∨ ∃ l, pre = l ++ [sep]) ∧ sep ∉ kept := by
  induction s with
  | nil => exact ⟨[], [], rfl, Or.inl rfl, List.not_mem_nil⟩
  | cons c rest ih =>
    obtain ⟨pre, kept, rfl, hp, hk⟩ := ih
    rcases hp with rfl | ⟨l, rfl⟩
    · by_cases hc : c = sep
      · exact ⟨[c], kept, rfl, Or.inr ⟨[], by rw [hc]; rfl⟩, hk⟩
      · refine ⟨[], c :: kept, rfl, Or.inl rfl, fun hm => ?_⟩
        rcases List.mem_cons.mp hm with h | h
        · exact hc h.symm
        · exact hk h
    · exact ⟨c :: (l ++ [sep]), kept, rfl, Or.inr ⟨c :: l, rfl⟩, hk⟩

/-- The name of the entry that a cell is compiled to, behind `kept`. -/
def entryName (kept : List Char) (cell : Cell) : List Char :=
  kept ++ '_' :: (cell.function.toList ++ '_' :: (cell.architecture.toList ++ '_' ::
    ((tag cell.optimization).toList ++ ".bin".toList)))

/-- All output paths of a library share what stands in front of the name of the entry. -/
theorem exists_binaryPath_eq (library : String) (outputDir : Path) :
    ∃ pre kept : List Char, (pre = [] ∨ ∃ l, pre = l ++ ['/']) ∧ '/' ∉ kept ∧
      ∀ cell, Compiler.binaryPath library outputDir cell =
        ⟨String.ofList (pre ++ entryName kept cell)⟩ := by
  obtain ⟨pre, kept, hl, hp, hk⟩ := exists_eq_append_kept '/' (replaceChar '_' '-' library.toList)
  have hname : ∀ c : Cell, (binaryName library c.function c.architecture c.optimization).toList =
      pre ++ entryName kept c := by
    intro c
    rw [toList_binaryName, hl, entryName, List.append_assoc]
  have hhead : ∀ c : Cell, (pre ++ entryName kept c).head? = (pre ++ kept ++ ['_']).head? := by
    intro c
    unfold entryName
    cases pre <;> cases kept <;> rfl
  by_cases habs : (pre ++ kept ++ ['_']).head? = some '/'
  · refine ⟨pre, kept, hp, hk, fun c => ?_⟩
    have hc := (hhead c).trans habs
    rw [← hname] at hc ⊢
    rw [String.ofList_toList]
    unfold Compiler.binaryPath Path.child Path.join Path.isAbsolute
    rw [hc]
    rfl
  · refine ⟨outputDir.lead ++ pre, kept, ?_, hk, fun c => ?_⟩
    · rcases hp with rfl | ⟨l, rfl⟩
      · rw [List.append_nil]
        exact outputDir.lead_eq_nil_or
      · exact Or.inr ⟨outputDir.lead ++ l, by rw [List.append_assoc]⟩
    · have hc := (hhead c).symm ▸ habs
      rw [← hname] at hc
      have ht := Path.toList_child outputDir hc
      rw [hname] at ht
      unfold Compiler.binaryPath
      rw [List.append_assoc, ← ht, String.ofList_toList]

theorem isEntryName_entryName {kept : List Char} {cell : Cell} (hk : '/' ∉ kept)
    (hf : '/' ∉ cell.function.toList) (ha : '/' ∉ cell.architecture.toList)
    (ho : '/' ∉ cell.optimization.toList) : Path.IsEntryName (entryName kept cell) := by
  have ht : '/' ∉ (tag cell.optimization).toList := by
    unfold tag
    rw [String.toList_ofList]
    exact fun h => ho (List.mem_of_mem_filter (mem_of_mem_lower (by decide) (by decide) h))
  have hu : '_' ∈ entryName kept cell := List.mem_append_right _ List.mem_cons_self
  refine ⟨?_, ?_, ?_, ?_⟩
  · unfold entryName
    simp [hk, hf, ha, ht]
  all_goals
    intro h
    rw [h] at hu
    revert hu
    decide

/-- Without separators in functions and levels, output paths are the same path only where the names
agree. -/
theorem same_binaryPath_iff (library : String) (outputDir : Path) {a b : Cell}
    (ha : '/' ∉ a.function.toList ∧ '/' ∉ a.architecture.toList ∧ '/' ∉ a.optimization.toList)
    (hb : '/' ∉ b.function.toList ∧ '/' ∉ b.architecture.toList ∧ '/' ∉ b.optimization.toList) :
    (Compiler.binaryPath library outputDir a).same (Compiler.binaryPath library outputDir b) = true ↔
      Compiler.binaryPath library outputDir a = Compiler.binaryPath library outputDir b := by
  obtain ⟨pre, kept, hp, hk, hpath⟩ := exists_binaryPath_eq library outputDir
  rw [hpath, hpath, Path.same_of_lead_iff hp (isEntryName_entryName hk ha.1 ha.2.1 ha.2.2)
    (isEntryName_entryName hk hb.1 hb.2.1 hb.2.2), Path.mk.injEq, String.ofList_inj,
    List.append_cancel_left_eq]

theorem binaryPath_eq_iff (library : String) (outputDir : Path) {a b : Cell}
    (ha : '_' ∉ a.architecture.toList) (hb : '_' ∉ b.architecture.toList) :
    Compiler.binaryPath library outputDir a = Compiler.binaryPath library outputDir b ↔
      a.SameTag b ∨ a.Overlaps b ∨ b.Overlaps a :=
  (binaryPath_inj library outputDir a b).trans (binaryName_eq_iff library ha hb)

/-- A level without underscores has a tag without them, which leaves no room for an overlap. -/
theorem not_overlaps {a : Cell} (h : '_' ∉ a.optimization.toList) (b : Cell) : ¬ a.Overlaps b := by
  rw [overlaps_iff]
  rintro ⟨s, -, hs⟩
  have ht : '_' ∉ (tag a.optimization).toList := by
    unfold tag
    rw [String.toList_ofList]
    exact fun h' => h (List.mem_of_mem_filter (mem_of_mem_lower (by decide) (by decide) h'))
  cases s with
  | nil =>
    simp only [List.nil_append, List.cons.injEq, true_and] at hs
    exact ht (hs ▸ List.mem_append_right _ List.mem_cons_self)
  | cons c s =>
    simp only [List.cons_append, List.cons.injEq] at hs
    exact ht (hs.2 ▸ List.mem_append_right _ List.mem_cons_self)

/-! ## When all output paths of a matrix differ -/

namespace Compiler

/-- No two cells of a matrix are compiled to one path. -/
def PathsDistinct (c : Compiler) (library : String) (functions : List String) (outputDir : Path) :
    Prop :=
  ∀ a ∈ c.cellsFor functions, ∀ b ∈ c.cellsFor functions, a ≠ b →
    binaryPath library outputDir a ≠ binaryPath library outputDir b

/-- No two cells of a matrix are compiled to paths with the same parts. -/
def PartsDistinct (c : Compiler) (library : String) (functions : List String) (outputDir : Path) :
    Prop :=
  ∀ a ∈ c.cellsFor functions, ∀ b ∈ c.cellsFor functions, a ≠ b →
    (binaryPath library outputDir a).same (binaryPath library outputDir b) = false

/-- The levels of a matrix differ in more than dashes and case. -/
def TagsDistinct (c : Compiler) : Prop :=
  ∀ l ∈ c.options.levels, ∀ m ∈ c.options.levels, tag l = tag m → l = m

section
variable {c : Compiler} {accepts : Architecture → Bool} (hr : Registry.probe accepts = .ok c.registry)
  (library : String) (functions : List String) (outputDir : Path)

include hr

theorem pathsDistinct_iff_cells : c.PathsDistinct library functions outputDir ↔
    ∀ a ∈ c.cellsFor functions, ∀ b ∈ c.cellsFor functions, a ≠ b →
      ¬ a.SameTag b ∧ ¬ a.Overlaps b := by
  have harch : ∀ a ∈ c.cellsFor functions, '_' ∉ a.architecture.toList := fun a ha =>
    (Registry.notMem_id_of_probe hr (mem_cells.mp ha).1).1
  have hiff := fun a ha b hb => binaryPath_eq_iff library outputDir (harch a ha) (harch b hb)
  constructor
  · intro h a ha b hb hne
    have hp := h a ha b hb hne
    rw [Ne, hiff a ha b hb] at hp
    exact ⟨fun h => hp (Or.inl h), fun h => hp (Or.inr (Or.inl h))⟩
  · intro h a ha b hb hne he
    rcases (hiff a ha b hb).mp he with hs | ho | ho
    · exact (h a ha b hb hne).1 hs
    · exact (h a ha b hb hne).2 ho
    · exact (h b hb a ha hne.symm).2 ho

theorem partsDistinct_iff (hs : ∀ s ∈ functions ++ c.options.levels, '/' ∉ s.toList) :
    c.PartsDistinct library functions outputDir ↔ c.PathsDistinct library functions outputDir := by
  have hfields : ∀ a ∈ c.cellsFor functions,
      '/' ∉ a.function.toList ∧ '/' ∉ a.architecture.toList ∧ '/' ∉ a.optimization.toList := by
    intro a ha
    obtain ⟨harch, hopt, hfun⟩ := mem_cells.mp ha
    exact ⟨hs _ (List.mem_append_left _ (mem_distinct.mp hfun)),
      (Registry.notMem_id_of_probe hr harch).2, hs _ (List.mem_append_right _ (mem_distinct.mp hopt))⟩
  have hiff := fun a ha b hb =>
    same_binaryPath_iff library outputDir (hfields a ha) (hfields b hb)
  constructor
  · intro h a ha b hb hne he
    have hp := h a ha b hb hne
    rw [(hiff a ha b hb).mpr he] at hp
    cases hp
  · intro h a ha b hb hne
    rw [Bool.eq_false_iff, Ne, hiff a ha b hb]
    exact h a ha b hb hne

theorem pathsDistinct_iff_tags (hu : ∀ l ∈ c.options.levels, '_' ∉ l.toList) (hf : functions ≠ []) :
    c.PathsDistinct library functions outputDir ↔ c.TagsDistinct := by
  rw [pathsDistinct_iff_cells hr]
  constructor
  · intro h l hl m hm ht
    obtain ⟨f, hf⟩ := List.exists_mem_of_ne_nil _ hf
    obtain ⟨a, ha⟩ := List.exists_mem_of_ne_nil _ (Registry.ids_ne_nil hr)
    have hmem : ∀ o ∈ c.options.levels, (⟨a, o, f⟩ : Cell) ∈ c.cellsFor functions := fun o ho =>
      mem_cells.mpr ⟨ha, mem_distinct.mpr ho, mem_distinct.mpr hf⟩
    refine Classical.byContradiction fun hne => ?_
    refine (h _ (hmem l hl) _ (hmem m hm) fun he => hne ?_).1 ⟨rfl, rfl, ht⟩
    exact congrArg Cell.optimization he
  · intro h a ha b hb hne
    have hopt : ∀ x ∈ c.cellsFor functions, x.optimization ∈ c.options.levels := fun x hx =>
      mem_distinct.mp (mem_cells.mp hx).2.1
    refine ⟨fun ⟨hfun, harch, htag⟩ => hne ?_, not_overlaps (hu _ (hopt a ha)) b⟩
    have ho := h _ (hopt a ha) _ (hopt b hb) htag
    cases a
    cases b
    simp_all

end

/-- **Exactly when no two cells share an output path.**  Cells of a matrix are compiled to distinct paths
if and only if no two of them agree up to the tag of the level or overlap.  For names without
separators distinct paths have distinct parts, so they are distinct entries; for levels without
underscores it is enough, and necessary, that the tags of the levels differ. -/
theorem output_paths_distinct_iff {c : Compiler} {accepts : Architecture → Bool}
    (hr : Registry.probe accepts = .ok c.registry) (library : String) (functions : List String)
    (outputDir : Path) :
    (c.PathsDistinct library functions outputDir ↔
      ∀ a ∈ c.cellsFor functions, ∀ b ∈ c.cellsFor functions, a ≠ b →
        ¬ a.SameTag b ∧ ¬ a.Overlaps b) ∧
    ((∀ s ∈ functions ++ c.options.levels, '/' ∉ s.toList) →
      (c.PartsDistinct library functions outputDir ↔
        c.PathsDistinct library functions outputDir)) ∧
    ((∀ l ∈ c.options.levels, '_' ∉ l.toList) → functions ≠ [] →
      (c.PathsDistinct library functions outputDir ↔ c.TagsDistinct)) :=
  ⟨pathsDistinct_iff_cells hr library functions outputDir,
    partsDistinct_iff hr library functions outputDir,
    pathsDistinct_iff_tags hr library functions outputDir⟩

/-- The standard levels give distinct paths and parts. -/
theorem standard_levels_output_paths_distinct :
    let c : Compiler := ⟨⟨Architecture.catalog⟩, fun i => return .error (.timedOut i.program i.limit),
      .standard⟩
    Registry.probe (fun _ => true) = .ok c.registry ∧
      c.PathsDistinct "my_lib" ["AES_encrypt", "AES"] ⟨"out"⟩ ∧
      c.PartsDistinct "my_lib" ["AES_encrypt", "AES"] ⟨"out"⟩ := by
  intro c
  have hr : Registry.probe (fun _ => true) = .ok c.registry := by decide
  obtain ⟨-, hparts, htags⟩ :=
    output_paths_distinct_iff hr "my_lib" ["AES_encrypt", "AES"] ⟨"out"⟩
  have hd : c.PathsDistinct "my_lib" ["AES_encrypt", "AES"] ⟨"out"⟩ :=
    (htags (by decide) (by decide)).mpr (by unfold TagsDistinct; decide +kernel)
  exact ⟨hr, hd, (hparts (by decide)).mpr hd⟩

/-- Levels that differ in case only are two cells with one output path. -/
theorem levels_differing_in_case_share_path :
    let config : Config := { Config.standard with levels := ["-Os", "-OS"] }
    let c : Compiler := ⟨⟨Architecture.catalog⟩, fun i => return .error (.timedOut i.program i.limit),
      config.compileSettings⟩
    config.validate = .ok () ∧ Registry.probe (fun _ => true) = .ok c.registry ∧
      ¬ c.PathsDistinct "lib" ["f"] ⟨"out"⟩ := by
  intro config c
  refine ⟨by decide +kernel, by decide, fun h => ?_⟩
  exact h ⟨"x86", "-Os", "f"⟩ (by decide +kernel) ⟨"x86", "-OS", "f"⟩ (by decide +kernel) (by decide)
    (by decide +kernel)

end Compiler

end CipherCorpus
