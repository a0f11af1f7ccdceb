import CipherCorpus.Config.Validate
import CipherCorpus.Labeler
import CipherCorpus.Proofs.Compile.Matrix
import CipherCorpus.Proofs.Compile.OutputNames

/-!
# Names of binaries and the origins they tell

The name of a binary joins four fields with underscores; the origin is read back by counting two fields
from the end and one from the front, so the function between them may hold underscores itself
(`splitOn_fields`).  Writing and reading are inverse as far as the format goes:

    read (write library function architecture level)
      = (library with '_' as '-', function, architecture, flagOfTag (tag level))
    write (read stem) = stem       when the last field is in lower case and has no dash
    read stem = none  ↔  stem has fewer than three underscores          (binaryName_inverse)

What the two lose is the level: `flagOfTag` gives back exactly the levels whose part after `-O` is not
empty, has no dash and is in lower case (`flagOfTag_tag_eq_iff`), and a label taken from a file name is
wrong for the others (`fileName_keeps_level_iff`).
-/

namespace CipherCorpus

open Text

/-! ## Stems of file names -/

theorem Path.cutAtDot_append (stem : List Char) {extension : List Char} (he : '.' ∉ extension) :
    cutAtDot (stem ++ '.' :: extension) =
      if stem.isEmpty then (stem ++ '.' :: extension, none) else (stem, some extension) := by
  have hafter : ((stem ++ '.' :: extension).reverse.takeWhile (· != '.')).reverse = extension := by
    have hp : ∀ c ∈ extension.reverse, (c != '.') = true := fun c hc =>
      bne_iff_ne.mpr fun h => he (h ▸ List.mem_reverse.mp hc)
    rw [List.reverse_append, List.reverse_cons, List.append_assoc,
      List.takeWhile_append_of_pos hp]
    simp
  have hlength : (stem ++ '.' :: extension).length - extension.length - 1 = stem.length := by
    rw [List.length_append, List.length_cons]
    omega
  unfold cutAtDot
  simp only [hafter, hlength, List.take_left]
  rw [if_neg]
  rw [List.length_append, List.length_cons]
  omega

theorem isEntryName_bin {stem : List Char} (hs : '/' ∉ stem) :
    Path.IsEntryName (stem ++ ".bin".toList) := by
  have hb : 'b' ∈ stem ++ ".bin".toList := List.mem_append_right _ (by decide)
  refine ⟨?_, ?_, ?_, ?_⟩
  · rw [List.mem_append, not_or]
    exact ⟨hs, by decide⟩
  all_goals
    intro h
    rw [h] at hb
    revert hb
    decide

/-- The stem of a binary; a name that is nothing but `.bin` is its own stem. -/
theorem fileStem?_bin (dir : Path) {stem : String} (hs : '/' ∉ stem.toList) :
    (dir.child (stem ++ ".bin")).fileStem? = some (if stem = "" then ".bin" else stem) := by
  have hl : (stem ++ ".bin").toList = stem.toList ++ ".bin".toList := String.toList_append
  unfold Path.fileStem?
  rw [dir.fileName?_child (hl ▸ isEntryName_bin hs), Option.map_some, hl]
  rw [show ".bin".toList = '.' :: "bin".toList from rfl, Path.cutAtDot_append _ (by decide)]
  by_cases h : stem = ""
  · rw [if_pos h, h]
    rfl
  · have hne : stem.toList ≠ [] := fun e => h (String.toList_inj.mp e)
    rw [if_neg h, if_neg (by simpa using hne), String.ofList_toList]

/-! ## Fields of a stem -/

namespace Origin

theorem splitOn_fields {library architecture tag : List Char} (function : List Char)
    (hl : '_' ∉ library) (ha : '_' ∉ architecture) (ht : '_' ∉ tag) :
    splitOn '_' (library ++ '_' :: (function ++ '_' :: (architecture ++ '_' :: tag))) =
      library :: (splitOn '_' function ++ [architecture, tag]) := by
  rw [splitOn_append_sep, splitOn_append_sep, splitOn_append_sep, splitOn_of_notMem hl,
    splitOn_of_notMem ha, splitOn_of_notMem ht]
  rfl

theorem ofFields?_eq {functions : List (List Char)} (library architecture tag : List Char)
    (hf : functions ≠ []) :
    ofFields? (library :: (functions ++ [architecture, tag])) =
      some ⟨String.ofList library, String.ofList (joinWith '_' functions),
        String.ofList architecture, Level.flagOfTag (String.ofList tag)⟩ := by
  obtain ⟨f, more, hr⟩ := List.exists_cons_of_ne_nil (mt List.reverse_eq_nil_iff.mp hf)
  unfold ofFields?
  simp only [List.reverse_append, List.reverse_cons, List.reverse_nil, List.nil_append,
    List.cons_append, hr]
  rw [← List.reverse_cons, ← hr, List.reverse_reverse]

/-- Four fields or more are a library, a function, an architecture and a tag. -/
theorem exists_fields {fields : List (List Char)} (h : 4 ≤ fields.length) :
    ∃ library functions architecture tag, functions ≠ [] ∧
      fields = library :: (functions ++ [architecture, tag]) := by
  obtain ⟨library, rest, rfl⟩ := List.exists_cons_of_length_pos (Nat.lt_of_lt_of_le (by decide) h)
  obtain ⟨functions, last, rfl, hlast⟩ : ∃ functions last, rest = functions ++ last ∧
      last.length = 2 :=
    ⟨rest.take (rest.length - 2), rest.drop (rest.length - 2), (List.take_append_drop _ _).symm, by
      rw [List.length_drop]; simp only [List.length_cons] at h; omega⟩
  obtain ⟨architecture, tag, rfl⟩ := List.length_eq_two.mp hlast
  refine ⟨library, functions, architecture, tag, fun he => ?_, rfl⟩
  rw [he, List.nil_append, List.length_cons, hlast] at h
  omega

theorem ofFields?_eq_none {fields : List (List Char)} (h : fields.length < 4) :
    ofFields? fields = none := by
  match fields, h with
  | [], _ => rfl
  | [_], _ => rfl
  | [_, _], _ => rfl
  | [_, _, _], _ => rfl

/-- **A stem has an origin exactly when it has three underscores.** -/
theorem ofFields?_splitOn_eq_none_iff (stem : List Char) :
    ofFields? (splitOn '_' stem) = none ↔ stem.count '_' < 3 := by
  constructor
  · intro h
    by_contra hc
    have hlen : 4 ≤ (splitOn '_' stem).length := by
      rw [length_splitOn]
      omega
    obtain ⟨library, functions, architecture, tag, hf, hs⟩ := exists_fields hlen
    rw [hs, ofFields?_eq library architecture tag hf] at h
    cases h
  · intro h
    refine ofFields?_eq_none ?_
    rw [length_splitOn]
    omega

end Origin

/-! ## Tags -/

namespace Level

theorem toList_tag (level : String) :
    (tag level).toList = lower (level.toList.filter (· != '-')) := by
  rw [tag, String.toList_ofList]

theorem notMem_tag {c : Char} (hc : c.toNat ≤ 95) (h0 : c.toNat ≠ 0) {level : String}
    (h : c ∉ level.toList) : c ∉ (tag level).toList := by
  rw [toList_tag]
  exact fun hm => h (List.mem_of_mem_filter (mem_of_mem_lower hc h0 hm))

/-- A tag in lower case and without dashes comes back from the flag that is read from it. -/
theorem tag_flagOfTag {t : String} (hd : '-' ∉ t.toList) (hl : ∀ c ∈ t.toList, IsLower c) :
    tag (flagOfTag t) = t := by
  have hkeep : ∀ s : List Char, '-' ∉ s → s.filter (· != '-') = s := fun s h =>
    List.filter_eq_self.mpr fun c hc => bne_iff_ne.mpr fun e => h (e ▸ hc)
  rw [← String.toList_inj, toList_tag]
  unfold flagOfTag
  split
  · next c rest ht =>
    rw [ht] at hd hl ⊢
    obtain ⟨-, hd⟩ := not_or.mp (mt List.mem_cons.mpr hd)
    have hf : ('-' :: 'O' :: c :: rest).filter (· != '-') = 'O' :: c :: rest := by
      rw [List.filter_cons_of_neg (by decide), List.filter_cons_of_pos (by decide), hkeep _ hd]
    rw [String.toList_ofList, hf]
    have hr : lowerFrom ['O'] (c :: rest) = c :: rest :=
      (lowerFrom_eq_iff _).mpr (List.forall_mem_cons.mp hl).2
    unfold lower
    rw [lowerFrom, hr]
    rfl
  · next c rest ht =>
    rw [ht] at hl
    exact absurd (hl 'O' List.mem_cons_self) (by decide)
  · rw [hkeep _ hd]
    exact (lowerFrom_eq_iff []).mpr hl

end Level

/-! ## Writing and reading names -/

theorem toList_binaryName_stem (library function architecture level : String) :
    (Level.binaryName library function architecture level).toList =
      (replaceChar '_' '-' library.toList ++ '_' :: (function.toList ++ '_' ::
        (architecture.toList ++ '_' :: (Level.tag level).toList))) ++ ".bin".toList := by
  rw [toList_binaryName]
  simp [List.append_assoc]

theorem notMem_replaceChar {old new : Char} (h : old ≠ new) (s : List Char) :
    old ∉ replaceChar old new s := by
  intro hm
  obtain ⟨c, -, hc⟩ := List.mem_map.mp hm
  split at hc
  · exact h hc.symm
  · contradiction

theorem replaceChar_of_notMem {old new : Char} {s : List Char} (h : old ∉ s) :
    replaceChar old new s = s := by
  refine (List.map_congr_left fun c hc => ?_).trans (List.map_id s)
  exact if_neg fun e : c = old => h (e ▸ hc)

theorem ofBinaryName?_bin (dir : Path) {stem : String} (hs : '/' ∉ stem.toList) :
    Origin.ofBinaryName? (dir.child (stem ++ ".bin")) =
      Origin.ofFields? (splitOn '_' stem.toList) := by
  unfold Origin.ofBinaryName?
  rw [fileStem?_bin dir hs, Option.bind_some]
  split
  · next h =>
    subst h
    rfl
  · rfl

/-- The origin that the name of a binary tells. -/
theorem ofBinaryName?_binaryName (dir : Path) {library function architecture level : String}
    (hl : '/' ∉ library.toList) (hf : '/' ∉ function.toList)
    (ha : '_' ∉ architecture.toList ∧ '/' ∉ architecture.toList)
    (ho : '_' ∉ level.toList ∧ '/' ∉ level.toList) :
    Origin.ofBinaryName? (dir.child (Level.binaryName library function architecture level)) =
      some ⟨String.ofList (replaceChar '_' '-' library.toList), function, architecture,
        Level.flagOfTag (Level.tag level)⟩ := by
  obtain ⟨stem, hstem⟩ : ∃ stem : String, stem.toList = replaceChar '_' '-' library.toList ++ '_' ::
      (function.toList ++ '_' :: (architecture.toList ++ '_' :: (Level.tag level).toList)) :=
    ⟨_, String.toList_ofList⟩
  have hname : Level.binaryName library function architecture level = stem ++ ".bin" := by
    rw [← String.toList_inj, toList_binaryName_stem, String.toList_append, hstem]
  have hsep : '/' ∉ stem.toList := by
    have htag := Level.notMem_tag (by decide) (by decide) ho.2
    have hlib : '/' ∉ replaceChar '_' '-' library.toList := fun h =>
      (mem_of_mem_replaceChar h).elim (by decide) hl
    rw [hstem]
    simp [hlib, hf, ha.2, htag]
  rw [hname, ofBinaryName?_bin dir hsep, hstem, Origin.splitOn_fields _
    (notMem_replaceChar (by decide) _) ha.1 (Level.notMem_tag (by decide) (by decide) ho.1),
    Origin.ofFields?_eq _ _ _ (splitOn_ne_nil _ _), joinWith_splitOn]
  simp only [String.ofList_toList]

/-- What stands behind the last underscore of a stem. -/
def lastField (stem : List Char) : List Char := (splitOn '_' stem).getLastD []

/-- The name that the origin of a stem is written to. -/
theorem binaryName_ofFields? {stem : String} (h3 : 3 ≤ stem.toList.count '_')
    (hd : '-' ∉ lastField stem.toList) (hl : lower (lastField stem.toList) = lastField stem.toList) :
    ∃ o, Origin.ofFields? (splitOn '_' stem.toList) = some o ∧
      Level.binaryName o.library o.function o.architecture o.optimization = stem ++ ".bin" := by
  have hlen : 4 ≤ (splitOn '_' stem.toList).length := by
    rw [length_splitOn]
    omega
  obtain ⟨library, functions, architecture, tag, hf, hs⟩ := Origin.exists_fields hlen
  have hlast : lastField stem.toList = tag := by
    unfold lastField
    rw [hs, ← List.singleton_append, ← List.append_assoc, List.append_cons, List.getLastD_concat]
  rw [hlast] at hd hl
  have hpieces : ∀ piece ∈ splitOn '_' stem.toList, '_' ∉ piece := fun _ => notMem_of_mem_splitOn
  rw [hs] at hpieces
  have hno : ∀ piece ∈ functions, '_' ∉ piece := fun p hp =>
    hpieces p (List.mem_cons_of_mem _ (List.mem_append_left _ hp))
  have hlib : '_' ∉ library := hpieces _ List.mem_cons_self
  refine ⟨_, by rw [hs, Origin.ofFields?_eq _ _ _ hf], ?_⟩
  have htag : Level.tag (Level.flagOfTag (String.ofList tag)) = String.ofList tag :=
    Level.tag_flagOfTag (by rwa [String.toList_ofList])
      (by rw [String.toList_ofList]; exact (lowerFrom_eq_iff []).mp hl)
  rw [← String.toList_inj, toList_binaryName_stem, String.toList_append, htag]
  simp only [String.toList_ofList]
  rw [replaceChar_of_notMem hlib]
  congr 1
  -- both texts have the same pieces
  rw [← joinWith_splitOn '_' (library ++ _), Origin.splitOn_fields _ hlib
    (hpieces _ (by simp)) (hpieces _ (by simp)), splitOn_joinWith hf hno, ← hs, joinWith_splitOn]

/-- **Writing a name and reading it are inverse on the format of names.**  Reading gives back what was
written, but for the underscores of the library and what the tag of a level forgets; writing gives back
a name whose last field could be a tag; and reading fails on stems with fewer than three underscores
only. -/
theorem binaryName_inverse :
    (∀ (dir : Path) (library function architecture level : String), '/' ∉ library.toList →
      '/' ∉ function.toList → '_' ∉ architecture.toList → '/' ∉ architecture.toList →
      '_' ∉ level.toList → '/' ∉ level.toList →
      Origin.ofBinaryName? (dir.child (Level.binaryName library function architecture level)) =
        some ⟨String.ofList (replaceChar '_' '-' library.toList), function, architecture,
          Level.flagOfTag (Level.tag level)⟩) ∧
    (∀ (dir : Path) (stem : String), '/' ∉ stem.toList → 3 ≤ stem.toList.count '_' →
      lower (lastField stem.toList) = lastField stem.toList → '-' ∉ lastField stem.toList →
      ∃ o, Origin.ofBinaryName? (dir.child (stem ++ ".bin")) = some o ∧
        Level.binaryName o.library o.function o.architecture o.optimization = stem ++ ".bin") ∧
    (∀ (dir : Path) (stem : String), '/' ∉ stem.toList →
      (Origin.ofBinaryName? (dir.child (stem ++ ".bin")) = none ↔ stem.toList.count '_' < 3)) := by
  refine ⟨?_, ?_, ?_⟩
  · intro dir library function architecture level hl hf ha ha' ho ho'
    exact ofBinaryName?_binaryName dir hl hf ⟨ha, ha'⟩ ⟨ho, ho'⟩
  · intro dir stem hs h3 hl hd
    rw [ofBinaryName?_bin dir hs]
    exact binaryName_ofFields? h3 hd hl
  · intro dir stem hs
    rw [ofBinaryName?_bin dir hs]
    exact Origin.ofFields?_splitOn_eq_none_iff _

/-! ## Example -/

theorem underscores_stay_in_the_function :
    Origin.ofBinaryName? (Path.child ⟨"out"⟩ (Level.binaryName "my_lib" "sha_256.c" "x86-64" "-O2")) =
        some ⟨"my-lib", "sha_256.c", "x86-64", "-O2"⟩ ∧
      (∃ o, Origin.ofBinaryName? (Path.child ⟨"out"⟩ ("_a__b_arm_" ++ ".bin")) = some o ∧
        Level.binaryName o.library o.function o.architecture o.optimization = "_a__b_arm_" ++ ".bin") ∧
      (Origin.ofBinaryName? (Path.child ⟨"out"⟩ ("lib_md5_x86" ++ ".bin")) = none ↔
        "lib_md5_x86".toList.count '_' < 3) := by
  refine ⟨?_, ?_, ?_⟩
  · exact (binaryName_inverse.1 ⟨"out"⟩ "my_lib" "sha_256.c" "x86-64" "-O2" (by decide) (by decide)
      (by decide) (by decide) (by decide) (by decide)).trans (by decide)
  · exact binaryName_inverse.2.1 ⟨"out"⟩ "_a__b_arm_" (by decide) (by decide) (by decide) (by decide)
  · exact binaryName_inverse.2.2 ⟨"out"⟩ "lib_md5_x86" (by decide)

/-! ## Levels -/

namespace Level

/-- Behind `-O` the level has something, no dash, and nothing that lower-casing changes. -/
def KeptInName (level : String) : Prop :=
  level.toList.drop 2 ≠ [] ∧ ∀ c ∈ level.toList.drop 2, c ≠ '-' ∧ IsLower c

instance (level : String) : Decidable (KeptInName level) := inferInstanceAs (Decidable (_ ∧ _))

theorem isLevelFlag_iff {level : String} :
    Config.isLevelFlag level = true ↔ ['-', 'O'] <+: level.toList :=
  String.startsWith_string_iff

/-- The tag of a level flag is an `o` in front of the rest in lower case. -/
theorem toList_tag_of_flag {level : String} {rest : List Char}
    (h : level.toList = '-' :: 'O' :: rest) :
    (tag level).toList = 'o' :: lowerFrom ['O'] (rest.filter (· != '-')) := by
  rw [toList_tag, h, List.filter_cons_of_neg (by decide), List.filter_cons_of_pos (by decide)]
  rfl

/-- What is read from the tag of a level flag. -/
theorem toList_flagOfTag_tag {level : String} {rest : List Char}
    (h : level.toList = '-' :: 'O' :: rest) :
    (flagOfTag (tag level)).toList =
      match lowerFrom ['O'] (rest.filter (· != '-')) with
      | [] => ['o']
      | c :: more => '-' :: 'O' :: c :: more := by
  have ht := toList_tag_of_flag h
  unfold flagOfTag
  cases hs : lowerFrom ['O'] (rest.filter (· != '-')) with
  | nil =>
    rw [hs] at ht
    rw [ht]
    exact ht
  | cons c more =>
    rw [ht, hs]
    exact String.toList_ofList

/-- What a tag has behind its `o` is the rest of the level only where that has no dash and is in lower
case. -/
theorem lowerFrom_filter_eq_iff (rest before : List Char) :
    lowerFrom before (rest.filter (· != '-')) = rest ↔ ∀ c ∈ rest, c ≠ '-' ∧ IsLower c := by
  have hkeep : (∀ c ∈ rest, c ≠ '-') → rest.filter (· != '-') = rest := fun h =>
    List.filter_eq_self.mpr fun c hc => bne_iff_ne.mpr (h c hc)
  constructor
  · intro h
    have hd : ∀ c ∈ rest, c ≠ '-' := by
      intro c hc he
      subst he
      have hm := mem_of_mem_lowerFrom (by decide) (by decide) _ _ (h.symm ▸ hc)
      exact absurd (List.mem_filter.mp hm).2 (by decide)
    rw [hkeep hd, lowerFrom_eq_iff] at h
    exact fun c hc => ⟨hd c hc, h c hc⟩
  · intro h
    rw [hkeep fun c hc => (h c hc).1, lowerFrom_eq_iff]
    exact fun c hc => (h c hc).2

/-- **Exactly the kept levels come back from their tags.** -/
theorem flagOfTag_tag_eq_iff {level : String} (h : Config.isLevelFlag level = true) :
    flagOfTag (tag level) = level ↔ KeptInName level := by
  obtain ⟨rest, hl⟩ := isLevelFlag_iff.mp h
  have hl : level.toList = '-' :: 'O' :: rest := hl.symm
  unfold KeptInName
  rw [← String.toList_inj, toList_flagOfTag_tag hl, hl, List.drop_succ_cons, List.drop_succ_cons,
    List.drop_zero, ← lowerFrom_filter_eq_iff rest ['O']]
  cases hs : lowerFrom ['O'] (rest.filter (· != '-')) with
  | nil =>
    refine iff_of_false (fun h => ?_) fun h => h.1 h.2.symm
    cases h
  | cons c more =>
    simp only [List.cons.injEq, true_and]
    constructor
    · rintro rfl
      exact ⟨List.cons_ne_nil _ _, rfl⟩
    · exact And.right

end Level

/-- Without a manifest the origin is what the file name tells. -/
theorem Labeler.origin?_empty (p : Path) : empty.origin? p = Origin.ofBinaryName? p := rfl

/-- **A level survives in the name of a binary exactly when it is kept**: then its flag is read back from
its tag, and the label that the file name of a built binary tells has the level of the cell. -/
theorem fileName_keeps_level_iff {level : String} (hlevel : Config.isLevelFlag level = true) :
    (Level.flagOfTag (Level.tag level) = level ↔ Level.KeptInName level) ∧
    ∀ (c : Compiler) (library : String) (outputDir : Path) (cell : Cell) (source? : Option Path)
      (h h' : Host) (a : Artifact),
      Runs (c.runCell library outputDir cell source?) h (.built a) h' → cell.optimization = level →
      '/' ∉ library.toList → '/' ∉ cell.function.toList →
      '_' ∉ cell.architecture.toList → '/' ∉ cell.architecture.toList →
      '_' ∉ level.toList → '/' ∉ level.toList →
      a.optimization = level ∧
        ((Labeler.empty.labelOf a.binaryPath).optimization = some a.optimization ↔ Level.KeptInName level) := by
  refine ⟨Level.flagOfTag_tag_eq_iff hlevel, ?_⟩
  rintro c library outputDir cell source? h h' a hr rfl hl hf ha ha' ho ho'
  obtain ⟨hpath, hopt⟩ : a.binaryPath = Compiler.binaryPath library outputDir cell ∧
      a.optimization = cell.optimization := by
    obtain ⟨source, size, md5, hbuilt⟩ := Compiler.built_of_runCell hr
    rw [hbuilt]
    exact ⟨Compiler.artifactOf_binaryPath .., rfl⟩
  have horigin : Labeler.empty.origin? a.binaryPath = some ⟨String.ofList (replaceChar '_' '-'
      library.toList), cell.function, cell.architecture, Level.flagOfTag (Level.tag cell.optimization)⟩ := by
    rw [hpath, Labeler.origin?_empty]
    exact ofBinaryName?_binaryName outputDir hl hf ⟨ha, ha'⟩ ⟨ho, ho'⟩
  have hlabel : (Labeler.empty.labelOf a.binaryPath).optimization =
      some (Level.flagOfTag (Level.tag cell.optimization)) := by
    unfold Labeler.labelOf
    rw [horigin]
    rfl
  refine ⟨hopt, ?_⟩
  rw [hlabel, hopt, Option.some_inj]
  exact Level.flagOfTag_tag_eq_iff hlevel

/-! ## Example -/

/-- Whether a cell was built. -/
def CellResult.isBuilt : CellResult → Bool
  | built _ => true
  | _ => false

/-- A level in lower case is read back from the label of its binary. -/
theorem lower_case_level_is_kept :
    let c : Compiler := ⟨⟨Architecture.catalog⟩, .writing [0], CompileSettings.standard⟩
    let h : Host := ⟨⟨[(["f.c"], .file (.bytes []) false)]⟩, [], [], ⟨0, 0⟩, "", 4, .empty⟩
    let cell : Cell := ⟨"x86", "-Os", "f"⟩
    Config.isLevelFlag "-Os" = true ∧ Level.KeptInName "-Os" ∧ Level.flagOfTag (Level.tag "-Os") = "-Os" ∧
    ∃ a h', Runs (c.runCell "my_lib" ⟨"/"⟩ cell (some ⟨"/f.c"⟩)) h (.built a) h' ∧ a.optimization = "-Os" ∧
      (Labeler.empty.labelOf a.binaryPath).optimization = some a.optimization := by
  intro c h cell
  have hlevel : Config.isLevelFlag "-Os" = true := Level.isLevelFlag_iff.mpr (by decide)
  have hletters : "-Os".toList.drop 2 = ['s'] := rfl
  have hkept : Level.KeptInName "-Os" := by
    unfold Level.KeptInName
    rw [hletters]
    exact ⟨List.cons_ne_nil _ _, List.forall_mem_singleton.mpr (by decide)⟩
  obtain ⟨hflag, hlabel⟩ := fileName_keeps_level_iff hlevel
  have hbuilds : ((c.runCell "my_lib" ⟨"/"⟩ cell (some ⟨"/f.c"⟩)).run h).toOption.any (·.1.isBuilt) = true := by
    decide +kernel
  obtain ⟨a, h', hr⟩ : ∃ a h', Runs (c.runCell "my_lib" ⟨"/"⟩ cell (some ⟨"/f.c"⟩)) h (.built a) h' := by
    cases hrun : (c.runCell "my_lib" ⟨"/"⟩ cell (some ⟨"/f.c"⟩)).run h with
    | error e =>
      rw [hrun] at hbuilds
      cases hbuilds
    | ok r =>
      obtain ⟨outcome, h'⟩ := r
      rw [hrun] at hbuilds
      cases outcome with
      | built a => exact ⟨a, h', hrun⟩
      | failed => cases hbuilds
      | missingSource => cases hbuilds
  obtain ⟨hopt, hiff⟩ := hlabel c "my_lib" ⟨"/"⟩ cell (some ⟨"/f.c"⟩) h h' a hr rfl (by decide) (by decide)
    (by decide) (by decide) (by decide) (by decide)
  exact ⟨hlevel, hkept, hflag.mpr hkept, a, h', hr, hopt, hiff.mpr hkept⟩

/-- The bare flag, a capital and a dash are lost; the label of the file is then another level's. -/
theorem bare_flag_is_not_kept :
    Config.isLevelFlag "-O" = true ∧ Level.flagOfTag (Level.tag "-O") = "o" ∧
      Level.flagOfTag (Level.tag "-OS") = "-Os" ∧ Level.flagOfTag (Level.tag "-O2-x") = "-O2x" ∧
      (Labeler.empty.labelOf
        (Compiler.binaryPath "lib" ⟨"out"⟩ ⟨"x86", "-O", "f"⟩)).optimization = some "o" :=
  ⟨Level.isLevelFlag_iff.mpr (by decide), by decide, by decide, by decide, by decide⟩

end CipherCorpus
