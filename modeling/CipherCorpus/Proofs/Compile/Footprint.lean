import CipherCorpus.Compile.Workers
import CipherCorpus.Proofs.Compile.Binaries
import CipherCorpus.Proofs.FileTree.Place

/-!
# What one cell reads and writes

A runner that touches only the file after `-o`, and whose answer and effect depend on nothing else that a
matrix changes, builds a cell from its source and the file at its output.  `Host.VariesAt S h g` says that
`g` differs from `h` at most in the files at `S`; an output is fixed over such hosts when it is resolved to
one place on all of them (`Host.Fixes`), which holds of a name in a directory without a link
(`fixes_child`).  Then

* compiling a cell changes at most the entry that its output names (`compileSource_varies`), and
* on hosts that agree at this entry a compile ends in the same way and leaves the same entry
  (`compileSource_transfers`).
-/

namespace CipherCorpus

open FileTree CipherCorpus.Path Level

variable {h g g' : Host} {S S' : Key → Prop} {p : Path} {k : Key}

/-! ## Names of sources -/

theorem Path.notMem_of_fileName? {n : String} (hp : p.fileName? = some n) : '/' ∉ n.toList := by
  unfold fileName? at hp
  split at hp
  · cases hp
  · next last more hs =>
    split at hp
    · cases hp
    · cases hp
      rw [String.toList_ofList]
      have hm : last ∈ p.pieces.reverse :=
        (trimFiller_suffix p.pieces.reverse).subset (show last ∈ p.significant from hs ▸ List.mem_cons_self)
      exact Text.notMem_of_mem_splitOn (List.mem_reverse.mp hm)

namespace Sources

/-- The name of a candidate holds the function and has one of two endings. -/
theorem of_mem_tiers {function name : List Char} {accepts : List Char → Bool}
    (ha : accepts ∈ tiers function) (h : accepts name = true) :
    (∃ a b, name = a ++ function ++ b) ∧ ∃ stem, name = stem ++ ".c".toList ∨
      name = stem ++ ".cpp".toList := by
  have hending : ∀ ending : List Char, (Text.occursIn function name && ending.isSuffixOf name) = true →
      (∃ a b, name = a ++ function ++ b) ∧ ∃ stem, name = stem ++ ending := by
    intro ending h
    obtain ⟨ho, hs⟩ := Bool.and_eq_true_iff.mp h
    obtain ⟨stem, hs⟩ := List.isSuffixOf_iff_suffix.mp hs
    exact ⟨(Text.occursIn_iff _ _).mp ho, stem, hs.symm⟩
  simp only [tiers, List.mem_cons, List.not_mem_nil, or_false] at ha
  rcases ha with rfl | rfl | rfl | rfl
  · rw [beq_iff_eq] at h
    exact ⟨⟨[], _, h⟩, function, Or.inl h⟩
  · rw [beq_iff_eq] at h
    exact ⟨⟨[], _, h⟩, function, Or.inr h⟩
  · obtain ⟨hf, stem, hs⟩ := hending _ h
    exact ⟨hf, stem, Or.inl hs⟩
  · obtain ⟨hf, stem, hs⟩ := hending _ h
    exact ⟨hf, stem, Or.inr hs⟩

theorem exists_name_of_find? {t : FileTree} {cwd : Key} {directory : Path} {function : String}
    (h : find? t cwd directory function = some p) : ∃ name, p.fileName? = some name ∧
      (∃ a b, name.toList = a ++ function.toList ++ b) ∧ ∃ stem, name.toList = stem ++ ".c".toList ∨
        name.toList = stem ++ ".cpp".toList := by
  obtain ⟨accepts, ha, hl⟩ := List.exists_of_findSome?_eq_some h
  have hm : nameMatches accepts p = true := (List.mem_filter.mp (least_mem hl)).2
  unfold nameMatches at hm
  cases hn : p.fileName? with
  | none =>
    rw [hn] at hm
    cases hm
  | some name =>
    rw [hn] at hm
    exact ⟨name, rfl, of_mem_tiers ha hm⟩

/-- A function with a separator has no source. -/
theorem notMem_of_find? {t : FileTree} {cwd : Key} {directory : Path} {function : String}
    (h : find? t cwd directory function = some p) : '/' ∉ function.toList := by
  obtain ⟨name, hn, ⟨a, b, hname⟩, -⟩ := exists_name_of_find? h
  intro hf
  refine notMem_of_fileName? hn ?_
  rw [hname]
  simp [hf]

theorem isFileArgument_of_find? {t : FileTree} {cwd : Key} {directory : Path} {function : String}
    (h : find? t cwd directory function = some p) : Compiler.IsFileArgument p := by
  obtain ⟨name, hn, -, stem, hname⟩ := exists_name_of_find? h
  obtain ⟨text⟩ := p
  refine ⟨?_, ?_⟩
  · rintro rfl
    cases hn
  · rintro rfl
    have ho : (Path.mk "-o").fileName? = some "-o" := by decide
    obtain rfl := Option.some.inj (ho.symm.trans hn)
    have hlast : "-o".toList.getLast? = some 'o' := by decide
    rcases hname with he | he
    · rw [he, List.getLast?_append_of_ne_nil _ (by decide)] at hlast
      exact absurd hlast (by decide)
    · rw [he, List.getLast?_append_of_ne_nil _ (by decide)] at hlast
      exact absurd hlast (by decide)

end Sources

/-! ## Hosts that differ in some files -/

namespace Host

/-- The path is resolved to this place, whatever is there. -/
def Names (h : Host) (p : Path) (k : Key) : Prop :=
  ∃ place, h.files.resolve h.cwd true p = .ok place ∧ place.key = k

/-- `g` differs from `h` in files at `S` at most, apart from clocks and traces. -/
structure VariesAt (S : Key → Prop) (h g : Host) : Prop where
  cwd : g.cwd = h.cwd
  environment : g.environment = h.environment
  files : ∀ k, ¬ S k → g.files.get? k = h.files.get? k
  links : SameLinks h.files g.files
  directories : ∀ k, g.files.get? k = some .directory ↔ h.files.get? k = some .directory

theorem VariesAt.refl (S : Key → Prop) (h : Host) : h.VariesAt S h :=
  ⟨rfl, rfl, fun _ _ => rfl, .refl _, fun _ => Iff.rfl⟩

theorem VariesAt.trans {h' : Host} (h1 : h.VariesAt S g) (h2 : g.VariesAt S h') : h.VariesAt S h' :=
  ⟨h2.cwd.trans h1.cwd, h2.environment.trans h1.environment,
    fun k hk => (h2.files k hk).trans (h1.files k hk), h1.links.trans h2.links,
    fun k => (h2.directories k).trans (h1.directories k)⟩

theorem VariesAt.mono (hv : h.VariesAt S g) (hs : ∀ k, S k → S' k) : h.VariesAt S' g :=
  ⟨hv.cwd, hv.environment, fun k hk => hv.files k fun e => hk (hs k e), hv.links, hv.directories⟩

theorem VariesAt.of_files {h' : Host} (hv : h.VariesAt S g) (hf : h'.files = g.files) (hc : h'.cwd = g.cwd)
    (he : h'.environment = g.environment) : h.VariesAt S h' :=
  ⟨hc.trans hv.cwd, he.trans hv.environment, hf ▸ hv.files, hf ▸ hv.links, hf ▸ hv.directories⟩

/-- On all hosts that differ from `h` in files at `S`, the path is resolved to one place. -/
def Fixes (h : Host) (S : Key → Prop) (p : Path) : Prop :=
  ∀ g, h.VariesAt S g → ∀ pl, g.files.resolve g.cwd true p = .ok pl ↔
    ∃ k, h.Names p k ∧ pl = g.files.placeAt k

theorem Fixes.names_iff (hf : h.Fixes S p) (hv : h.VariesAt S g) : g.Names p k ↔ h.Names p k := by
  unfold Names
  simp only [hf g hv]
  constructor
  · rintro ⟨pl, ⟨j, hj, rfl⟩, rfl⟩
    rw [placeAt_key]
    exact hj
  · exact fun hk => ⟨_, ⟨k, hk, rfl⟩, placeAt_key ..⟩

/-- Where the entry at the output is the same, what is seen there is the same. -/
theorem Fixes.stat_iff (hf : h.Fixes S p) (hv : h.VariesAt S g) (hv' : h.VariesAt S g')
    (he : ∀ k, h.Names p k → g'.files.get? k = g.files.get? k) {r : Key × Entry} :
    g'.files.stat g'.cwd p = .ok r ↔ g.files.stat g.cwd p = .ok r := by
  obtain ⟨key, e⟩ := r
  rw [FileTree.stat_iff, FileTree.stat_iff, hf g hv, hf g' hv']
  refine exists_congr fun k => and_congr_right fun hk => ?_
  unfold placeAt
  rw [he k hk]

end Host

/-! ## A name in a directory -/

/-- A name that was walked can be looked up. -/
theorem FileTree.Walks.looksUp {t : FileTree} {f : Bool} {m : Nat} {d : Key} {n : String} {pl : Place}
    (hn : IsEntryName n.toList) (hw : Walks t f m d [n] pl) : LooksUp n := by
  have h1 : n ≠ "." := fun he => hn.2.2.1 (by rw [he]; rfl)
  have h2 : n ≠ ".." := fun he => hn.2.2.2 (by rw [he]; rfl)
  cases hw with
  | place hw => exact (show Scans t f d ([] ++ [n]) _ from hw).looksUp_last h1 h2
  | link hw _ =>
    cases hw with
    | here => exact absurd rfl h1
    | up => exact absurd rfl h2
    | directory hx _ _ => exact hx
    | link hx _ _ => exact hx

namespace Host

section Child

variable {dir : Path} {n : String} {d : Key} (hn : IsEntryName n.toList)
  (hlink : ∀ key target, h.files.linkStat h.cwd (dir.child n) ≠ .ok (key, .link target))

theorem VariesAt.leads_iff (hv : h.VariesAt S g) :
    Leads g.files g.cwd dir d ↔ Leads h.files h.cwd dir d := by
  rw [hv.cwd]
  exact ⟨fun hl => hl.grow (fun k => (hv.directories k).mp) fun k t => (hv.links k t).mp,
    fun hl => hl.grow (fun k => (hv.directories k).mpr) fun k t => (hv.links k t).mpr⟩

include hn hlink

theorem VariesAt.no_link (hv : h.VariesAt S g) (hfit : ZeroFree dir.text ∧ IsFileName n)
    (hl : Leads h.files h.cwd dir d) (target : String) : g.files.get? (d ++ [n]) ≠ some (.link target) := by
  intro hg
  obtain ⟨m, hm, hw⟩ := hl
  have hstep := isStep_of_isEntryName hn
  refine hlink (d ++ [n]) target (linkStat_iff.mpr (resolve_iff.mpr ⟨⟨(zeroFree_child hn).mpr
    ⟨hfit.1, hfit.2.zeroFree⟩, toList_child_ne_nil dir hn⟩, m, hm, ?_⟩))
  rw [startOf_child _ _ hstep, walkNames_child _ hstep, pathNames_child _ hstep]
  exact hw.append (by simp) (.lastLink hfit.2.looksUp ((hv.links _ _).mp hg) rfl)

/-- While only files change, a name in a directory is resolved where the directory is. -/
theorem VariesAt.resolve_child_iff (hv : h.VariesAt S g) {pl : Place} :
    g.files.resolve g.cwd true (dir.child n) = .ok pl ↔ (ZeroFree dir.text ∧ IsFileName n) ∧
      ∃ d, Leads h.files h.cwd dir d ∧ pl = g.files.placeAt (d ++ [n]) := by
  constructor
  · intro hr
    obtain ⟨⟨hzero, -⟩, -⟩ := resolve_iff.mp hr
    obtain ⟨hdir, hname⟩ := (zeroFree_child hn).mp hzero
    obtain ⟨d, more, hl, hw⟩ := leads_of_resolve (List.forall_mem_singleton.mpr hn) (by simp)
      (show g.files.resolve g.cwd true (Archive.under dir [n]) = _ from hr)
    have hfit : ZeroFree dir.text ∧ IsFileName n := ⟨hdir, hn, (hw.looksUp hn).size, hname⟩
    have hl' := hv.leads_iff.mp hl
    obtain ⟨-, hpl⟩ := (FileTree.resolve_child_iff hl hn (hv.no_link hn hlink hfit hl')).mp hr
    exact ⟨hfit, d, hl', hpl⟩
  · rintro ⟨hfit, d, hl, rfl⟩
    exact (FileTree.resolve_child_iff (hv.leads_iff.mpr hl) hn (hv.no_link hn hlink hfit hl)).mpr
      ⟨hfit, rfl⟩

theorem names_child_iff : h.Names (dir.child n) k ↔
    (ZeroFree dir.text ∧ IsFileName n) ∧ ∃ d, Leads h.files h.cwd dir d ∧ k = d ++ [n] := by
  unfold Names
  simp only [(VariesAt.refl (fun _ => False) h).resolve_child_iff hn hlink]
  constructor
  · rintro ⟨pl, ⟨hfit, d, hl, rfl⟩, rfl⟩
    exact ⟨hfit, d, hl, placeAt_key ..⟩
  · rintro ⟨hfit, d, hl, rfl⟩
    exact ⟨_, ⟨hfit, d, hl, rfl⟩, placeAt_key ..⟩

/-- A name in a directory is fixed while only files change, if no link stands there. -/
theorem fixes_child (S : Key → Prop) : h.Fixes S (dir.child n) := by
  intro g hv pl
  rw [hv.resolve_child_iff hn hlink]
  simp only [names_child_iff hn hlink]
  constructor
  · rintro ⟨hfit, d, hl, rfl⟩
    exact ⟨_, ⟨hfit, d, hl, rfl⟩, rfl⟩
  · rintro ⟨k, ⟨hfit, d, hl, rfl⟩, rfl⟩
    exact ⟨hfit, d, hl, rfl⟩

end Child

end Host

/-! ## Runners -/

/-- `g` differs from `h` at most in the file that a path names: no directory and no link is made or
removed. -/
structure Host.TouchesFile (h : Host) (p : Path) (g : Host) : Prop extends h.TouchesOnly p g where
  environment : g.environment = h.environment
  directories : ∀ k, g.files.get? k = some .directory ↔ h.files.get? k = some .directory

/-- A runner touches only the file that a call names after `-o`. -/
def Runner.TouchesFile (run : Runner) : Prop :=
  ∀ call h answer h', Runs (run call) h answer h' → h.TouchesFile call.output h'

namespace Compiler

variable {c : Compiler} {library : String} {outputDir : Path} {cell : Cell} {source : Path}
  {jobs : List Job} {e : Host}

/-- While only the files at `S` are others than on `h`, the answer to a call of these jobs and what it
leaves at its output depend on the call and on what was at the output.  Everything else that a call may
read, its source files first, is not at `S`. -/
def DependsOnOutput (c : Compiler) (library : String) (outputDir : Path) (jobs : List Job) (h : Host)
    (S : Key → Prop) : Prop :=
  ∀ cell source call, (cell, some source) ∈ jobs → c.Asks library outputDir cell source call →
    ∀ g g' answer e, h.VariesAt S g → h.VariesAt S g' →
      (∀ k, h.Names (binaryPath library outputDir cell) k → g'.files.get? k = g.files.get? k) →
      Runs (c.runner call) g answer e → ∃ e', Runs (c.runner call) g' answer e' ∧
        ∀ k, h.Names (binaryPath library outputDir cell) k → e'.files.get? k = e.files.get? k

/-! ## Measuring a binary -/

theorem sizeOf?_congr (hs : ∀ r, g'.files.stat g'.cwd p = .ok r ↔ g.files.stat g.cwd p = .ok r) :
    sizeOf? g' p = sizeOf? g p := by
  unfold sizeOf?
  cases hg : g.files.stat g.cwd p with
  | ok r => rw [(hs r).mpr hg]
  | error e =>
    cases hg' : g'.files.stat g'.cwd p with
    | ok r =>
      rw [(hs r).mp hg'] at hg
      cases hg
    | error e' => rfl

theorem hashed_congr (hs : ∀ r, g'.files.stat g'.cwd p = .ok r ↔ g.files.stat g.cwd p = .ok r)
    (size : UInt64) : c.hashed library cell source p size g' = c.hashed library cell source p size g := by
  unfold hashed md5Of Host.read FileTree.read openRead
  cases hg : g.files.stat g.cwd p with
  | ok r => rw [(hs r).mpr hg]
  | error e =>
    cases hg' : g'.files.stat g'.cwd p with
    | ok r =>
      rw [(hs r).mp hg'] at hg
      cases hg
    | error e' => rfl

/-- The outcome of a cell whose compile succeeded. -/
def found (c : Compiler) (library : String) (cell : Cell) (source binary : Path) (h : Host) : CellResult :=
  match sizeOf? h binary with
  | none => .failed
  | some size => c.hashed library cell source binary size h

theorem found_congr (hs : ∀ r, g'.files.stat g'.cwd p = .ok r ↔ g.files.stat g.cwd p = .ok r) :
    c.found library cell source p g' = c.found library cell source p g := by
  unfold found
  rw [sizeOf?_congr hs]
  split
  · rfl
  · exact hashed_congr hs _

theorem runs_measure_iff_found {binary : Path} {outcome : CellResult} :
    Runs (c.measure library cell source binary) h outcome g ↔
      g = h ∧ outcome = c.found library cell source binary h := by
  rw [runs_measure]
  unfold found hashed
  cases sizeOf? h binary with
  | none => exact Iff.rfl
  | some size =>
    cases md5Of h binary with
    | error e => exact Iff.rfl
    | ok md5 => exact Iff.rfl

/-- A cell without a source is skipped, any other is compiled and measured. -/
theorem runs_runCell {source? : Option Path} {outcome : CellResult} :
    Runs (c.runCell library outputDir cell source?) h outcome g ↔
      (source? = none ∧ outcome = .missingSource ∧ g = h) ∨
      ∃ source compiled, source? = some source ∧
        Runs (c.compileSource source (binaryPath library outputDir cell) cell.architecture
          cell.optimization c.options.compiler []) h compiled g ∧
        outcome = if compiled then c.found library cell source (binaryPath library outputDir cell) g
          else .failed := by
  unfold runCell
  cases source? with
  | none => simp
  | some source =>
    simp only [runs_bind, reduceCtorEq, false_and, false_or, Option.some.injEq]
    constructor
    · rintro ⟨compiled, g1, hc, hr⟩
      cases compiled with
      | false =>
        obtain ⟨rfl, rfl⟩ := runs_pure.mp hr
        exact ⟨source, false, rfl, hc, (if_neg Bool.false_ne_true).symm⟩
      | true =>
        obtain ⟨rfl, ho⟩ := runs_measure_iff_found.mp hr
        exact ⟨source, true, rfl, hc, by rw [if_pos rfl, ho]⟩
    · rintro ⟨source', compiled, rfl, hc, ho⟩
      refine ⟨compiled, g, hc, ?_⟩
      cases compiled with
      | false => exact runs_pure.mpr ⟨by rw [ho, if_neg Bool.false_ne_true], rfl⟩
      | true => exact runs_measure_iff_found.mpr ⟨rfl, by rw [ho, if_pos rfl]⟩

/-! ## One cell -/

/-- The paths of binaries end in `.bin`. -/
theorem getLast?_binaryPath (library : String) (outputDir : Path) (cell : Cell) :
    (binaryPath library outputDir cell).text.toList.getLast? = some 'n' := by
  obtain ⟨pre, kept, -, -, hpath⟩ := exists_binaryPath_eq library outputDir
  have hname : entryName kept cell = kept ++ '_' :: (cell.function.toList ++ '_' ::
      (cell.architecture.toList ++ '_' :: (tag cell.optimization).toList)) ++ ".bin".toList := by
    unfold entryName
    simp
  rw [hpath, String.toList_ofList, hname, ← List.append_assoc,
    List.getLast?_append_of_ne_nil _ (by decide)]
  rfl

theorem isFileArgument_binaryPath (library : String) (outputDir : Path) (cell : Cell) :
    IsFileArgument (binaryPath library outputDir cell) := by
  have hlast := getLast?_binaryPath library outputDir cell
  refine ⟨fun he => ?_, fun he => ?_⟩
  · rw [he] at hlast
    cases hlast
  · rw [he] at hlast
    exact absurd hlast (by decide)

section OneCell

variable (ht : c.runner.TouchesFile) (hs : IsFileArgument source)
  (hf : h.Fixes S (binaryPath library outputDir cell))
  (hin : ∀ k, h.Names (binaryPath library outputDir cell) k → S k)
  {compiled : Bool}

include ht hs hf hin in
/-- A compile changes at most the entry that its output names. -/
theorem compileSource_varies (hv : h.VariesAt S g)
    (hr : Runs (c.compileSource source (binaryPath library outputDir cell) cell.architecture
      cell.optimization c.options.compiler []) g compiled e) :
    h.VariesAt S e ∧
      ∀ k, ¬ h.Names (binaryPath library outputDir cell) k → e.files.get? k = g.files.get? k := by
  rcases runs_compileSource.mp hr with ⟨-, -, rfl⟩ | ⟨profile, answer, e1, -, hcall, -, rfl⟩
  · exact ⟨hv, fun _ _ => rfl⟩
  · have htouch := ht _ _ _ _ hcall
    rw [output_callFor profile _ _ hs (isFileArgument_binaryPath library outputDir cell)] at htouch
    have hentry : ∀ k, ¬ h.Names (binaryPath library outputDir cell) k →
        e1.files.get? k = g.files.get? k := fun k hk => by
      by_contra hne
      exact hk ((hf.names_iff hv).mp (htouch.entry k hne))
    have hv1 : h.VariesAt S e1 := hv.trans ⟨htouch.cwd, htouch.environment,
      fun k hk => hentry k fun h => hk (hin k h), htouch.links, htouch.directories⟩
    exact ⟨hv1.of_files rfl rfl rfl, hentry⟩

/-- On hosts that agree at its output a compile ends in the same way. -/
theorem compileSource_transfers (hd : c.DependsOnOutput library outputDir jobs h S)
    (hj : (cell, some source) ∈ jobs) (hv : h.VariesAt S g) (hv' : h.VariesAt S g')
    (he : ∀ k, h.Names (binaryPath library outputDir cell) k → g'.files.get? k = g.files.get? k)
    (hr : Runs (c.compileSource source (binaryPath library outputDir cell) cell.architecture
      cell.optimization c.options.compiler []) g compiled e) :
    ∃ e', Runs (c.compileSource source (binaryPath library outputDir cell) cell.architecture
        cell.optimization c.options.compiler []) g' compiled e' ∧
      ∀ k, h.Names (binaryPath library outputDir cell) k → e'.files.get? k = e.files.get? k := by
  rcases runs_compileSource.mp hr with ⟨hnone, rfl, rfl⟩ | ⟨profile, answer, e1, hp, hcall, rfl, rfl⟩
  · exact ⟨g', runs_compileSource.mpr (Or.inl ⟨hnone, rfl, rfl⟩), he⟩
  · obtain ⟨e', hcall', he'⟩ := hd cell source _ hj (asks_callFor hp source) _ g' answer e1 hv hv' he hcall
    exact ⟨_, runs_compileSource.mpr (Or.inr ⟨profile, answer, e', hp, hcall', rfl, rfl⟩), he'⟩

end OneCell

end Compiler

end CipherCorpus
