import CipherCorpus.Proofs.Compile.Schedules
import CipherCorpus.Proofs.Sources.Beside
import CipherCorpus.Proofs.Sources.Choice

/-!
# A matrix on two machines

Two machines are near each other when they are the same but for what failed calls leave in the downloads and
in one staging directory (`Near`).  A compiler that overlooks what lies there builds the same cells on both,
and the machines stay near each other (`runMatrix_step`).  On one machine alone this says what a matrix keeps.
-/

namespace CipherCorpus

open FileTree CipherCorpus.Path
open Archive (under)
open SourceCache (AgreeOff)

/-! ## Tools -/

/-- A runner that writes its output only, keeps the file tree sound and leaves the settings alone. -/
structure Runner.Tame (run : Runner) : Prop where
  touches : run.TouchesFile
  tree : ∀ {call h answer h'}, Runs (run call) h answer h' → h.files.WellFormed →
    h.files.get? (startOf h.cwd call.output.text.toList) = some .directory → h'.files.WellFormed
  threadLimit : ∀ {call h answer h'}, Runs (run call) h answer h' → h'.threadLimit = h.threadLimit

/-- Where machines differ at `S` at most and the source and the output of a cell are the same, its compile
is answered the same and leaves the same, but for `S`. -/
def Compiler.Overlooks (c : Compiler) (S : Key → Prop) : Prop :=
  ∀ ⦃library outputDir cell source call⦄, Compiler.IsFileArgument source → c.Asks library outputDir cell source call →
    ∀ ⦃h g answer answer' h' g'⦄, h.SameSettings g → AgreeOff S h.files g.files →
      g.files.stat g.cwd source = h.files.stat h.cwd source →
      g.files.resolve g.cwd true (Compiler.binaryPath library outputDir cell) =
        h.files.resolve h.cwd true (Compiler.binaryPath library outputDir cell) →
      Runs (c.runner call) h answer h' → Runs (c.runner call) g answer' g' →
      answer' = answer ∧ AgreeOff S h'.files g'.files

namespace SourceCache

variable {root : Path} {top home k : Key} {gone n m : String} {x : Key} {h g h' g' h2 g2 : Host}
  {Z Z' : Key → Prop} {t t' : FileTree} {p : Path}

/-! ## Machines near each other -/

/-- In the downloads, or where failed calls for a tree leave something. -/
def Leftover (home : Key) (gone : String) (k : Key) : Prop := k = home ++ [".downloads"] ∨ AtResidue home gone k

theorem Leftover.isPrefix (hk : Leftover home gone k) : home <+: k := Residue.isPrefix (Or.inr hk)

theorem not_leftover_cached (hn : IsCacheName n) (home x : Key) (gone : String) :
    ¬ Leftover home gone (home ++ n :: x) := by
  rintro (he | hres)
  · exact (cachedKey_ne hn home x).2.1 he
  · exact not_atResidue_cached hn home x gone hres

/-- The root is in use on both machines, and they are the same but for leftovers. -/
structure Near (root : Path) (top : Key) (gone : String) (h g : Host) : Prop where
  settings : h.SameSettings g
  left : Rooted root h.cwd top h.files
  right : Rooted root g.cwd top g.files
  same : AgreeOff (Leftover (sourcesIn top) gone) h.files g.files

/-- Nothing but the entries at `Z` has changed on a machine. -/
structure ChangesAt (Z : Key → Prop) (h h' : Host) : Prop where
  settings : h.SameSettings h'
  off : AgreeOff Z h.files h'.files

theorem ChangesAt.refl (Z : Key → Prop) (h : Host) : ChangesAt Z h h := ⟨.refl h, fun _ _ => rfl⟩

theorem ChangesAt.trans (hc : ChangesAt Z h h') (hc' : ChangesAt Z h' h2) : ChangesAt Z h h2 :=
  ⟨hc.settings.trans hc'.settings, hc.off.trans hc'.off⟩

theorem ChangesAt.mono (hc : ChangesAt Z h h') (hZ : ∀ k, Z k → Z' k) : ChangesAt Z' h h' :=
  ⟨hc.settings, hc.off.mono hZ⟩

theorem ChangesAt.traced (hc : ChangesAt Z h h') (t : Trace) : ChangesAt Z h { h' with trace := t } :=
  ⟨⟨hc.settings.cwd, hc.settings.environment, hc.settings.threadLimit⟩, hc.off⟩

/-- Machines `h` and `g` have become `h'` and `g'`, which are near each other. -/
structure Step (root : Path) (top : Key) (gone : String) (Z : Key → Prop) (h g h' g' : Host) : Prop where
  near : Near root top gone h' g'
  left : ChangesAt Z h h'
  right : ChangesAt Z g g'

theorem Step.trans (hs : Step root top gone Z h g h' g') (hs' : Step root top gone Z h' g' h2 g2) :
    Step root top gone Z h g h2 g2 := ⟨hs'.near, hs.left.trans hs'.left, hs.right.trans hs'.right⟩

theorem Step.mono (hs : Step root top gone Z h g h' g') (hZ : ∀ k, Z k → Z' k) :
    Step root top gone Z' h g h' g' := ⟨hs.near, hs.left.mono hZ, hs.right.mono hZ⟩

/-- A path is a file at or in a cached tree. -/
def InTree (root : Path) (top : Key) (n : String) (t : FileTree) (p : Path) : Prop :=
  ∃ x body mode, t.get? (sourcesIn top ++ n :: x) = some (.file body mode) ∧
    p = under ((root.child "sources").child n) x

theorem InTree.of_agree (hi : InTree root top n t p) (hag : AgreeOff Z t t')
    (hZ : ∀ k, Z k → ¬ sourcesIn top <+: k) : InTree root top n t' p := by
  obtain ⟨x, body, mode, hg, rfl⟩ := hi
  exact ⟨x, body, mode, (hag _ fun hk => hZ _ hk (List.prefix_append _ _)).trans hg, rfl⟩

namespace Near

theorem refl (hr : Rooted root h.cwd top h.files) : Near root top gone h h :=
  ⟨.refl h, hr, hr, fun _ _ => rfl⟩

variable (hn : Near root top gone h g)
include hn

/-- Traces make no difference. -/
theorem traced (s t : Trace) : Near root top gone { h with trace := s } { g with trace := t } :=
  ⟨⟨hn.settings.cwd, hn.settings.environment, hn.settings.threadLimit⟩, hn.left, hn.right, hn.same⟩

theorem get?_outside (hk : ¬ sourcesIn top <+: k) : g.files.get? k = h.files.get? k :=
  hn.same k fun hl => hk hl.isPrefix

/-- A file of a cached tree is the same. -/
theorem stat_source (hc : IsCacheName n) (hi : InTree root top n h.files p) :
    g.files.stat g.cwd p = h.files.stat h.cwd p := by
  obtain ⟨x, body, mode, hg, rfl⟩ := hi
  have hg' := (hn.same _ (not_leftover_cached hc _ x gone)).trans hg
  have hfound : ∀ {h : Host}, Rooted root h.cwd top h.files →
      h.files.get? (sourcesIn top ++ n :: x) = some (.file body mode) →
      h.files.stat h.cwd (under ((root.child "sources").child n) x) =
        .ok (sourcesIn top ++ n :: x, .file body mode) := by
    intro h hr hg
    have hhome : h.files.get? (sourcesIn top) = some .directory := by
      by_contra hd
      cases hg.symm.trans (hr.tree.get?_append hd (by simp))
    exact hr.tree.stat_under ((zeroFree_child isFileName_sources.entry).mpr ⟨hr.zeroFree, by decide⟩)
      (hr.leads.toLeads.child isFileName_sources hhome) hg
  rw [hfound hn.left hg, hfound hn.right hg']

/-- In a cached tree the same sources are found. -/
theorem find?_eq (hc : IsCacheName n) (hthere : h.files.get? (sourcesIn top ++ [n]) ≠ none) (function : String) :
    Sources.find? g.files g.cwd ((root.child "sources").child n) function =
      Sources.find? h.files h.cwd ((root.child "sources").child n) function ∧
    ∀ p, Sources.find? h.files h.cwd ((root.child "sources").child n) function = some p →
      InTree root top n h.files p := by
  obtain ⟨e, he⟩ := Option.ne_none_iff_exists'.mp hthere
  have hsame : ∀ x, g.files.get? (sourcesIn top ++ [n] ++ x) = h.files.get? (sourcesIn top ++ [n] ++ x) := by
    intro x
    rw [List.append_assoc]
    exact hn.same _ (not_leftover_cached hc _ x gone)
  have he' : g.files.get? (sourcesIn top ++ [n]) = some e := (hn.same _ (not_leftover_cached hc _ [] gone)).trans he
  have hlink : ∀ target, e ≠ .link target := by
    rintro target rfl
    exact hn.left.noLink _ (.source n) target he
  have hstat : ∀ {h : Host}, Rooted root h.cwd top h.files → h.files.get? (sourcesIn top ++ [n]) = some e →
      h.files.linkStat h.cwd ((root.child "sources").child n) = .ok (sourcesIn top ++ [n], e) := by
    intro h hr hg
    have hhome : h.files.get? (sourcesIn top) = some .directory := hr.tree.parent _ _ (by rw [hg]; simp)
    exact (linkStat_child_iff (hr.leads.toLeads.child isFileName_sources hhome) hc.1 (hr.noLink _ (.source n))).mpr
      ⟨⟨(zeroFree_child isFileName_sources.entry).mpr ⟨hr.zeroFree, by decide⟩,
        hr.tree.name _ n (by rw [hg]; simp)⟩, rfl, hg⟩
  have hleft := hstat hn.left he
  refine ⟨Sources.find?_congr hn.left.tree hn.right.tree hleft (hstat hn.right he') hlink he hsame function,
    fun p hp => ?_⟩
  obtain ⟨x, body, mode, hx, rfl⟩ := (mem_regularFiles_iff hn.left.tree hleft he hlink).mp (Sources.mem_of_find? hp)
  rw [List.append_assoc] at hx
  exact ⟨x, body, mode, hx, rfl⟩

/-- One entry outside of the sources has become the same on both machines. -/
theorem step_of_entry (hne : m :: x ≠ ["binaries"]) (hw : h'.files.WellFormed)
    (hw' : g'.files.WellFormed) (hc : ChangesAt (· = top ++ m :: x) h h') (hc' : ChangesAt (· = top ++ m :: x) g g')
    (hlink : ∀ target, h'.files.get? (top ++ m :: x) ≠ some (.link target))
    (hsame : g'.files.get? (top ++ m :: x) = h'.files.get? (top ++ m :: x)) :
    Step root top gone (· = top ++ m :: x) h g h' g' where
  near := {
    settings := (hc.settings.symm.trans hn.settings).trans hc'.settings
    left := hc.settings.cwd ▸ hn.left.of_entry hne hw hc.off hlink
    right := hc'.settings.cwd ▸ hn.right.of_entry hne hw' hc'.off (by rw [hsame]; exact hlink)
    same := fun k hk => by
      by_cases he : k = top ++ m :: x
      · exact he ▸ hsame
      · rw [hc.off k he, hc'.off k he]
        exact hn.same k hk }
  left := hc
  right := hc'

/-- The same was put at one place on both machines, or nothing was done. -/
theorem step_of_put {s t : FileTree} (hne : m :: x ≠ ["binaries"]) (hw : s.WellFormed) (hw' : t.WellFormed)
    (hput : SamePut h.files g.files (top ++ m :: x) s t) :
    Step root top gone (· = top ++ m :: x) h g { h with files := s } { g with files := t } := by
  rcases hput with ⟨rfl, rfl⟩ | ⟨e, he, rfl, rfl⟩
  · exact ⟨hn, .refl _ _, .refl _ _⟩
  · have hself := fun u => get?_put_self u e (show top ++ m :: x ≠ [] by simp)
    refine hn.step_of_entry hne hw hw' ⟨⟨rfl, rfl, rfl⟩, fun k hk => get?_put_ne _ _ hk⟩
      ⟨⟨rfl, rfl, rfl⟩, fun k hk => get?_put_ne _ _ hk⟩ (fun target hg => ?_) ((hself _).trans (hself _).symm)
    exact he target (Option.some.inj ((hself _).symm.trans hg))

end Near

end SourceCache

open SourceCache

namespace Compiler

variable {c : Compiler} {root : Path} {top : Key} {gone n library : String} {cell : Cell} {source : Path}
  {h g h' g' : Host}

/-- Where the binaries of a library go. -/
abbrev outputIn (root : Path) (library : String) : Path := (root.child "binaries").child library

/-- What lies in the binaries does not lie in the sources. -/
theorem not_sources_of_binaries {k : Key} (hk : binariesIn top <+: k) : ¬ sourcesIn top <+: k := by
  obtain ⟨x, rfl⟩ := hk
  rw [List.append_assoc, List.prefix_append_right_inj, List.singleton_append, List.cons_prefix_cons]
  exact fun hp => absurd hp.1 (by decide)

theorem binaries_of_below {k : Key} (hk : isBelow (libraryIn top library) k = true) : binariesIn top <+: k := by
  obtain ⟨x, -, rfl⟩ := isBelow_iff.mp hk
  exact (prefix_libraryIn top library).trans (List.prefix_append _ _)

theorem binaries_above (top : Key) (library n : String) : binariesIn top <+: libraryIn top library ++ [n] :=
  (prefix_libraryIn top library).trans (List.prefix_append _ _)

/-- The directory of a library is there on both of two machines near each other. -/
theorem directory_right (hnear : Near root top gone h g)
    (hd : h.files.get? (libraryIn top library) = some .directory) :
    g.files.get? (libraryIn top library) = some .directory :=
  (hnear.get?_outside (not_sources_of_binaries (prefix_libraryIn top library))).trans hd

/-- On machines near each other an output leads to the same. -/
theorem resolve_output (hnear : Near root top gone h g)
    (hd : h.files.get? (libraryIn top library) = some .directory) (hn : IsEntryName n.toList) :
    g.files.resolve g.cwd true ((outputIn root library).child n) =
      h.files.resolve h.cwd true ((outputIn root library).child n) := by
  have hl' := hnear.right.leads_library (directory_right hnear hd)
  rw [hnear.settings.cwd] at hl' ⊢
  exact resolve_child_congr (hnear.left.leads_library hd) hl' hn (hnear.left.noLink _ (.inLibrary top library n))
    (hnear.get?_outside (not_sources_of_binaries (binaries_above top library n)))

/-! ## One cell -/

/-- A call for an output in the directory of a library changes the entry of this name at most. -/
theorem changesAt_of_call {run : Runner} {call : Invocation} {answer : Except ToolError ToolOutput}
    (ht : run.Tame) (hr : Rooted root h.cwd top h.files)
    (hd : h.files.get? (libraryIn top library) = some .directory) (hn : IsEntryName n.toList)
    (hout : call.output = (outputIn root library).child n) (hrun : Runs (run call) h answer h') :
    ChangesAt (· = libraryIn top library ++ [n]) h h' ∧ h'.files.WellFormed ∧
      ∀ target, h'.files.get? (libraryIn top library ++ [n]) ≠ some (.link target) := by
  have htouch := ht.touches call h answer h' hrun
  have hlink := hr.noLink _ (.inLibrary top library n)
  have hstart : h.files.get? (startOf h.cwd call.output.text.toList) = some .directory := by
    rw [hout, startOf_child _ _ (isStep_of_isEntryName hn)]
    exact hr.start_library (hr.nameless_or_isEntryName hd)
  refine ⟨⟨⟨htouch.cwd, htouch.environment, ht.threadLimit hrun⟩, fun k hk => ?_⟩,
    ht.tree hrun hr.tree hstart, fun target hg => hlink target ((htouch.links _ target).mp hg)⟩
  by_contra hne
  obtain ⟨place, hplace, rfl⟩ := htouch.entry k hne
  rw [hout, FileTree.resolve_child_iff (hr.leads_library hd) hn hlink] at hplace
  exact hk (hplace.2 ▸ placeAt_key ..)

/-- A cell of a library whose source lies in a cached tree, and whose output is a name. -/
structure IsJob (root : Path) (top : Key) (n library : String) (t : FileTree) (cell : Cell) (source : Path) :
    Prop where
  name : IsEntryName (Level.binaryName library cell.function cell.architecture cell.optimization).toList
  argument : IsFileArgument source
  inTree : InTree root top n t source

section OneCell

variable (ht : c.runner.Tame) (hov : c.Overlooks (Leftover (sourcesIn top) gone)) (hnear : Near root top gone h g)
  (hc : IsCacheName n) (hd : h.files.get? (libraryIn top library) = some .directory)
include ht hov hnear hc hd

/-- A compile ends the same. -/
theorem compileSource_step {compiled compiled' : Bool} (hs : IsJob root top n library h.files cell source)
    (hrun : Runs (c.compileSource source (binaryPath library (outputIn root library) cell) cell.architecture
      cell.optimization c.options.compiler []) h compiled h')
    (hrun' : Runs (c.compileSource source (binaryPath library (outputIn root library) cell) cell.architecture
      cell.optimization c.options.compiler []) g compiled' g') :
    compiled' = compiled ∧ Step root top gone (isBelow (libraryIn top library) · = true) h g h' g' := by
  rcases runs_compileSource.mp hrun with ⟨hnone, rfl, rfl⟩ | ⟨profile, answer, h1, hp, hcall, rfl, rfl⟩
  · rcases runs_compileSource.mp hrun' with ⟨-, rfl, rfl⟩ | ⟨_, _, _, hp', -⟩
    · exact ⟨rfl, hnear, .refl _ _, .refl _ _⟩
    · cases hnone.symm.trans hp'
  · rcases runs_compileSource.mp hrun' with ⟨hnone, -⟩ | ⟨profile', answer', g1, hp', hcall', rfl, rfl⟩
    · cases hnone.symm.trans hp
    cases hp.symm.trans hp'
    have hout := output_callFor (c := c) profile cell.optimization c.options.compiler hs.argument
      (isFileArgument_binaryPath library (outputIn root library) cell)
    have hasks : c.Asks library (outputIn root library) cell source _ := asks_callFor hp source
    generalize c.callFor profile cell.optimization c.options.compiler source
      (binaryPath library (outputIn root library) cell) = call at hcall hcall' hout hasks
    obtain ⟨rfl, hsame⟩ := hov hs.argument hasks hnear.settings hnear.same (hnear.stat_source hc hs.inTree)
      (resolve_output hnear hd hs.name) hcall hcall'
    obtain ⟨hat, hw, hlink⟩ := changesAt_of_call ht hnear.left hd hs.name hout hcall
    obtain ⟨hat', hw', -⟩ := changesAt_of_call ht hnear.right (directory_right hnear hd) hs.name hout hcall'
    generalize Level.binaryName library cell.function cell.architecture cell.optimization = name
      at hat hat' hlink
    obtain ⟨x, hx, hkey⟩ := exists_libraryIn_append top library name
    have hbelow : ∀ k, k = libraryIn top library ++ [name] → isBelow (libraryIn top library) k = true := by
      rintro k rfl
      exact isBelow_append (by simp)
    have hentry := hsame (libraryIn top library ++ [name]) fun hk =>
      not_sources_of_binaries (binaries_above top library name) hk.isPrefix
    have hstep : Step root top gone (isBelow (libraryIn top library) · = true) h g h1 g1 := by
      refine Step.mono ?_ hbelow
      rw [hkey] at hat hat' hlink hentry ⊢
      exact hnear.step_of_entry (by simpa using hx) hw hw' hat hat' hlink hentry
    exact ⟨rfl, hstep.near.traced _ _, hstep.left.traced _, hstep.right.traced _⟩

/-- A cell ends the same. -/
theorem runCell_step {source? : Option Path} {outcome outcome' : CellResult}
    (hs : ∀ source, source? = some source → IsJob root top n library h.files cell source)
    (hrun : Runs (c.runCell library (outputIn root library) cell source?) h outcome h')
    (hrun' : Runs (c.runCell library (outputIn root library) cell source?) g outcome' g') :
    outcome' = outcome ∧ Step root top gone (isBelow (libraryIn top library) · = true) h g h' g' := by
  rcases runs_runCell.mp hrun with ⟨rfl, rfl, rfl⟩ | ⟨source, compiled, rfl, hcompile, rfl⟩
  · rcases runs_runCell.mp hrun' with ⟨-, rfl, rfl⟩ | ⟨_, _, he, -⟩
    · exact ⟨rfl, hnear, .refl _ _, .refl _ _⟩
    · cases he
  · rcases runs_runCell.mp hrun' with ⟨he, -⟩ | ⟨source', compiled', he, hcompile', rfl⟩
    · cases he
    cases he
    obtain ⟨rfl, hstep⟩ := compileSource_step ht hov hnear hc hd (hs source rfl) hcompile hcompile'
    refine ⟨?_, hstep⟩
    have hd' : h'.files.get? (libraryIn top library) = some .directory :=
      (hstep.left.off _ (by rw [isBelow_self]; decide)).trans hd
    have hstat : g'.files.stat g'.cwd (binaryPath library (outputIn root library) cell) =
        h'.files.stat h'.cwd (binaryPath library (outputIn root library) cell) := by
      unfold stat
      rw [show g'.files.resolve g'.cwd true (binaryPath library (outputIn root library) cell) = _ from
        resolve_output hstep.near hd' (hs source rfl).name]
      rfl
    have hfound : c.found library cell source (binaryPath library (outputIn root library) cell) g' =
        c.found library cell source (binaryPath library (outputIn root library) cell) h' :=
      found_congr fun r => by rw [hstat]
    rw [hfound]

end OneCell

/-! ## A compiler that writes what the call decides -/

theorem tame_writes (data : Invocation → List UInt8) : (writes data).Tame where
  touches := writes_touchesFile data
  tree {call h answer h'} hr hw hstart := by
    obtain ⟨-, rfl⟩ := runs_writing.mp hr
    cases hb : h.files.writeBytes h.cwd call.output (data call) with
    | ok files => exact hw.write hstart hb
    | error e => exact hw
  threadLimit hr := by
    obtain ⟨-, rfl⟩ := runs_writing.mp hr
    split
    · rfl
    · rfl

theorem overlooks_writes {data : Invocation → List UInt8} (hc : c.runner = writes data) (S : Key → Prop) :
    c.Overlooks S := by
  intro library outputDir cell source call hs hasks h g answer answer' h' g' hset hag _ hres hrun hrun'
  obtain ⟨⟨profile, -, -, hcommand⟩, -⟩ := hasks
  have hout : call.output = binaryPath library outputDir cell := by
    unfold Invocation.output
    rw [(Prod.mk.inj hcommand).2]
    exact output_callFor (c := c) profile _ _ hs (isFileArgument_binaryPath ..)
  rw [hc] at hrun hrun'
  obtain ⟨rfl, rfl⟩ := runs_writing.mp hrun
  obtain ⟨rfl, rfl⟩ := runs_writing.mp hrun'
  refine ⟨rfl, ?_⟩
  rw [hout]
  have hput : ∀ {s t : FileTree} (j : Key) (e : Entry), AgreeOff S s t → AgreeOff S (s.put j e) (t.put j e) := by
    intro s t j e hag k hk
    by_cases hj : k = j
    · subst hj
      by_cases hnil : k = []
      · rw [hnil]
        rfl
      · rw [get?_put_self _ _ hnil, get?_put_self _ _ hnil]
    · rw [get?_put_ne _ _ hj, get?_put_ne _ _ hj]
      exact hag k hk
  have hwritten : ∀ place body, ((∃ key, place = .absent key) ∨ ∃ key b x, place = .present key (.file b x)) →
      h.files.resolve h.cwd true (binaryPath library outputDir cell) = .ok place →
      h.files.write h.cwd (binaryPath library outputDir cell) body =
        .ok (h.files.put place.key (.file body place.executable)) ∧
      g.files.write g.cwd (binaryPath library outputDir cell) body =
        .ok (g.files.put place.key (.file body place.executable)) := by
    intro place body hplace hr
    have hends := endsWithSeparator_binaryPath library outputDir cell
    exact ⟨write_iff.mpr ⟨hends, place, hr, hplace, rfl⟩,
      write_iff.mpr ⟨hends, place, hres.trans hr, hplace, rfl⟩⟩
  cases hw : h.files.writeBytes h.cwd (binaryPath library outputDir cell) (data call) with
  | ok s =>
    obtain ⟨-, place, hr, hplace, rfl⟩ := write_iff.mp hw
    rw [show g.files.writeBytes g.cwd (binaryPath library outputDir cell) (data call) = _ from
      (hwritten place (.bytes (data call)) hplace hr).2]
    exact hput _ _ hag
  | error e =>
    cases hw' : g.files.writeBytes g.cwd (binaryPath library outputDir cell) (data call) with
    | ok t =>
      obtain ⟨-, place, hr, hplace, -⟩ := write_iff.mp hw'
      cases hw.symm.trans (hwritten place (.bytes (data call)) hplace (hres.symm.trans hr)).1
    | error e' => exact hag

/-! ## All cells -/

/-- A directory for the binaries of a library is made on both machines, or on none. -/
theorem makeOutput_inStep (hnear : Near root top gone h g) (hl : library = "" ∨ IsEntryName library.toList) :
    InStep (SamePut h.files g.files (libraryIn top library))
      (h.files.makeDirectories h.cwd (outputIn root library))
      (g.files.makeDirectories g.cwd (outputIn root library)) := by
  by_cases he : library = ""
  · rw [he, hnear.left.makeDirectories_nameless, hnear.right.makeDirectories_nameless]
    exact .ok (Or.inl ⟨rfl, rfl⟩)
  rw [libraryIn, if_neg he]
  have hleads : ∀ {h : Host}, Rooted root h.cwd top h.files → Leads h.files h.cwd (root.child "binaries") (binariesIn top) :=
    fun hr => hr.leads.toLeads.child isFileName_binaries hr.binaries
  have hright := hleads hnear.right
  rw [hnear.settings.cwd] at hright ⊢
  exact makeDirectories_child_inStep (hleads hnear.left) hright (hl.resolve_left he)
    (hnear.left.noLink _ (.library library))
    (hnear.get?_outside (not_sources_of_binaries (List.prefix_append _ _)))

/-- Once it is made, the directory is there. -/
theorem directory_of_makeOutput {files : FileTree} (hr : Rooted root h.cwd top h.files)
    (hl : library = "" ∨ IsEntryName library.toList)
    (hm : h.files.makeDirectories h.cwd (outputIn root library) = .ok files) :
    files.get? (libraryIn top library) = some .directory := by
  by_cases he : library = ""
  · rw [he, hr.makeDirectories_nameless] at hm
    cases hm
    rw [libraryIn, if_pos he]
    exact hr.binaries
  rw [libraryIn, if_neg he]
  obtain ⟨-, ⟨-, rfl⟩ | ⟨hd, rfl⟩⟩ := (makeDirectories_child_iff
    (hr.leads.toLeads.child isFileName_binaries hr.binaries) (hl.resolve_left he)
    (hr.noLink _ (.library library))).mp hm
  · exact get?_put_self _ _ (by simp)
  · exact hd

/-- Making it leaves the machines near each other. -/
theorem step_of_makeOutput {files files' : FileTree} (hnear : Near root top gone h g)
    (hl : library = "" ∨ IsEntryName library.toList)
    (hm : h.files.makeDirectories h.cwd (outputIn root library) = .ok files)
    (hm' : g.files.makeDirectories g.cwd (outputIn root library) = .ok files')
    (hput : SamePut h.files g.files (libraryIn top library) files files') :
    Step root top gone (binariesIn top <+: ·) h g { h with files := files }
      { g with files := files' } := by
  by_cases he : library = ""
  · rw [he, hnear.left.makeDirectories_nameless] at hm
    rw [he, hnear.right.makeDirectories_nameless] at hm'
    cases hm
    cases hm'
    exact ⟨hnear, .refl _ _, .refl _ _⟩
  rw [libraryIn, if_neg he] at hput
  have hwell : ∀ {h : Host} {t : FileTree}, Rooted root h.cwd top h.files →
      h.files.makeDirectories h.cwd (outputIn root library) = .ok t → t.WellFormed := by
    intro h t hr hm
    refine hr.tree.makeDirectories (fun q hq => ?_) hm
    rw [startOf_of_mem_ancestors hq]
    exact hr.start_library hl
  have hkey : binariesIn top ++ [library] = top ++ "binaries" :: [library] := by simp
  have hstep := hnear.step_of_put (by simp) (hwell hnear.left hm) (hwell hnear.right hm') (hkey ▸ hput)
  exact hstep.mono fun k hk => by
    rw [hk, ← hkey]
    exact List.prefix_append _ _

variable (ht : c.runner.Tame) (hov : c.Overlooks (Leftover (sourcesIn top) gone)) (hc : IsCacheName n)
include ht hov hc

/-- Cells end the same, one after the other. -/
theorem buildCells_step {total : Nat} (jobs : List Job) : ∀ {done : Nat} {report r r' : MatrixResult} {h g : Host},
    Near root top gone h g → h.files.get? (libraryIn top library) = some .directory →
    (∀ cell source, (cell, some source) ∈ jobs → IsJob root top n library h.files cell source) →
    Runs (c.buildCells library (outputIn root library) total done report jobs) h r h' →
    Runs (c.buildCells library (outputIn root library) total done report jobs) g r' g' →
    r' = r ∧ Step root top gone (isBelow (libraryIn top library) · = true) h g h' g' := by
  induction jobs with
  | nil =>
    intro done report r r' h g hnear _ _ hrun hrun'
    unfold buildCells at hrun hrun'
    obtain ⟨rfl, rfl⟩ := runs_pure.mp hrun
    obtain ⟨rfl, rfl⟩ := runs_pure.mp hrun'
    exact ⟨rfl, hnear, .refl _ _, .refl _ _⟩
  | cons job rest ih =>
    intro done report r r' h g hnear hd hjobs hrun hrun'
    obtain ⟨cell, source?⟩ := job
    unfold buildCells at hrun hrun'
    obtain ⟨outcome, h1, hcell, hrun⟩ := runs_bind.mp hrun
    obtain ⟨outcome', g1, hcell', hrun'⟩ := runs_bind.mp hrun'
    obtain ⟨⟨⟩, h2, hshown, hrun⟩ := runs_bind.mp hrun
    obtain ⟨⟨⟩, g2, hshown', hrun'⟩ := runs_bind.mp hrun'
    obtain ⟨rfl, hstep⟩ := runCell_step ht hov hnear hc hd
      (fun source he => hjobs cell source (he ▸ List.mem_cons_self)) hcell hcell'
    unfold finishCell at hshown hshown'
    obtain rfl := runs_modify.mp hshown
    obtain rfl := runs_modify.mp hshown'
    have hrest : ∀ cell source, (cell, some source) ∈ rest → IsJob root top n library h1.files cell source := by
      intro cell source hj
      obtain ⟨hname, hargument, hin⟩ := hjobs cell source (List.mem_cons_of_mem _ hj)
      exact ⟨hname, hargument, hin.of_agree hstep.left.off fun k hk => not_sources_of_binaries (binaries_of_below hk)⟩
    have hd1 : h1.files.get? (libraryIn top library) = some .directory :=
      (hstep.left.off _ (by rw [isBelow_self]; decide)).trans hd
    obtain ⟨rfl, hmore⟩ := ih (hstep.near.traced _ _) (by exact hd1) (by exact hrest) hrun hrun'
    exact ⟨rfl, hmore.near, (hstep.left.traced _).trans hmore.left, (hstep.right.traced _).trans hmore.right⟩

variable {accepts : Architecture → Bool} (hp : Registry.probe accepts = .ok c.registry)
  (hlevels : ∀ level ∈ c.options.levels, '/' ∉ level.toList)
include hp hlevels

/-- **A matrix ends the same** on machines near each other, and leaves them so. -/
theorem runMatrix_step {functions : List String} {r r' : Except MatrixFailure MatrixResult}
    (hnear : Near root top gone h g) (hl : library = "" ∨ IsEntryName library.toList)
    (hthere : h.files.get? (sourcesIn top ++ [n]) ≠ none)
    (hrun : Runs (c.runMatrix library ((root.child "sources").child n) functions (outputIn root library)).outcome
      h r h')
    (hrun' : Runs (c.runMatrix library ((root.child "sources").child n) functions (outputIn root library)).outcome
      g r' g') :
    r' = r ∧ Step root top gone (binariesIn top <+: ·) h g h' g' := by
  have hsep : '/' ∉ library.toList := hl.elim (fun he => by rw [he]; decide) fun hl => hl.1
  have hmade := makeOutput_inStep hnear hl
  rcases runs_runMatrix.mp hrun with ⟨e, he, rfl, rfl⟩ | ⟨files, hm, hrest⟩
  · rw [he] at hmade
    rcases runs_runMatrix.mp hrun' with ⟨e', he', rfl, rfl⟩ | ⟨files', hm', -⟩
    · rw [he'] at hmade
      cases hmade
      exact ⟨rfl, hnear, .refl _ _, .refl _ _⟩
    · rw [hm'] at hmade
      cases hmade
  rw [hm] at hmade
  rcases runs_runMatrix.mp hrun' with ⟨e', he', -⟩ | ⟨files', hm', hrest'⟩
  · rw [he'] at hmade
    cases hmade
  rw [hm'] at hmade
  cases hmade with | ok hput =>
  -- the directory of the library is there now, and nothing else is different
  have hstep := step_of_makeOutput hnear hl hm hm' hput
  have hthere1 : files.get? (sourcesIn top ++ [n]) ≠ none := by
    have hkeep := hstep.left.off (sourcesIn top ++ [n]) fun he =>
      not_sources_of_binaries he (List.prefix_append _ _)
    rwa [show files.get? (sourcesIn top ++ [n]) = _ from hkeep]
  have hfind := hstep.near.find?_eq hc hthere1
  have hjobs : c.jobsFor { g with files := files' } ((root.child "sources").child n) functions =
      c.jobsFor { h with files := files } ((root.child "sources").child n) functions := by
    unfold jobsFor
    exact List.map_congr_left fun cell _ => by rw [(hfind cell.function).1]
  rw [hjobs] at hrest'
  rcases hrest with ⟨hw, rfl, rfl⟩ | ⟨hw, report, rfl, hb⟩
  · rcases hrest' with ⟨-, rfl, rfl⟩ | ⟨hw', -⟩
    · exact ⟨rfl, hstep⟩
    · rw [hnear.settings.threadLimit] at hw'
      exact absurd hw (Nat.not_lt.mpr hw')
  · rcases hrest' with ⟨hw', -⟩ | ⟨-, report', rfl, hb'⟩
    · rw [hnear.settings.threadLimit] at hw'
      exact absurd hw' (Nat.not_lt.mpr hw)
    · have hall : ∀ cell source, (cell, some source) ∈
          c.jobsFor { h with files := files } ((root.child "sources").child n) functions →
          IsJob root top n library files cell source := by
        intro cell source hj
        obtain ⟨hcell, hs⟩ := of_mem_jobsFor hj
        obtain ⟨harch, ho, -⟩ := mem_cells.mp hcell
        exact ⟨isEntryName_binaryName hsep (Sources.notMem_of_find? hs) (Registry.notMem_id_of_probe hp harch).2
          (hlevels _ (mem_distinct.mp ho)), Sources.isFileArgument_of_find? hs, (hfind _).2 _ hs⟩
      obtain ⟨rfl, hcells⟩ := buildCells_step ht hov hc _ hstep.near (directory_of_makeOutput hnear.left hl hm) hall hb hb'
      exact ⟨rfl, hstep.trans (hcells.mono fun k => binaries_of_below)⟩

end Compiler

end CipherCorpus
