import CipherCorpus.Proofs.Compile.Schedules
import CipherCorpus.Proofs.FileTree.Answers
import CipherCorpus.Proofs.FileTree.Landing

/-!
# Leftovers at the paths of binaries

A matrix is run twice with a runner that decides each call by its program, its arguments and the source
files: on a bare machine, and on one that holds some more files, left by earlier runs.  The two runs are
kept side by side (`SideBySide`): both have the same files, apart from leftovers that no call has written
yet.  So a call that writes, or fails, makes the same of its cell on both machines.  A call that is
reported as a success and writes nothing is judged by what lies at the path of its binary: nothing on the
bare machine, and possibly a leftover on the other (`SideBySide.buildOn`).

    the reports are the same  ↔  no cell takes over a leftover        (report_eq_iff_no_leftover_taken)
-/

namespace CipherCorpus

open FileTree CipherCorpus.Path

/-- What a call comes to: whether it is reported as a success, and what it writes to its output. -/
structure Verdict where
  succeeds : Bool
  written : Option (List UInt8)
deriving DecidableEq, Repr

/-- Whether a call succeeds, and the files after it.  A call that cannot write its output fails. -/
def Verdict.carriedOut (v : Verdict) (t : FileTree) (cwd : Key) (output : Path) : Bool × FileTree :=
  match v.written with
  | none => (v.succeeds, t)
  | some data =>
    match t.writeBytes cwd output data with
    | .ok t' => (v.succeeds, t')
    | .error _ => (false, t)

namespace Verdict

variable {v : Verdict} {t : FileTree} {cwd k : Key} {output : Path} {data : List UInt8}

theorem carriedOut_of_none (hv : v.written = none) : v.carriedOut t cwd output = (v.succeeds, t) := by
  unfold carriedOut
  rw [hv]

theorem carriedOut_of_lands (hv : v.written = some data) (hs : endsWithSeparator output = false)
    (hl : Lands t cwd output k) : v.carriedOut t cwd output =
      (v.succeeds, t.put k (.file (.bytes data) (t.executableAt k))) := by
  have hw : t.writeBytes cwd output data = _ := write_of_lands hs hl (.bytes data)
  unfold carriedOut
  rw [hv]
  dsimp only
  rw [hw]

theorem carriedOut_of_not_lands (hv : v.written = some data) (hl : ∀ k, ¬ Lands t cwd output k) :
    v.carriedOut t cwd output = (false, t) := by
  obtain ⟨e, hw⟩ : ∃ e, t.writeBytes cwd output data = .error e := exists_write_error hl (.bytes data)
  unfold carriedOut
  rw [hv]
  dsimp only
  rw [hw]

end Verdict

open Compiler in
/-- A runner decides a call by its program, its arguments and the files at `sources`, and does nothing
but write its output. -/
structure Runner.Decides (run : Runner) (sources : Key → Prop)
    (verdict : Invocation → FileTree → Verdict) : Prop where
  congr : ∀ call t u, (∀ k, sources k → u.get? k = t.get? k) → verdict call u = verdict call t
  ends : ∀ call h, ∃ answer g, Runs (run call) h answer g ∧ g.cwd = h.cwd ∧
    succeeded answer = ((verdict call h.files).carriedOut h.files h.cwd call.output).1 ∧
    g.files = ((verdict call h.files).carriedOut h.files h.cwd call.output).2

namespace Compiler

variable {c : Compiler} {verdict : Invocation → FileTree → Verdict} {library : String} {outputDir : Path}
  {cwd : Key} {sources : Key → Prop} {bare left t u : FileTree} {h g : Host} {job : Job} {a : Artifact}
  {n : Nat} {r r' : MatrixResult} {p : Path}

/-! ## One cell under a runner that decides -/

/-- The call for a cell, if its architecture is available. -/
def request? (c : Compiler) (library : String) (outputDir : Path) (cell : Cell) (source : Path) :
    Option Invocation :=
  (c.registry.find? cell.architecture).map fun profile =>
    c.callFor profile cell.optimization c.options.compiler source (binaryPath library outputDir cell)

/-- The outcome of a cell that was compiled, by what the file at the path of its binary holds. -/
def outcomeFrom (c : Compiler) (library : String) (outputDir : Path) (cell : Cell) (source : Path) :
    Option Body → CellResult
  | none => .failed
  | some body => .built (c.artifactOf library cell source (binaryPath library outputDir cell)
      (UInt64.ofNat body.data.length) (Digest.Md5.text body.data))

/-- The outcome of a job, and the files after it. -/
def buildOn (c : Compiler) (verdict : Invocation → FileTree → Verdict) (library : String)
    (outputDir : Path) (cwd : Key) (t : FileTree) (job : Job) : CellResult × FileTree :=
  match job.2 with
  | none => (.missingSource, t)
  | some source =>
    match c.request? library outputDir job.1 source with
    | none => (.failed, t)
    | some call =>
      let binary := binaryPath library outputDir job.1
      let done := (verdict call t).carriedOut t cwd binary
      (if done.1 then c.outcomeFrom library outputDir job.1 source (done.2.bodyOf? cwd binary) else .failed,
        done.2)

/-- The report when some more jobs are done. -/
def reportOn (c : Compiler) (verdict : Invocation → FileTree → Verdict) (library : String)
    (outputDir : Path) (cwd : Key) : MatrixResult → FileTree → List Job → MatrixResult
  | r, _, [] => r
  | r, t, job :: rest =>
    c.reportOn verdict library outputDir cwd
      (r.add job.1 (c.buildOn verdict library outputDir cwd t job).1)
      (c.buildOn verdict library outputDir cwd t job).2 rest

/-- What is found at the path of a binary is the file that the path names. -/
theorem found_eq_outcomeFrom (c : Compiler) (library : String) (outputDir : Path) (cell : Cell)
    (source : Path) (h : Host) :
    c.found library cell source (binaryPath library outputDir cell) h =
      c.outcomeFrom library outputDir cell source
        (h.files.bodyOf? h.cwd (binaryPath library outputDir cell)) := by
  unfold found sizeOf? hashed md5Of Host.read FileTree.read openRead stat bodyOf?
  cases hr : h.files.resolve h.cwd true (binaryPath library outputDir cell) with
  | error e => rfl
  | ok pl =>
    cases pl with
    | absent key => rfl
    | present key e =>
      cases e with
      | file body x => rfl
      | directory => rfl
      | link target => rfl

/-- A cell ends as its runner decides. -/
theorem runs_runCell_of_decides (hd : c.runner.Decides sources verdict) (library : String)
    (outputDir : Path) (hs : ∀ source ∈ job.2, IsFileArgument source) (h : Host) :
    ∃ g, Runs (c.runCell library outputDir job.1 job.2) h
        (c.buildOn verdict library outputDir h.cwd h.files job).1 g ∧
      g.cwd = h.cwd ∧ g.files = (c.buildOn verdict library outputDir h.cwd h.files job).2 := by
  obtain ⟨cell, source?⟩ := job
  unfold buildOn request?
  cases source? with
  | none => exact ⟨h, runs_runCell.mpr (Or.inl ⟨rfl, rfl, rfl⟩), rfl, rfl⟩
  | some source =>
    dsimp only
    cases hf : c.registry.find? cell.architecture with
    | none =>
      refine ⟨h, runs_runCell.mpr (Or.inr ⟨source, false, rfl, ?_, rfl⟩), rfl, rfl⟩
      exact runs_compileSource.mpr (Or.inl ⟨hf, rfl, rfl⟩)
    | some profile =>
      rw [Option.map_some]
      dsimp only
      generalize hcall : c.callFor profile cell.optimization c.options.compiler source
        (binaryPath library outputDir cell) = call
      have hout : call.output = binaryPath library outputDir cell :=
        hcall ▸ output_callFor profile _ _ (hs source rfl) (isFileArgument_binaryPath ..)
      obtain ⟨answer, g, hrun, hcwd, hanswer, hfiles⟩ := hd.ends call h
      rw [hout] at hanswer hfiles
      refine ⟨noted g call, runs_runCell.mpr (Or.inr ⟨source, succeeded answer, rfl, ?_, ?_⟩), hcwd, hfiles⟩
      · exact runs_compileSource.mpr (Or.inr ⟨profile, answer, g, hf, hcall ▸ hrun, rfl, hcall ▸ rfl⟩)
      · rw [found_eq_outcomeFrom, hanswer, show (noted g call).files = g.files from rfl, hfiles,
          show (noted g call).cwd = g.cwd from rfl, hcwd]

/-- All cells end as their runner decides. -/
theorem runs_buildCells_of_decides (hd : c.runner.Decides sources verdict) (library : String)
    (outputDir : Path) (total : Nat) (jobs : List Job) : ∀ (done : Nat) (r : MatrixResult) (h : Host), (∀ job ∈ jobs, ∀ source ∈ job.2, IsFileArgument source) →
      ∃ g, Runs (c.buildCells library outputDir total done r jobs) h
        (c.reportOn verdict library outputDir h.cwd r h.files jobs) g := by
  induction jobs with
  | nil => exact fun done r h _ => ⟨h, runs_pure.mpr ⟨rfl, rfl⟩⟩
  | cons job rest ih =>
    intro done r h hs
    obtain ⟨hjob, hrest⟩ := List.forall_mem_cons.mp hs
    obtain ⟨g, hcell, hcwd, hfiles⟩ := runs_runCell_of_decides hd library outputDir hjob h
    let shown : Host :=
      { g with trace := { g.trace with progress := g.trace.progress ++ [⟨done + 1, total⟩] } }
    obtain ⟨g', hrun⟩ := ih (done + 1) (r.add job.1
      (c.buildOn verdict library outputDir h.cwd h.files job).1) shown hrest
    rw [show shown.cwd = h.cwd from hcwd, show shown.files = _ from hfiles] at hrun
    refine ⟨g', ?_⟩
    unfold buildCells reportOn
    exact runs_bind.mpr ⟨_, g, hcell, runs_bind.mpr ⟨⟨⟩, shown, runs_modify.mpr rfl, hrun⟩⟩

/-! ## Bare and with leftovers -/

/-- The path lands where nothing is, apart from a leftover. -/
def Covered (left t : FileTree) (cwd : Key) (p : Path) (k : Key) : Prop :=
  Lands t cwd p k ∧ t.get? k = none ∧ left.get? k ≠ none

/-- The compile of a job is reported as a success and writes nothing, while a leftover lies at the path of
the binary and nothing else was written there. -/
def TakesOver (c : Compiler) (verdict : Invocation → FileTree → Verdict) (library : String)
    (outputDir : Path) (cwd : Key) (left t : FileTree) (job : Job) : Prop :=
  ∃ source call k, job.2 = some source ∧ c.request? library outputDir job.1 source = some call ∧
    verdict call t = ⟨true, none⟩ ∧ Covered left t cwd (binaryPath library outputDir job.1) k

/-- The artifact describes a file that is there with the leftovers only. -/
def LeftBehind (bare left : FileTree) (cwd : Key) (a : Artifact) : Prop :=
  ∃ k body, Lands left cwd a.binaryPath k ∧ bare.get? k = none ∧ left.bodyAt? k = some body ∧
    a.size = UInt64.ofNat body.data.length ∧ a.md5 = Digest.Md5.text body.data

/-- The files of two machines, `t` started as `bare` and `u` as `left`.  They hold the same, but where
nothing was written a leftover may lie in `u`; sources are the same altogether. -/
structure SideBySide (sources : Key → Prop) (bare left t u : FileTree) : Prop where
  leftShape : SameShape left t
  shape : SameShape t u
  bodies : ∀ k, t.get? k ≠ none → u.bodyAt? k = t.bodyAt? k
  free : ∀ k, t.get? k = none → bare.get? k = none ∧ u.get? k = left.get? k
  same : ∀ k, sources k → u.get? k = t.get? k

/-- A file written on both machines is the same on both. -/
theorem SideBySide.put {k : Key} (hb : SideBySide sources bare left t u) (hl : Lands t cwd p k) (body : Body) :
    SideBySide sources bare left (t.put k (.file body (t.executableAt k)))
      (u.put k (.file body (u.executableAt k))) := by
  have hl' : Lands u cwd p k := hl.of_sameShape hb.shape
  have hk := hl.ne_nil
  have ht := hl.sameShape_put body (t.executableAt k)
  have hu := hl'.sameShape_put body (u.executableAt k)
  refine ⟨hb.leftShape.trans ht, ht.symm.trans (hb.shape.trans hu), fun j hj => ?_, fun j hj => ?_,
    fun j hj => ?_⟩
  · by_cases he : j = k
    · subst he
      rw [bodyAt?_put_self hk, bodyAt?_put_self hk]
    · rw [get?_put_ne _ _ he] at hj
      rw [bodyAt?_put_ne he, bodyAt?_put_ne he, hb.bodies j hj]
  · have he : j ≠ k := by
      rintro rfl
      rw [get?_put_self _ _ hk] at hj
      cases hj
    rw [get?_put_ne _ _ he] at hj
    rw [get?_put_ne _ _ he]
    exact hb.free j hj
  · have hmode : t.get? j = u.get? j → t.executableAt j = u.executableAt j := fun h => by
      unfold executableAt
      rw [h]
    by_cases he : j = k
    · subst he
      rw [get?_put_self _ _ hk, get?_put_self _ _ hk, hmode (hb.same j hj).symm]
    · rw [get?_put_ne _ _ he, get?_put_ne _ _ he, hb.same j hj]

/-- What is decided alike is carried out alike. -/
theorem SideBySide.carriedOut (hb : SideBySide sources bare left t u) (v : Verdict) (cwd : Key) {p : Path}
    (hs : endsWithSeparator p = false) :
    (v.carriedOut u cwd p).1 = (v.carriedOut t cwd p).1 ∧
      SideBySide sources bare left (v.carriedOut t cwd p).2 (v.carriedOut u cwd p).2 := by
  cases hv : v.written with
  | none =>
    rw [Verdict.carriedOut_of_none hv, Verdict.carriedOut_of_none hv]
    exact ⟨rfl, hb⟩
  | some data =>
    by_cases hland : ∃ k, Lands t cwd p k
    · obtain ⟨k, hl⟩ := hland
      rw [Verdict.carriedOut_of_lands hv hs hl, Verdict.carriedOut_of_lands hv hs (hl.of_sameShape hb.shape)]
      exact ⟨rfl, hb.put hl _⟩
    · rw [not_exists] at hland
      rw [Verdict.carriedOut_of_not_lands hv hland,
        Verdict.carriedOut_of_not_lands hv fun k hk => hland k (hb.shape.lands_iff.mp hk)]
      exact ⟨rfl, hb⟩

/-- A path names the same file on both machines, or nothing on the bare one and a leftover. -/
theorem SideBySide.bodyOf? (hb : SideBySide sources bare left t u) (cwd : Key) (p : Path) :
    (u.bodyOf? cwd p = t.bodyOf? cwd p ∧ ∀ k, ¬ Covered left t cwd p k) ∨
      ∃ k body, Covered left t cwd p k ∧ bare.get? k = none ∧ left.bodyAt? k = some body ∧
        t.bodyOf? cwd p = none ∧ u.bodyOf? cwd p = some body := by
  by_cases hland : ∃ k, Lands t cwd p k
  · obtain ⟨k, hl⟩ := hland
    have hcovered : ∀ j, Covered left t cwd p j → t.get? k = none ∧ left.get? k ≠ none :=
      fun j hj => hl.unique hj.1 ▸ hj.2
    rw [bodyOf?_of_lands hl, bodyOf?_of_lands (hl.of_sameShape hb.shape)]
    by_cases ht : t.get? k = none
    · obtain ⟨hbare, hu⟩ := hb.free k ht
      have hleft : u.bodyAt? k = left.bodyAt? k := by
        unfold bodyAt?
        rw [hu]
      rw [bodyAt?_of_none ht, hleft]
      by_cases hg : left.get? k = none
      · exact Or.inl ⟨bodyAt?_of_none hg, fun j hj => (hcovered j hj).2 hg⟩
      · obtain ⟨body, hbody⟩ := (hl.of_sameShape hb.leftShape.symm).exists_body hg
        exact Or.inr ⟨k, body, ⟨hl, ht, hg⟩, hbare, hbody, rfl, hbody⟩
    · exact Or.inl ⟨hb.bodies k ht, fun j hj => ht (hcovered j hj).1⟩
  · rw [not_exists] at hland
    rw [bodyOf?_of_not_lands hland, bodyOf?_of_not_lands fun k hk => hland k (hb.shape.lands_iff.mp hk)]
    exact Or.inl ⟨rfl, fun k hk => hland k hk.1⟩

/-- After a call that wrote, or could not, no leftover is left alone where its output lands. -/
theorem written_of_covered {v : Verdict} {k : Key} (hs : endsWithSeparator p = false)
    (hc : Covered left (v.carriedOut t cwd p).2 cwd p k) : v.written = none := by
  obtain ⟨hl, hfree, -⟩ := hc
  cases hv : v.written with
  | none => rfl
  | some data =>
    by_cases hland : ∃ j, Lands t cwd p j
    · obtain ⟨j, hj⟩ := hland
      rw [Verdict.carriedOut_of_lands hv hs hj] at hl hfree
      obtain rfl := hj.unique ((hj.sameShape_put _ _).lands_iff.mp hl)
      rw [get?_put_self _ _ hj.ne_nil] at hfree
      cases hfree
    · rw [not_exists] at hland
      rw [Verdict.carriedOut_of_not_lands hv hland] at hl
      exact absurd hl (hland k)

theorem takesOver_iff {cell : Cell} {source : Path} {call : Invocation}
    (hr : c.request? library outputDir cell source = some call) :
    c.TakesOver verdict library outputDir cwd left t (cell, some source) ↔
      verdict call t = ⟨true, none⟩ ∧ ∃ k, Covered left t cwd (binaryPath library outputDir cell) k := by
  constructor
  · rintro ⟨source', call', k, hs, hr', hv, hk⟩
    cases hs
    obtain rfl := Option.some.inj (hr.symm.trans hr')
    exact ⟨hv, k, hk⟩
  · rintro ⟨hv, k, hk⟩
    exact ⟨source, call, k, rfl, hr, hv, hk⟩

/-- A job ends alike on both machines, unless it takes over a leftover: then it fails on the bare one and
is built from the leftover on the other. -/
theorem SideBySide.buildOn (c : Compiler) (library : String) (outputDir : Path) (cwd : Key)
    (hv : ∀ call t u, (∀ k, sources k → u.get? k = t.get? k) → verdict call u = verdict call t)
    (hb : SideBySide sources bare left t u) (job : Job) :
    SideBySide sources bare left (c.buildOn verdict library outputDir cwd t job).2
        (c.buildOn verdict library outputDir cwd u job).2 ∧
      ((¬ c.TakesOver verdict library outputDir cwd left t job ∧
          (c.buildOn verdict library outputDir cwd u job).1 =
            (c.buildOn verdict library outputDir cwd t job).1) ∨
        (c.TakesOver verdict library outputDir cwd left t job ∧
          (c.buildOn verdict library outputDir cwd t job).1 = .failed ∧
          ∃ a, (c.buildOn verdict library outputDir cwd u job).1 = .built a ∧
            LeftBehind bare left cwd a)) := by
  obtain ⟨cell, source?⟩ := job
  cases source? with
  | none =>
    refine ⟨hb, Or.inl ⟨?_, rfl⟩⟩
    rintro ⟨source, call, k, hs, -⟩
    cases hs
  | some source =>
    cases hr : c.request? library outputDir cell source with
    | none =>
      unfold Compiler.buildOn
      dsimp only
      rw [hr]
      refine ⟨hb, Or.inl ⟨?_, rfl⟩⟩
      rintro ⟨source', call, k, hs, hr', -⟩
      cases hs
      rw [hr] at hr'
      cases hr'
    | some call =>
      have hends := endsWithSeparator_binaryPath library outputDir cell
      obtain ⟨hsame, hdone⟩ := hb.carriedOut (verdict call t) cwd hends
      rw [takesOver_iff hr]
      unfold Compiler.buildOn
      dsimp only
      rw [hr]
      dsimp only
      rw [hv call t u hb.same, hsame]
      refine ⟨hdone, ?_⟩
      rcases hdone.bodyOf? cwd (binaryPath library outputDir cell) with
        ⟨hbody, hnot⟩ | ⟨k, body, hcovered, hbare, hleft, ht, hu⟩
      · refine Or.inl ⟨?_, by rw [hbody]⟩
        rintro ⟨hverdict, k, hk⟩
        rw [hverdict] at hnot
        exact hnot k hk
      · have hwritten := written_of_covered hends hcovered
        rw [Verdict.carriedOut_of_none hwritten] at hcovered
        rw [ht, hu, Verdict.carriedOut_of_none hwritten]
        cases hsucceeds : (verdict call t).succeeds with
        | false =>
          refine Or.inl ⟨?_, rfl⟩
          rintro ⟨hverdict, -⟩
          rw [hverdict] at hsucceeds
          cases hsucceeds
        | true =>
          have hverdict : verdict call t = ⟨true, none⟩ := by
            rw [← hsucceeds, ← hwritten]
          refine Or.inr ⟨⟨hverdict, k, hcovered⟩, if_pos rfl, c.artifactOf library cell source
            (binaryPath library outputDir cell) (UInt64.ofNat body.data.length)
            (Digest.Md5.text body.data), if_pos rfl, ?_⟩
          unfold LeftBehind
          rw [artifactOf_binaryPath, artifactOf_size, artifactOf_md5]
          exact ⟨k, body, hcovered.1.of_sameShape hb.leftShape.symm, hbare, hleft, rfl, rfl⟩

/-! ## The two reports -/

/-- The report `r'` over leftovers beside the report `r` of the bare machine, when `n` cells took over a
leftover. -/
structure Overlaid (bare left : FileTree) (cwd : Key) (n : Nat) (r r' : MatrixResult) : Prop where
  failed : r.failed = r'.failed + n
  units : ∀ cell a, r'.units.get? cell = some a → r.units.get? cell = some a ∨ LeftBehind bare left cwd a
  same : n = 0 → r' = r

theorem Overlaid.refl (bare left : FileTree) (cwd : Key) (r : MatrixResult) :
    Overlaid bare left cwd 0 r r := ⟨rfl, fun _ _ h => Or.inl h, fun _ => rfl⟩

theorem Overlaid.eq_iff (ho : Overlaid bare left cwd n r r') : r' = r ↔ n = 0 := by
  refine ⟨fun he => ?_, ho.same⟩
  have hfailed := ho.failed
  rw [he] at hfailed
  omega

theorem Overlaid.add (ho : Overlaid bare left cwd n r r') (cell : Cell) (outcome : CellResult) :
    Overlaid bare left cwd n (r.add cell outcome) (r'.add cell outcome) := by
  have hsame : n = 0 → r'.add cell outcome = r.add cell outcome := fun hn => by rw [ho.same hn]
  have hfailed := ho.failed
  cases outcome with
  | missingSource => exact ⟨hfailed, ho.units, hsame⟩
  | failed => exact ⟨show r.failed + 1 = r'.failed + 1 + n by omega, ho.units, hsame⟩
  | built a =>
    refine ⟨hfailed, fun cell' b hg => ?_, hsame⟩
    rw [MatrixResult.add, OrderedMap.get?_insert] at hg ⊢
    split at hg
    · next he =>
      rw [if_pos he]
      exact Or.inl hg
    · next he =>
      rw [if_neg he]
      exact ho.units cell' b hg

theorem Overlaid.take_over (ho : Overlaid bare left cwd n r r') (cell : Cell)
    (ha : LeftBehind bare left cwd a) :
    Overlaid bare left cwd (n + 1) (r.add cell .failed) (r'.add cell (.built a)) := by
  have hfailed := ho.failed
  refine ⟨show r.failed + 1 = r'.failed + (n + 1) by omega, fun cell' b hg => ?_, nofun⟩
  rcases get?_add hg with he | hg
  · cases he
    exact Or.inr ha
  · exact ho.units cell' b hg

/-- The files when a job's turn comes. -/
def filesBefore (c : Compiler) (verdict : Invocation → FileTree → Verdict) (library : String)
    (outputDir : Path) (cwd : Key) (t : FileTree) (jobs : List Job) (i : Nat) : FileTree :=
  (jobs.take i).foldl (fun t job => (c.buildOn verdict library outputDir cwd t job).2) t

/-- Side by side the two runs count the cells that took over a leftover. -/
theorem SideBySide.reportOn (c : Compiler) (library : String) (outputDir : Path)
    (hv : ∀ call t u, (∀ k, sources k → u.get? k = t.get? k) → verdict call u = verdict call t)
    (jobs : List Job) : ∀ {t u : FileTree} {n : Nat} {r r' : MatrixResult},
      SideBySide sources bare left t u → Overlaid bare left cwd n r r' →
      ∃ m, Overlaid bare left cwd m (c.reportOn verdict library outputDir cwd r t jobs)
          (c.reportOn verdict library outputDir cwd r' u jobs) ∧
        (m = 0 ↔ n = 0 ∧ ∀ (i : Nat) job, jobs[i]? = some job →
          ¬ c.TakesOver verdict library outputDir cwd left
            (c.filesBefore verdict library outputDir cwd t jobs i) job) := by
  induction jobs with
  | nil => exact fun {_ _ n _ _} _ ho => ⟨n, ho, by simp⟩
  | cons job rest ih =>
    intro t u n r r' hb ho
    have hsplit : (∀ (i : Nat) job', (job :: rest)[i]? = some job' →
        ¬ c.TakesOver verdict library outputDir cwd left
          (c.filesBefore verdict library outputDir cwd t (job :: rest) i) job') ↔
        ¬ c.TakesOver verdict library outputDir cwd left t job ∧
          ∀ (i : Nat) job', rest[i]? = some job' → ¬ c.TakesOver verdict library outputDir cwd left
            (c.filesBefore verdict library outputDir cwd
              (c.buildOn verdict library outputDir cwd t job).2 rest i) job' := by
      constructor
      · exact fun h => ⟨h 0 job rfl, fun i job' hi => h (i + 1) job' hi⟩
      · rintro ⟨h0, h⟩ i job' hi
        cases i with
        | zero =>
          cases hi
          exact h0
        | succ i => exact h i job' hi
    obtain ⟨hnext, ⟨hnot, hsame⟩ | ⟨htakes, hfailed, a, hbuilt, ha⟩⟩ :=
      hb.buildOn c library outputDir cwd hv job
    · obtain ⟨m, hm, hiff⟩ := ih hnext
        (ho.add job.1 (c.buildOn verdict library outputDir cwd t job).1)
      refine ⟨m, ?_, ?_⟩
      · unfold Compiler.reportOn
        rw [hsame]
        exact hm
      · rw [hiff, hsplit]
        simp [hnot]
    · obtain ⟨m, hm, hiff⟩ := ih hnext (ho.take_over job.1 ha)
      refine ⟨m, ?_, ?_⟩
      · unfold Compiler.reportOn
        rw [hfailed, hbuilt]
        exact hm
      · rw [hiff, hsplit]
        simp [htakes]

theorem sideBySide_of_variesAt (hleft : h.VariesAt (h.files.get? · = none) g)
    (hsources : ∀ k, sources k → g.files.get? k = h.files.get? k) :
    SideBySide sources h.files g.files h.files g.files := by
  have hshape : SameShape h.files g.files := ⟨hleft.links, hleft.directories⟩
  refine ⟨hshape.symm, hshape, fun k hk => ?_, fun k hk => ⟨hk, rfl⟩, hsources⟩
  unfold bodyAt?
  rw [hleft.files k hk]

/-- With the same sources the jobs are the same. -/
theorem jobsFor_congr {sourceDir : Path} {functions : List String}
    (hfind : ∀ f ∈ functions, Sources.find? g.files g.cwd sourceDir f = Sources.find? h.files h.cwd sourceDir f) :
    c.jobsFor g sourceDir functions = c.jobsFor h sourceDir functions := by
  refine List.map_congr_left fun cell hc => ?_
  rw [hfind cell.function (mem_distinct.mp (mem_cells.mp hc).2.2)]

/-- A run over an output directory that is there ends with the report that its runner decides. -/
theorem runs_runMatrix_of_decides (hd : c.runner.Decides sources verdict) {d : Key}
    (hdir : h.files.stat h.cwd outputDir = .ok (d, .directory)) (hw : c.options.jobs.toNat ≤ h.threadLimit)
    (library : String) (sourceDir : Path) (functions : List String) :
    ∃ h', Runs (c.runMatrix library sourceDir functions outputDir).outcome h
      (.ok (c.reportOn verdict library outputDir h.cwd
        ⟨library, .empty, (c.cellsFor functions).length, 0, 0⟩ h.files
        (c.jobsFor h sourceDir functions))) h' := by
  obtain ⟨⟨hzero, -⟩, hl⟩ := stat_directory_iff.mp hdir
  have hmade := makeDirectories_of_leads hzero hl
  have hs : ∀ job ∈ c.jobsFor h sourceDir functions, ∀ source ∈ job.2, IsFileArgument source := by
    rintro ⟨cell, source?⟩ hj source hs
    obtain rfl : source? = some source := hs
    exact Sources.isFileArgument_of_find? (of_mem_jobsFor hj).2
  obtain ⟨h', hr⟩ := runs_buildCells_of_decides hd library outputDir (c.cellsFor functions).length
    (c.jobsFor h sourceDir functions) 0
    ⟨library, .empty, (c.cellsFor functions).length, 0, 0⟩ h hs
  exact ⟨h', runs_runMatrix.mpr (Or.inr ⟨h.files, hmade, Or.inr ⟨hw, _, rfl, hr⟩⟩)⟩

/-- **What leftovers do to a report.**  `g` is the machine `h` with some more files.  Over `g` a matrix run
gives the report of `h` exactly when no call of it is reported as a success and writes nothing while at the
path of its binary lies a leftover that no call before has written over.  In any case what `g` reports as
built and `h` does not is a leftover. -/
theorem report_eq_iff_no_leftover_taken (hd : c.runner.Decides sources verdict) {d : Key}
    (hdir : h.files.stat h.cwd outputDir = .ok (d, .directory))
    (hleft : h.VariesAt (h.files.get? · = none) g) {sourceDir : Path} {functions : List String}
    (hsources : ∀ k, sources k → g.files.get? k = h.files.get? k)
    (hfind : ∀ f ∈ functions, Sources.find? g.files g.cwd sourceDir f = Sources.find? h.files h.cwd sourceDir f)
    (hw : c.options.jobs.toNat ≤ h.threadLimit) (hw' : g.threadLimit = h.threadLimit) (library : String) :
    ∃ r h' r' g', Runs (c.runMatrix library sourceDir functions outputDir).outcome h (.ok r) h' ∧
      Runs (c.runMatrix library sourceDir functions outputDir).outcome g (.ok r') g' ∧
      (r' = r ↔ ∀ (i : Nat) job, (c.jobsFor h sourceDir functions)[i]? = some job →
        ¬ c.TakesOver verdict library outputDir h.cwd g.files
          (c.filesBefore verdict library outputDir h.cwd h.files (c.jobsFor h sourceDir functions) i) job) ∧
      ∀ cell a, r'.units.get? cell = some a →
        r.units.get? cell = some a ∨ LeftBehind h.files g.files h.cwd a := by
  have hside := sideBySide_of_variesAt hleft hsources
  have hdir' : g.files.stat g.cwd outputDir = .ok (d, .directory) := by
    obtain ⟨htext, hl⟩ := stat_directory_iff.mp hdir
    exact stat_directory_iff.mpr ⟨htext, hleft.leads_iff.mpr hl⟩
  obtain ⟨h', hr⟩ := runs_runMatrix_of_decides hd hdir hw library sourceDir functions
  obtain ⟨g', hr'⟩ := runs_runMatrix_of_decides hd hdir' (hw' ▸ hw) library sourceDir functions
  rw [jobsFor_congr hfind, hleft.cwd] at hr'
  obtain ⟨m, ho, hm⟩ := hside.reportOn c library outputDir hd.congr
    (c.jobsFor h sourceDir functions)
    (.refl h.files g.files h.cwd ⟨library, .empty, (c.cellsFor functions).length, 0, 0⟩)
  exact ⟨_, h', _, g', hr, hr', by rw [ho.eq_iff, hm, eq_self, true_and], ho.units⟩

/-! ## A compiler that is silent at some levels -/

/-- A runner that carries out what is decided for each call. -/
def following (verdict : Invocation → Verdict) : Runner := fun call => do
  let done ← inspect fun h => (verdict call).carriedOut h.files h.cwd call.output
  modify fun h => { h with files := done.2 }
  return .ok ⟨done.1, some (if done.1 then 0 else 1), "", ""⟩

theorem following_decides (verdict : Invocation → Verdict) (sources : Key → Prop) :
    (following verdict).Decides sources fun call _ => verdict call := by
  refine ⟨fun _ _ _ _ => rfl, fun call h => ?_⟩
  let done := (verdict call).carriedOut h.files h.cwd call.output
  let g : Host := { h with files := done.2 }
  refine ⟨.ok ⟨done.1, some (if done.1 then 0 else 1), "", ""⟩, g, ?_, rfl, rfl, rfl⟩
  exact runs_bind.mpr ⟨done, h, runs_inspect.mpr ⟨rfl, rfl⟩, runs_bind.mpr
    ⟨⟨⟩, g, runs_modify.mpr rfl, runs_pure.mpr ⟨rfl, rfl⟩⟩⟩

/-- A call at a silent level succeeds without an output, any other writes its level. -/
def levelVerdict (silent : List String) (call : Invocation) : Verdict :=
  let level := call.arguments.headD ""
  ⟨true, if silent.contains level then none else some (Text.bytesOf level)⟩

/-- A compiler for x86 that is silent at some of its levels. -/
def levelCompiler (silent levels : List String) : Compiler :=
  ⟨⟨Architecture.catalog.take 1⟩, following (levelVerdict silent),
    { CompileSettings.standard with levels, jobs := 1 }⟩

/-- The machine with one more file. -/
def withFile (h : Host) (k : Key) (data : List UInt8) : Host :=
  { h with files := h.files.put k (.file (.bytes data) false) }

theorem variesAt_withFile {k : Key} (hk : h.files.get? k = none) (data : List UInt8) :
    h.VariesAt (· = k) (withFile h k data) := by
  have hne : k ≠ [] := by
    rintro rfl
    cases hk
  refine ⟨rfl, rfl, fun j hj => get?_put_ne _ _ hj, fun j target => ?_, fun j => ?_⟩
  · exact get?_put_eq_some_iff hne nofun (by rw [hk]; nofun)
  · exact get?_put_eq_some_iff hne nofun (by rw [hk]; nofun)

/-- A leftover at `-O2` is written over, and none lies where the compiler is silent at `-O0`: the report is
that of the empty directory. -/
theorem overwritten_leftover_is_not_reported :
    let c := levelCompiler ["-O0"] ["-O0", "-O2"]
    let h := hostWithSource []
    let g := withFile h ["out", "lib_f_x86_o2.bin"] [0]
    ∃ r h' r' g', Runs (c.runMatrix "lib" ⟨"/src"⟩ ["f"] ⟨"/out"⟩).outcome h (.ok r) h' ∧
      Runs (c.runMatrix "lib" ⟨"/src"⟩ ["f"] ⟨"/out"⟩).outcome g (.ok r') g' ∧ r' = r := by
  intro c h g
  have hvaries : h.VariesAt (h.files.get? · = none) g :=
    (variesAt_withFile rfl _).mono fun k hk => hk ▸ rfl
  have hsources : ∀ k, ["src"] <+: k → g.files.get? k = h.files.get? k := fun k hk =>
    get?_put_ne _ _ (by rintro rfl; exact absurd hk (by decide))
  obtain ⟨r, h', r', g', hr, hr', hiff, -⟩ := report_eq_iff_no_leftover_taken (c := c)
    (following_decides (levelVerdict ["-O0"]) (["src"] <+: ·)) (show h.files.stat h.cwd ⟨"/out"⟩ =
      .ok (["out"], .directory) by decide +kernel) hvaries hsources
    (show ∀ f ∈ ["f"], Sources.find? g.files g.cwd ⟨"/src"⟩ f = Sources.find? h.files h.cwd ⟨"/src"⟩ f by
      decide +kernel) (by decide) rfl "lib"
  refine ⟨r, h', r', g', hr, hr', hiff.mpr fun i job hi => ?_⟩
  have hjobs : c.jobsFor h ⟨"/src"⟩ ["f"] = [(⟨"x86", "-O0", "f"⟩, some ⟨"/src/f.c"⟩),
      (⟨"x86", "-O2", "f"⟩, some ⟨"/src/f.c"⟩)] := by decide +kernel
  rw [hjobs] at hi ⊢
  rintro ⟨source, call, k, hs, hcall, hverdict, ⟨pl, hres, hopen⟩, -, hleft⟩
  rcases i with _ | _ | i
  · obtain rfl : (⟨"x86", "-O0", "f"⟩, some ⟨"/src/f.c"⟩) = job := Option.some.inj hi
    have hkey : (h.files.resolve h.cwd true (binaryPath "lib" ⟨"/out"⟩ ⟨"x86", "-O0", "f"⟩)).map
        Place.key = .ok ["out", "lib_f_x86_o0.bin"] := by decide +kernel
    replace hres : h.files.resolve h.cwd true (binaryPath "lib" ⟨"/out"⟩ ⟨"x86", "-O0", "f"⟩) = .ok pl := hres
    rw [hres] at hkey
    obtain rfl : k = ["out", "lib_f_x86_o0.bin"] := hopen.key_eq.symm.trans (Except.ok.inj hkey)
    exact hleft rfl
  · obtain rfl : (⟨"x86", "-O2", "f"⟩, some ⟨"/src/f.c"⟩) = job := Option.some.inj hi
    obtain rfl : ⟨"/src/f.c"⟩ = source := Option.some.inj hs
    have hwrites : (c.request? "lib" ⟨"/out"⟩ ⟨"x86", "-O2", "f"⟩ ⟨"/src/f.c"⟩).map
        (fun call => (levelVerdict ["-O0"] call).written.isSome) = some true := by decide +kernel
    replace hcall : c.request? "lib" ⟨"/out"⟩ ⟨"x86", "-O2", "f"⟩ ⟨"/src/f.c"⟩ = some call := hcall
    have hsilent : levelVerdict ["-O0"] call = ⟨true, none⟩ := hverdict
    rw [hcall, Option.map_some, hsilent] at hwrites
    cases hwrites
  · cases hi

/-- At a silent level a leftover is reported as built, which fails over an empty directory. -/
theorem silent_compile_reports_leftover :
    let c := levelCompiler ["-O2"] ["-O2"]
    let h := hostWithSource []
    let g := withFile h ["out", "lib_f_x86_o2.bin"] [0]
    Registry.probe (·.id == "x86") = .ok c.registry ∧
      c.runner.Decides (["src"] <+: ·) (fun call _ => levelVerdict ["-O2"] call) ∧
      h.files.stat h.cwd ⟨"/out"⟩ = .ok (["out"], .directory) ∧
      (∀ n, h.files.get? ["out", n] = none) ∧ h.VariesAt (∃ n, · = ["out", n]) g ∧
      ∃ r h' r' g', Runs (c.runMatrix "lib" ⟨"/src"⟩ ["f"] ⟨"/out"⟩).outcome h (.ok r) h' ∧
        Runs (c.runMatrix "lib" ⟨"/src"⟩ ["f"] ⟨"/out"⟩).outcome g (.ok r') g' ∧
        r.succeeded = 0 ∧ r.failed = 1 ∧ r'.succeeded = 1 ∧ r'.failed = 0 := by
  intro c h g
  have hd : c.runner.Decides (["src"] <+: ·) (fun call _ => levelVerdict ["-O2"] call) :=
    following_decides _ _
  have hdir : h.files.stat h.cwd ⟨"/out"⟩ = .ok (["out"], .directory) := by decide +kernel
  have hdir' : g.files.stat g.cwd ⟨"/out"⟩ = .ok (["out"], .directory) := by decide +kernel
  obtain ⟨h', hr⟩ := runs_runMatrix_of_decides hd hdir (by decide) "lib" ⟨"/src"⟩ ["f"]
  obtain ⟨g', hr'⟩ := runs_runMatrix_of_decides hd hdir' (by decide) "lib" ⟨"/src"⟩ ["f"]
  refine ⟨by show _ = Except.ok (⟨Architecture.catalog.take 1⟩ : Registry); decide, hd, hdir,
    fun n => by simp [h, hostWithSource, FileTree.get?, List.lookup_cons],
    (variesAt_withFile rfl _).mono fun k hk => ⟨_, hk⟩, _, h', _, g', hr, hr', by decide +kernel,
    by decide +kernel, by decide +kernel, by decide +kernel⟩

end Compiler

end CipherCorpus
