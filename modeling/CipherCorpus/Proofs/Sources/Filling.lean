import CipherCorpus.Proofs.Sources.Crew
import CipherCorpus.Proofs.Sources.Stages

/-!
# Filling the cache

How filling the cache can end (`Fills`), put together from its steps:

* it ends before the staging directory is there, or with an archive that cannot be unpacked;
* or the archive is unpacked, and what remains is to put it in its place.

An error leaves the cached trees alone and a state from which filling may start again (`Spared`); after
a plain archive was unpacked and put in its place, the tree is what the archive is unpacked to, and
nothing is left of the way there (`Filled`).
-/

namespace CipherCorpus.SourceCache

open FileTree CipherCorpus.Path
open Archive (Kind fileNameOf Confined isPlain extraction stripped)

variable {a : SourceCache} {r : Request} {home k : Key} {c c' : String} {h h' : Host}
  {Good : Kind → List UInt8 → Prop} {x : Except SourceError Path}

/-! ## How it ends -/

/-- The archive was fetched. -/
structure Fetched (a : SourceCache) (Good : Kind → List UInt8 → Prop) (home : Key) (r : Request)
    (data : List UInt8) (h h' : Host) : Prop where
  run : Runs (a.fetchArchive r).outcome h (.ok ()) h'
  tried : a.Tried home r h h'
  good : Good r.kind data
  archive : HasArchive home r data h'.files

/-- How filling the cache can end. -/
inductive Fills (a : SourceCache) (Good : Kind → List UInt8 → Prop) (home : Key) (c : String) (r : Request)
    (h : Host) : Except SourceError Path → Host → Prop where
  | unmade {e} : h.files.makeDirectories h.cwd a.downloads = .error e →
      Fills a Good home c r h (.error (.files a.downloads e)) h
  | unfetched {e h1} : a.Tried home r h h1 → Runs (a.fetchArchive r).outcome h (.error e) h1 →
      Fills a Good home c r h (.error e) h1
  | unstaged {e h1} : a.Tried home r h h1 → ¬ CanStage home c h1.files →
      Fills a Good home c r h (.error (.files (scratchPath (a.sources.child c)) e)) h1
  | spoiled {data h1 t t3 fault} : a.Fetched Good home r data h h1 → Staged home c h1.files t →
      (Archive.unpack r.kind h1.cwd data (scratchPath (a.sources.child c))).run.run t =
        (.error fault, t3) →
      Fills a Good home c r h (.error (.unpacking (a.downloads.child r.fileName)))
        { h1 with files := t3 }
  | unpacked {data h1 t t3 answer h2} : a.Fetched Good home r data h h1 → Staged home c h1.files t →
      (Archive.unpack r.kind h1.cwd data (scratchPath (a.sources.child c))).run.run t = (.ok (), t3) →
      Runs (a.performAll (a.sources.child c) r [.place, .discard]).outcome { h1 with files := t3 }
        answer h2 →
      Fills a Good home c r h answer h2

theorem runs_performAll {cached : Path} {w : Work} {rest : List Work} :
    Runs (a.performAll cached r (w :: rest)).outcome h x h' ↔
      (∃ h1, Runs (a.perform cached r w).outcome h (.ok ()) h1 ∧
        Runs (a.performAll cached r rest).outcome h1 x h') ∨
      ∃ e, Runs (a.perform cached r w).outcome h (.error e) h' ∧ x = .error e := by
  show Runs (a.perform cached r w >>= fun _ => a.performAll cached r rest).outcome h x h' ↔ _
  rw [Attempt.runs_bind]
  exact or_congr_left ⟨fun ⟨_, h1, hw, hk⟩ => ⟨h1, hw, hk⟩, fun ⟨h1, hw, hk⟩ => ⟨(), h1, hw, hk⟩⟩

/-- The archive is unpacked as its data say. -/
theorem runs_unpack {cached : Path} {data : List UInt8} {y : Bool} {g h3 : Host} {t t3 : FileTree}
    {outcome : Except Archive.UnpackFault Unit} {x : Except SourceError Unit}
    (hopen : t.openRead g.cwd (a.downloads.child r.fileName) = .ok (.file (.bytes data) y))
    (hu : (Archive.unpack r.kind g.cwd data (scratchPath cached)).run.run t = (outcome, t3))
    (hrun : Runs (a.perform cached r .unpack).outcome { g with files := t } x h3) :
    h3 = { g with files := t3 } ∧ x = outcome.mapError fun _ => .unpacking (a.downloads.child r.fileName) := by
  have hrun : Runs (Archive.unpackFile r.kind (a.downloads.child r.fileName) (scratchPath cached)).outcome
      { g with files := t } x h3 := hrun
  obtain ⟨hfiles, hx⟩ := (runs_unpackFile_iff (h := { g with files := t }) hopen).mp hrun
  have hu' : (Archive.unpack r.kind g.cwd (Body.bytes data).data (scratchPath cached)).run.run t =
      (outcome, t3) := hu
  dsimp only at hfiles hx
  rw [hu'] at hfiles hx
  exact ⟨hfiles, hx⟩

theorem fills (hat : LiesAt a.sources home h) (hf : a.fetcher.Saves Good)
    (hr : r.fileName = fileNameOf r.url ∧ Kind.ofFileName? r.fileName = some r.kind)
    (hc : IsCacheName c) (hrun : Runs (a.performAll (a.sources.child c) r filling).outcome h x h') :
    Fills a Good home c r h x h' := by
  rcases runs_performAll.mp hrun with ⟨h1, hfetch, hrun⟩ | ⟨e, hfetch, rfl⟩
  · rcases hat.of_fetchArchive hf hr hfetch with ⟨e, -, he, -⟩ | ⟨htried, ⟨e, he⟩ | ⟨-, data, hgood, harch⟩⟩
    · cases he
    · cases he
    have hfetched : a.Fetched Good home r data h h1 := ⟨hfetch, htried, hgood, harch⟩
    rcases runs_performAll.mp hrun with ⟨h2, hreset, hrun⟩ | ⟨e, hreset, rfl⟩
    · rcases htried.ready.of_resetStaging hc hreset with ⟨t, hstaged, -, rfl⟩ | ⟨-, -, e, he⟩
      · obtain ⟨y, hopen⟩ := (hstaged.ready htried.ready).openRead_archive (hstaged.hasArchive harch)
        rcases hu : (Archive.unpack r.kind h1.cwd data (scratchPath (a.sources.child c))).run.run t with
          ⟨outcome, t3⟩
        rcases runs_performAll.mp hrun with ⟨h3, hrun3, hrun⟩ | ⟨e, hrun3, rfl⟩
        · obtain ⟨rfl, hy⟩ := runs_unpack hopen hu hrun3
          cases outcome with
          | ok u => exact .unpacked hfetched hstaged hu hrun
          | error fault => cases hy
        · obtain ⟨rfl, hy⟩ := runs_unpack hopen hu hrun3
          cases outcome with
          | ok u => cases hy
          | error fault =>
            cases hy
            exact .spoiled hfetched hstaged hu
      · cases he
    · rcases htried.ready.of_resetStaging hc hreset with ⟨t, -, he, -⟩ | ⟨hno, rfl, e', he⟩
      · cases he
      · cases he
        exact .unstaged htried hno
  · rcases hat.of_fetchArchive hf hr hfetch with ⟨e', hm, he, rfl⟩ | ⟨htried, -⟩
    · cases he
      exact .unmade hm
    · exact .unfetched htried hfetch

/-! ## What an error leaves -/

/-- A call that failed has made the downloads directory, and left nothing else in the sources than an
archive and a staging directory. -/
structure Spared (a : SourceCache) (home : Key) (c : String) (r : Request) (h h' : Host) : Prop where
  made : ∃ t, h.files.makeDirectories h.cwd a.downloads = .ok t ∧
    AgreeOff (fun k => k = archiveKey home r.fileName ∨ AtEntries home [".staging-" ++ c] k) t h'.files
  cwd : h'.cwd = h.cwd
  fetches : h'.trace.fetches = h.trace.fetches ++ [r.url]
  ready : Ready a.sources h'.cwd home h'.files
  frame : ∀ k, isBelow home k = true → k ≠ home ++ [".downloads"] → k ≠ archiveKey home r.fileName →
    ¬ AtEntries home [".staging-" ++ c] k → h'.files.get? k = h.files.get? k
  directory : h'.files.get? (archiveKey home r.fileName) = some .directory ↔
    h.files.get? (archiveKey home r.fileName) = some .directory
  staging : (∃ body x, h'.files.get? (stagingKey home c) = some (.file body x)) ↔
    ∃ body x, h.files.get? (stagingKey home c) = some (.file body x)

theorem isBelow_stagingKey (home : Key) (c : String) : isBelow home (stagingKey home c) = true :=
  isBelow_append (by simp)

theorem stagingKey_ne_archiveKey (home : Key) (c fileName : String) :
    stagingKey home c ≠ archiveKey home fileName := fun he =>
  absurd (congrArg List.length he) (by simp [stagingKey, archiveKey])

theorem stagingKey_ne_downloads (home : Key) (c : String) : stagingKey home c ≠ home ++ [".downloads"] :=
  fun he => staging_ne_downloads c (by simpa [stagingKey] using he)

/-- Fetching does not touch the staging directory. -/
theorem Tried.get?_staging {h1 : Host} (ht : a.Tried home r h h1) (c : String) :
    h1.files.get? (stagingKey home c) = h.files.get? (stagingKey home c) :=
  ht.frame _ (isBelow_stagingKey home c) (stagingKey_ne_downloads home c)
    (stagingKey_ne_archiveKey home c r.fileName)

theorem Tried.canStage_iff {h1 : Host} (ht : a.Tried home r h h1) :
    CanStage home c h1.files ↔ CanStage home c h.files := by
  unfold CanStage
  rw [ht.get?_staging c]

theorem Tried.spared {h1 : Host} (ht : a.Tried home r h h1) : a.Spared home c r h h1 :=
  ⟨ht.made.imp fun _ hm => ⟨hm.1, hm.2.mono fun _ => Or.inl⟩, ht.cwd, ht.fetches, ht.ready,
    fun k hk hd ha _ => ht.frame k hk hd ha, ht.directory, by rw [ht.get?_staging c]⟩

/-- An archive that was not put in its place is spared with the rest. -/
theorem spared_unpack {data : List UInt8} {h1 : Host} {t t3 : FileTree}
    {outcome : Except Archive.UnpackFault Unit} (hconf : Confined r.kind data) (hc : IsCacheName c)
    (ht : a.Tried home r h h1) (hs : Staged home c h1.files t)
    (hu : (Archive.unpack r.kind h1.cwd data (scratchPath (a.sources.child c))).run.run t = (outcome, t3)) :
    a.Spared home c r h { h1 with files := t3 } := by
  have hcl := hs.cleared ht.ready
  have hready : Ready a.sources h1.cwd home t3 := hcl.ready_unpack hconf hc hu
  have hoff : AgreeOff (AtEntries home [".staging-" ++ c]) h1.files t3 :=
    hs.frame.trans (hcl.agreeOff_unpack hconf hc hu)
  refine ⟨ht.made.imp fun t hm => ⟨hm.1, (hm.2.mono fun _ => Or.inl).trans (hoff.mono fun _ => Or.inr)⟩,
    ht.cwd, ht.fetches, hready, fun k hk hd ha hk' => ?_, ?_, ?_⟩
  · exact (hoff k hk').trans (ht.frame k hk hd ha)
  · show t3.get? (archiveKey home r.fileName) = _ ↔ _
    rw [hcl.archive_unpack hconf hc hu, hs.get?_archive]
    exact ht.directory
  · show (∃ body x, t3.get? (stagingKey home c) = _) ↔ _
    rw [hcl.directory_unpack hconf hc hu, ← ht.get?_staging c]
    exact iff_of_false (by simp) fun ⟨body, x, hx⟩ => hs.can.2 body x hx

/-! ## What is left of a plain archive -/

/-- The cache was filled: the tree is what the archive is unpacked to, and nothing is left of the way
there. -/
structure Filled (a : SourceCache) (home : Key) (c : String) (r : Request) (data : List UInt8)
    (h h' : Host) : Prop where
  cwd : h'.cwd = h.cwd
  fetches : h'.trace.fetches = h.trace.fetches ++ [r.url]
  ready : Ready a.sources h'.cwd home h'.files
  canStage : CanStage home c h.files
  extracted : (extraction r.kind data).1 = .ok ()
  tree : treeAt home c h'.files = stripped (extraction r.kind data).2
  staging : ∀ x, h'.files.get? (stagingKey home c ++ x) = none
  archive : h'.files.get? (archiveKey home r.fileName) = none
  frame : ∀ k, isBelow home k = true → k ≠ home ++ [".downloads"] → k ≠ archiveKey home r.fileName →
    ¬ AtEntries home [".staging-" ++ c, c] k → h'.files.get? k = h.files.get? k

theorem atEntries_cons {n : String} {names : List String} (h : AtEntries home [n] k) :
    AtEntries home (n :: names) k :=
  ⟨n, List.mem_cons_self, atEntries_singleton.mp h⟩

/-- Putting in place and removing the archive fail with an error on files, if they do. -/
theorem files_of_performAll {cached : Path} {e : SourceError}
    (hrun : Runs (a.performAll cached r [.place, .discard]).outcome h (.error e) h') :
    ∃ p error, e = .files p error := by
  have hfiles : ∀ {p f x h h'}, Runs (filesAt p f).outcome h x h' → ∀ e, x = .error e →
      ∃ p error, e = .files p error := by
    intro p f x h h' hrun e hx
    rcases runs_filesAt_iff.mp hrun with ⟨t, -, rfl, -⟩ | ⟨error, -, rfl, -⟩
    · cases hx
    · cases hx
      exact ⟨p, error, rfl⟩
  rcases runs_performAll.mp hrun with ⟨h1, -, hrun⟩ | ⟨e', hput, he⟩
  · rcases runs_performAll.mp hrun with ⟨h2, -, hrun⟩ | ⟨e', hrm, he⟩
    · cases (runs_pure.mp hrun).1
    · cases he
      exact hfiles hrm _ rfl
  · cases he
    have hput : Runs (putInPlace (scratchPath cached) cached).outcome h (.error e) h' := hput
    unfold putInPlace at hput
    rw [Attempt.runs_get_bind] at hput
    split at hput
    · cases (runs_pure.mp hput).1
      exact ⟨_, _, rfl⟩
    · dsimp only at hput
      split at hput
      · rcases Attempt.runs_bind.mp hput with ⟨_, h1, -, hrm⟩ | ⟨e', hmv, he⟩
        · exact hfiles hrm _ rfl
        · cases he
          exact hfiles hmv _ rfl
      · exact hfiles hput _ rfl
    · exact hfiles hput _ rfl

/-- What was unpacked is put in its place and the archive is removed, unless something else is there. -/
theorem placed_or_blocked {data : List UInt8} {g : Host} (hu : a.Unpacked home c g) (hc : IsCacheName c)
    (harch : HasArchive home r data g.files)
    (hrun : Runs (a.performAll (a.sources.child c) r [.place, .discard]).outcome g x h') :
    (∃ t, Placed home c (movedTop g.files g.cwd (scratchPath (a.sources.child c)) (stagingKey home c)) g.files t ∧
      HasArchive home r data t ∧ x = .ok (a.sources.child c) ∧
      h' = { g with files := t.erase (archiveKey home r.fileName) }) ∨
    g.files.get? (home ++ [c]) ≠ none ∧ h' = g ∧ ∃ e, x = .error (.files (a.sources.child c) e) := by
  rcases runs_performAll.mp hrun with ⟨h4, hput, hrun⟩ | ⟨e, hput, rfl⟩
  · rcases hu.runs_putInPlace hc hput with ⟨t, hplaced, -, rfl⟩ | ⟨-, -, e, he⟩
    · have hout : ∀ x, ¬ AtEntries home [".staging-" ++ c, c] (home ++ ".downloads" :: x) := fun x hk => by
        rw [atEntries_iff, List.mem_cons, List.mem_singleton] at hk
        rcases hk with hk | hk
        · exact staging_ne_downloads c hk.symm
        · exact hc.ne_downloads hk.symm
      have hl : Leads t g.cwd a.downloads (home ++ [".downloads"]) := by
        refine (hu.ready.leads.of_outside fun k hk => hplaced.frame k fun hS => ?_).toLeads.child
          isFileName_downloads ((hplaced.frame _ (hout [])).trans hu.ready.downloads)
        rw [hS.isBelow] at hk
        cases hk
      have harch : HasArchive home r data t := by
        obtain ⟨y, hy⟩ := harch
        refine ⟨y, (hplaced.frame _ ?_).trans hy⟩
        rw [archiveKey_eq]
        exact hout _
      rcases runs_performAll.mp hrun with ⟨h5, hrm, hrun⟩ | ⟨e, hrm, rfl⟩
      · obtain ⟨-, rfl⟩ := runs_discard hplaced.tree hu.ready.zeroFree_downloads hl harch hrm
        obtain ⟨rfl, rfl⟩ := runs_pure.mp hrun
        exact Or.inl ⟨t, hplaced, harch, rfl, rfl⟩
      · obtain ⟨he, -⟩ := runs_discard hplaced.tree hu.ready.zeroFree_downloads hl harch hrm
        cases he
    · cases he
  · rcases hu.runs_putInPlace hc hput with ⟨t, -, he, -⟩ | ⟨hblock, rfl, e', he⟩
    · cases he
    · cases he
      exact Or.inr ⟨hblock, rfl, e', rfl⟩

/-- Making the staging directory and unpacking leave the place of the tree as it was. -/
theorem get?_cached_unpack {data : List UInt8} {h1 : Host} {t t3 : FileTree}
    {outcome : Except Archive.UnpackFault Unit} (hconf : Confined r.kind data) (hc : IsCacheName c)
    (hready : Ready a.sources h1.cwd home h1.files) (hs : Staged home c h1.files t)
    (hu : (Archive.unpack r.kind h1.cwd data (scratchPath (a.sources.child c))).run.run t = (outcome, t3)) :
    t3.get? (home ++ [c]) = h1.files.get? (home ++ [c]) := by
  refine (hs.frame.trans ((hs.cleared hready).agreeOff_unpack hconf hc hu)) _ fun hk => ?_
  rw [atEntries_iff, List.mem_singleton] at hk
  exact hc.ne_staging c hk

/-- The archive that was fetched is there to be removed. -/
theorem Fetched.hasArchive_unpack {data : List UInt8} {h1 : Host} {t t3 : FileTree}
    {outcome : Except Archive.UnpackFault Unit} (hf : a.Fetched Good home r data h h1)
    (hconf : Confined r.kind data) (hc : IsCacheName c) (hs : Staged home c h1.files t)
    (hu : (Archive.unpack r.kind h1.cwd data (scratchPath (a.sources.child c))).run.run t = (outcome, t3)) :
    HasArchive home r data t3 :=
  (hs.cleared hf.tried.ready).hasArchive_unpack hconf hc hu (hs.hasArchive hf.archive)

/-- What holds once the tree of a plain archive is in its place. -/
theorem Placed.of_mirrored {s t : FileTree} {g : Host} (hunp : a.Unpacked home c g) (hc : IsCacheName c)
    (hinside : ∀ x, g.files.get? (stagingKey home c ++ x) = s.get? x) (hs : s.WellFormed)
    (hclear : ∀ k target, s.get? k ≠ some (.link target))
    (hplaced : Placed home c (movedTop g.files g.cwd (scratchPath (a.sources.child c)) (stagingKey home c))
      g.files t) : Ready a.sources g.cwd home t ∧ treeAt home c t = stripped s := by
  rw [movedTop_eq_singleTop hunp hc hinside hs hclear] at hplaced
  have hcached : ∀ x, treeAt home c t x = stripped s x := fun x => by
    rw [hplaced.cached x, List.append_assoc]
    exact hinside _
  refine ⟨?_, funext hcached⟩
  refine hunp.ready.of_entries hplaced.tree hplaced.frame ?_ fun n hn target hg => ?_
  · rw [List.mem_cons, List.mem_singleton, not_or]
    exact ⟨(staging_ne_downloads c).symm, hc.ne_downloads.symm⟩
  · rw [List.mem_cons, List.mem_singleton] at hn
    rcases hn with rfl | rfl
    · have := hplaced.staging []
      rw [List.append_nil] at this
      cases this.symm.trans hg
    · exact hclear _ target ((hcached []).symm.trans hg)

/-- Once a plain archive is unpacked it is put in its place, unless something else is there. -/
theorem filled_or_blocked {data : List UInt8} {h1 : Host} {t t3 : FileTree} (hp : isPlain r.kind data = true)
    (hc : IsCacheName c) (ht : a.Tried home r h h1) (hs : Staged home c h1.files t)
    (hu : (Archive.unpack r.kind h1.cwd data (scratchPath (a.sources.child c))).run.run t = (.ok (), t3))
    (harch : HasArchive home r data h1.files)
    (hrun : Runs (a.performAll (a.sources.child c) r [.place, .discard]).outcome { h1 with files := t3 } x h') :
    x = .ok (a.sources.child c) ∧ a.Filled home c r data h h' ∨
      h1.files.get? (home ++ [c]) ≠ none ∧ h' = { h1 with files := t3 } ∧
        ∃ e, x = .error (.files (a.sources.child c) e) := by
  have hconf := Archive.confined_of_isPlain hp
  have hcl := hs.cleared ht.ready
  obtain ⟨hext, hinside, hclear⟩ := hcl.mirrored hp hc hu
  have hunp := hcl.unpacked hconf hc hu
  rcases placed_or_blocked hunp hc (hcl.hasArchive_unpack hconf hc hu (hs.hasArchive harch)) hrun with ⟨t4, hplaced, harch4, rfl, rfl⟩ | ⟨hblock, hh, he⟩
  · obtain ⟨hready4, hcached⟩ := hplaced.of_mirrored hunp hc hinside (Archive.wellFormed_extraction _ _) hclear
    have hag4 : AgreeOff (AtEntries home [".staging-" ++ c, c]) h1.files t4 :=
      ((hs.frame.trans (hcl.agreeOff_unpack hconf hc hu)).mono fun k => atEntries_cons).trans hplaced.frame
    refine Or.inl ⟨rfl, ht.cwd, ht.fetches, hready4.erase_archive harch4, ht.canStage_iff.mp hs.can, hext,
      funext fun x => ?_, fun x => ?_, get?_erase_self t4 (archiveKey_ne_nil home _), fun k hk hd ha hk' => ?_⟩
    · exact (get?_erase_archive t4 home _ hc.ne_downloads x).trans (congrFun hcached x)
    · rw [stagingKey, List.append_assoc]
      refine (get?_erase_archive t4 home _ (staging_ne_downloads c) x).trans ?_
      have := hplaced.staging x
      rwa [stagingKey, List.append_assoc] at this
    · exact ((get?_erase_ne t4 ha).trans (hag4 k hk')).trans (ht.frame k hk hd ha)
  · exact Or.inr ⟨get?_cached_unpack hconf hc ht.ready hs hu ▸ hblock, hh, he⟩

/-! ## Summary -/

/-- An error leaves the host as it is, when not even the downloads directory can be made, or spares the
cached trees.  Of an error on files this is said for plain archives. -/
theorem Fills.of_error {e : SourceError} (hw : Fills a Good home c r h (.error e) h') (hc : IsCacheName c)
    (hconf : ∀ kind data, Good kind data → Confined kind data)
    (hkind : (∀ p error, e ≠ .files p error) ∨ ∀ kind data, Good kind data → isPlain kind data = true) :
    (∃ error, e = .files a.downloads error) ∧ h' = h ∨ a.Spared home c r h h' := by
  cases hw with
  | unmade hm => exact Or.inl ⟨⟨_, rfl⟩, rfl⟩
  | unfetched ht _ => exact Or.inr ht.spared
  | unstaged ht _ => exact Or.inr ht.spared
  | spoiled hf hs hu => exact Or.inr (spared_unpack (hconf _ _ hf.good) hc hf.tried hs hu)
  | unpacked hf hs hu hrun =>
    right
    rcases hkind with hno | hplain
    · obtain ⟨p, error, he⟩ := files_of_performAll hrun
      exact absurd he (hno p error)
    · rcases filled_or_blocked (hplain _ _ hf.good) hc hf.tried hs hu hf.archive hrun with
        ⟨he, -⟩ | ⟨-, rfl, -⟩
      · cases he
      · exact spared_unpack (hconf _ _ hf.good) hc hf.tried hs hu

/-- A path is that of a tree from a plain archive, which was fetched. -/
theorem Fills.of_ok {p : Path} (hw : Fills a Good home c r h (.ok p) h') (hc : IsCacheName c)
    (hplain : ∀ kind data, Good kind data → isPlain kind data = true) :
    p = a.sources.child c ∧ ∃ data h1, a.Fetched Good home r data h h1 ∧ a.Filled home c r data h h' := by
  cases hw with
  | unpacked hf hs hu hrun =>
    rcases filled_or_blocked (hplain _ _ hf.good) hc hf.tried hs hu hf.archive hrun with
      ⟨he, hfilled⟩ | ⟨-, -, _, he⟩
    · cases he
      exact ⟨rfl, _, _, hf, hfilled⟩
    · cases he

end CipherCorpus.SourceCache
