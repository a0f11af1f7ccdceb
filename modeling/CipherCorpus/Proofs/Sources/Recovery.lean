import CipherCorpus.Proofs.Sources.Cached

/-!
# Calls that failed

A call that failed on something else than an operation on files leaves no tree at its path and every
other cached tree as it was.  What it does leave, archives in the downloads and a staging directory
(`Behind`), does not matter to a later call: where the same archive is fetched, the call ends as it
would have ended before the failed ones, with the same tree (`failed_calls_do_not_matter`).

An archive may hold links here.  Of the ones that are fetched it is asked that what they are unpacked to
in an empty directory depends on the archive alone, and lies in the directory (`SelfContained`); an
archive that is unpacked through a link of its own changes another tree (`failed_calls_reach_trees`).
-/

namespace CipherCorpus

open FileTree CipherCorpus.Path
open Archive (Kind Destination Confined)
open Attempt (Finishes finishes_pure finishes_throw finishes_get finishes_set finishes_modify finishes_inspect
  finishes_change)

/-! ## Archives -/

namespace Archive

/-- What an archive is unpacked to in an empty directory does not depend on the directory, and nothing
else is changed. -/
def SelfContained (kind : Kind) (data : List UInt8) : Prop :=
  ∃ (outcome : Except UnpackFault Unit) (s : Key → Option Entry),
    ∀ ⦃t : FileTree⦄ ⦃cwd : Key⦄ ⦃dest : Path⦄ ⦃top : Key⦄, Destination t cwd dest top →
      ((unpack kind cwd data dest).run.run t).1 = outcome ∧
      (∀ x, x ≠ [] → ((unpack kind cwd data dest).run.run t).2.get? (top ++ x) = s x) ∧
      ∀ k, isBelow top k = false → ((unpack kind cwd data dest).run.run t).2.get? k = t.get? k

theorem SelfContained.confined {kind : Kind} {data : List UInt8} (h : SelfContained kind data) :
    Confined kind data := by
  obtain ⟨outcome, s, hall⟩ := h
  exact fun _ _ _ _ hd => (hall hd).2.2

/-- Archives of files and directories are such. -/
theorem selfContained_of_isPlain {kind : Kind} {data : List UInt8} (hp : isPlain kind data = true) :
    SelfContained kind data := by
  refine ⟨(extraction kind data).1, (extraction kind data).2.get?, fun t cwd dest top hd => ?_⟩
  obtain ⟨houtcome, hmirrors⟩ := unpack_of_isPlain hp hd
  exact ⟨houtcome, hmirrors.inside, hmirrors.outside⟩

end Archive

/-! ## Directories with the same directories in them -/

/-- A path that leads to a directory still does when there are more directories and the same links. -/
theorem FileTree.isDirectory_grow {t t' : FileTree} {cwd : Key} {p : Path}
    (hd : ∀ k, t.get? k = some .directory → t'.get? k = some .directory)
    (hl : ∀ k target, t.get? k = some (.link target) → t'.get? k = some (.link target))
    (h : t.isDirectory cwd p = true) : t'.isDirectory cwd p = true := by
  unfold isDirectory stat at h ⊢
  cases hr : t.resolve cwd true p with
  | error e =>
    rw [hr] at h
    cases h
  | ok pl =>
    rw [hr] at h
    cases pl with
    | absent k => cases h
    | present k e =>
      cases e with
      | directory =>
        obtain ⟨hp, n, hn, hw⟩ := resolve_iff.mp hr
        rw [resolve_iff.mpr ⟨hp, n, hn, hw.grow hd hl rfl⟩]
        rfl
      | file body x => cases h
      | link target => cases h

namespace SourceCache

variable {a : SourceCache} {home : Key} {c : String} {r : Request} {h h' g g' : Host} {t t' : FileTree}
  {Good : Kind → List UInt8 → Prop} {x y : Except SourceError Path} {data : List UInt8} {name : String}
  {h1 g1 : Host} {version url : Option String} {calls : List (Call × Except SourceError Path)}

/-! ## Steps that come to an end -/

theorem finishes_filesAt (p : Path) (f : FileTree → Key → Except FileError FileTree) :
    Finishes (filesAt p f) := (finishes_change f).inWords _

theorem finishes_unpackFile (kind : Kind) (archive dest : Path) :
    Finishes (Archive.unpackFile kind archive dest) := by
  unfold Archive.unpackFile
  refine finishes_get.bind fun h => ?_
  split
  · exact finishes_throw _
  · dsimp only
    refine (finishes_set _).bind fun _ => ?_
    split
    · exact finishes_pure _
    · exact finishes_throw _

theorem finishes_putInPlace (staging cached : Path) : Finishes (putInPlace staging cached) := by
  unfold putInPlace
  refine finishes_get.bind fun h => ?_
  split
  · exact finishes_throw _
  · dsimp only
    split
    · exact (finishes_filesAt _ _).bind fun _ => finishes_filesAt _ _
    · exact finishes_filesAt _ _
  · exact finishes_filesAt _ _

theorem finishes_resetStaging (staging : Path) : Finishes (resetStaging staging) := by
  unfold resetStaging
  refine (finishes_inspect _).bind fun there => ?_
  split
  · exact (finishes_filesAt _ _).bind fun _ => finishes_filesAt _ _
  · exact finishes_filesAt _ _

theorem finishes_fetchArchive (hf : ∀ url p, Finishes (a.fetcher url p)) : Finishes (a.fetchArchive r) :=
  (finishes_filesAt _ _).bind fun _ => (finishes_modify _).bind fun _ => hf _ _

/-- Only fetching can be cut short. -/
theorem finishes_performAll (cached : Path) {works : List Work} (hw : .fetch ∉ works) :
    Finishes (a.performAll cached r works) := by
  induction works with
  | nil => exact finishes_pure _
  | cons w rest ih =>
    rw [List.mem_cons, not_or] at hw
    refine Finishes.bind ?_ fun _ => ih hw.2
    cases w with
    | fetch => exact absurd rfl hw.1
    | reset => exact finishes_resetStaging _
    | unpack => exact finishes_unpackFile _ _ _
    | place => exact finishes_putInPlace _ _
    | discard => exact finishes_filesAt _ _

/-- With a fetcher that answers, every call ends. -/
theorem finishes_tree (hf : ∀ url p, Finishes (a.fetcher url p)) : Finishes (a.tree name version url) := by
  rw [tree_eq]
  refine (finishes_inspect _).bind fun there => ?_
  split
  · exact finishes_pure _
  · refine Finishes.bind ?_ fun r => (finishes_fetchArchive hf).bind fun _ =>
      finishes_performAll _ (by decide)
    cases request name url with
    | ok r => exact finishes_pure r
    | error e => exact finishes_throw e

/-! ## What failed calls leave -/

/-- At an archive in the downloads, or in the staging directory of a tree. -/
def AtResidue (home : Key) (c : String) (k : Key) : Prop :=
  (∃ n, k = archiveKey home n) ∨ AtEntries home [".staging-" ++ c] k

/-- `g` is what failed calls for a tree made of `h`: the downloads directory is there, and archives and
the staging directory may be. -/
structure Behind (a : SourceCache) (home : Key) (c : String) (h g : Host) : Prop where
  made : ∃ t, h.files.makeDirectories h.cwd a.downloads = .ok t ∧ AgreeOff (AtResidue home c) t g.files
  cwd : g.cwd = h.cwd
  ready : Ready a.sources g.cwd home g.files
  frame : ∀ k, isBelow home k = true → k ≠ home ++ [".downloads"] → ¬ AtResidue home c k →
    g.files.get? k = h.files.get? k
  directory : ∀ n, g.files.get? (archiveKey home n) = some .directory ↔
    h.files.get? (archiveKey home n) = some .directory
  staging : (∃ body x, g.files.get? (stagingKey home c) = some (.file body x)) ↔
    ∃ body x, h.files.get? (stagingKey home c) = some (.file body x)

/-- No cached tree is at an archive or at a staging directory. -/
theorem not_atResidue_cached (hc : IsCacheName c') (home x : Key) (c : String) :
    ¬ AtResidue home c (home ++ c' :: x) := by
  obtain ⟨-, -, harchive, hstage⟩ := cachedKey_ne hc home x
  rintro (⟨n, he⟩ | hk)
  · exact harchive n he
  · exact hstage c hk

/-- Failed calls leave every cached tree as it was. -/
theorem Behind.get?_cached (hb : a.Behind home c h g) (hc : IsCacheName c') (x : Key) :
    g.files.get? (home ++ c' :: x) = h.files.get? (home ++ c' :: x) := by
  obtain ⟨hbelow, hdown, -⟩ := cachedKey_ne hc home x
  exact hb.frame _ hbelow hdown (not_atResidue_cached hc home x c)

theorem Behind.miss (hb : a.Behind home c h g) (hat : LiesAt a.sources home h) (hc : IsCacheName c')
    (hmiss : h.isThere (a.sources.child c') = false) : g.isThere (a.sources.child c') = false := by
  refine Bool.eq_false_of_not_eq_true fun hit => (hb.ready.isThere_iff hc.1).mp hit ?_
  rw [hb.get?_cached hc []]
  exact hat.free_of_miss hc.1 hb.ready.zeroFree hmiss

theorem archiveKey_inj {n m : String} : archiveKey home n = archiveKey home m ↔ n = m := by
  simp [archiveKey]

theorem archiveKey_ne_downloads (home : Key) (n : String) : archiveKey home n ≠ home ++ [".downloads"] :=
  fun he => absurd (congrArg List.length he) (by simp [archiveKey])

theorem not_atEntries_archiveKey (home : Key) (c n : String) :
    ¬ AtEntries home [".staging-" ++ c] (archiveKey home n) := by
  rw [archiveKey_eq, atEntries_iff]
  exact downloads_ne_staging c

theorem Spared.behind (hs : a.Spared home c r h g) : a.Behind home c h g where
  made := hs.made.imp fun _ hm => ⟨hm.1, hm.2.mono fun _ hk => hk.imp_left fun he => ⟨_, he⟩⟩
  cwd := hs.cwd
  ready := hs.ready
  frame k hk hd hn := hs.frame k hk hd (fun he => hn (Or.inl ⟨_, he⟩)) fun hk' => hn (Or.inr hk')
  directory n := by
    by_cases hn : n = r.fileName
    · exact hn ▸ hs.directory
    · rw [hs.frame _ (isBelow_archiveKey home n) (archiveKey_ne_downloads home n)
        (fun he => hn (archiveKey_inj.mp he)) (not_atEntries_archiveKey home c n)]
  staging := hs.staging

theorem Behind.trans (hb : a.Behind home c h g) (hb' : a.Behind home c g g') : a.Behind home c h g' where
  made := by
    obtain ⟨t, hm, hag⟩ := hb.made
    obtain ⟨t', hm', hag'⟩ := hb'.made
    cases hb.ready.makeDirectories_downloads.symm.trans hm'
    exact ⟨t, hm, hag.trans hag'⟩
  cwd := hb'.cwd.trans hb.cwd
  ready := hb'.ready
  frame k hk hd hn := (hb'.frame k hk hd hn).trans (hb.frame k hk hd hn)
  directory n := (hb'.directory n).trans (hb.directory n)
  staging := hb'.staging.trans hb.staging

/-- An error that is not one of an operation on files. -/
def OutsideFiles (e : SourceError) : Prop := ∀ p error, e ≠ .files p error

/-- A call that failed, and not on files, left the machine as it was or such residue. -/
theorem Ends.behind {d : Call} {e : SourceError} (he : Ends a Good home d h (.error e) g)
    (hf : ∀ kind data, Good kind data → Confined kind data) (hc : IsCacheName d.cacheName)
    (hout : OutsideFiles e) : g = h ∨ a.Behind home d.cacheName h g := by
  cases he with
  | refused _ _ => exact Or.inl rfl
  | worked _ _ hw =>
    rcases hw.of_error hc hf (Or.inl hout) with ⟨⟨error, he⟩, -⟩ | hs
    · exact absurd he (hout _ _)
    · exact Or.inr hs.behind

/-- So did any number of them. -/
theorem Calls.behind (hf : a.fetcher.Saves Good) (hgood : ∀ kind data, Good kind data → Confined kind data)
    (hat : LiesAt a.sources home h) (hc : IsCacheName c) (hcalls : a.Calls h calls g)
    (hall : ∀ call ∈ calls, call.1.cacheName = c ∧ ∃ e, call.2 = .error e ∧ OutsideFiles e) :
    g = h ∨ a.Behind home c h g := by
  induction hcalls with
  | nil => exact Or.inl rfl
  | @snoc calls g x g' d hcalls hrun ih =>
    rw [List.forall_mem_append] at hall
    obtain ⟨hdc, e, he, hout⟩ := hall.2 _ List.mem_cons_self
    have hdc : d.cacheName = c := hdc
    have he : x = .error e := he
    subst hdc he
    have hat1 : LiesAt a.sources home g := by
      rcases ih hall.1 with rfl | hb
      · exact hat
      · exact hb.ready.liesAt
    have hstep := (ends hat1 hf hc hrun).behind hgood hc hout
    rcases ih hall.1 with rfl | hb
    · exact hstep
    · rcases hstep with rfl | hb'
      · exact Or.inr hb
      · exact Or.inr (hb.trans hb')

/-! ## The same call before and after -/

/-- The trees are the same but for archives in the downloads. -/
structure SameOffArchives (home : Key) (t t' : FileTree) : Prop where
  off : AgreeOff (fun k => ∃ n, k = archiveKey home n) t t'
  directory : ∀ n, t'.get? (archiveKey home n) = some .directory ↔ t.get? (archiveKey home n) = some .directory

theorem SameOffArchives.symm (hs : SameOffArchives home t t') : SameOffArchives home t' t :=
  ⟨fun k hk => (hs.off k hk).symm, fun n => (hs.directory n).symm⟩

theorem stagingKey_ne_archive (home : Key) (c n : String) (x : Key) :
    stagingKey home c ++ x ≠ archiveKey home n := by
  intro he
  rw [stagingKey, List.append_assoc, archiveKey_eq, List.append_cancel_left_eq] at he
  exact staging_ne_downloads c (List.cons.inj he).1

/-- What was staged is the same. -/
theorem SameOffArchives.get?_staging (hs : SameOffArchives home t t') (c : String) (x : Key) :
    t'.get? (stagingKey home c ++ x) = t.get? (stagingKey home c ++ x) :=
  hs.off _ fun ⟨n, he⟩ => stagingKey_ne_archive home c n x he

/-- A path that leads to a directory in one leads to it in the other. -/
theorem SameOffArchives.isDirectory {cwd : Key} {p : Path} (hs : SameOffArchives home t t')
    (hr : Ready a.sources cwd home t) (h : t.isDirectory cwd p = true) : t'.isDirectory cwd p = true := by
  refine isDirectory_grow (fun k hk => ?_) (fun k target hk => ?_) h
  · by_cases hn : ∃ n, k = archiveKey home n
    · obtain ⟨n, rfl⟩ := hn
      exact (hs.directory n).mpr hk
    · exact (hs.off k hn).trans hk
  · by_cases hn : ∃ n, k = archiveKey home n
    · obtain ⟨n, rfl⟩ := hn
      exact absurd hk (hr.archive n target)
    · exact (hs.off k hn).trans hk

/-- What is moved from the staging directory is the same. -/
theorem SameOffArchives.movedTop_eq {cwd : Key} {staging : Path} (hs : SameOffArchives home t t')
    (hr : Ready a.sources cwd home t) (hr' : Ready a.sources cwd home t') (c : String) :
    movedTop t' cwd staging (stagingKey home c) = movedTop t cwd staging (stagingKey home c) := by
  have hsingle : ∀ m, t'.names (stagingKey home c) = [m] ↔ t.names (stagingKey home c) = [m] := by
    intro m
    rw [hr.tree.names_eq_singleton, hr'.tree.names_eq_singleton]
    refine forall_congr' fun m' => ?_
    rw [hs.get?_staging c [m']]
  have hdir : ∀ p, t'.isDirectory cwd p = t.isDirectory cwd p := fun p =>
    Bool.eq_iff_iff.mpr ⟨hs.symm.isDirectory hr', hs.isDirectory hr⟩
  have hmany : ∀ {t : FileTree}, (∀ m, t.names (stagingKey home c) ≠ [m]) →
      movedTop t cwd staging (stagingKey home c) = [] := by
    intro t hne
    unfold movedTop
    split
    · next m hm => exact absurd hm (hne m)
    · rfl
  by_cases hone : ∃ m, t.names (stagingKey home c) = [m]
  · obtain ⟨m, hm⟩ := hone
    unfold movedTop
    rw [(hsingle m).mpr hm, hm]
    dsimp only
    rw [hdir]
  · rw [hmany fun m hm => hone ⟨m, hm⟩, hmany fun m hm => hone ⟨m, (hsingle m).mp hm⟩]

/-- Data that a fetch has delivered are all the data it has delivered. -/
theorem HasArchive.unique {data' : List UInt8} (ha : HasArchive home r data t) (ha' : HasArchive home r data' t) :
    data' = data := by
  obtain ⟨x, hx⟩ := ha
  obtain ⟨x', hx'⟩ := ha'
  cases hx.symm.trans hx'
  rfl

/-- How filling the cache ends after a fetch: the staging directory cannot be made, or the archive cannot
be unpacked, or what was unpacked remains to be put in its place. -/
theorem Fills.after_fetch (hw : Fills a Good home c r h x h') (hf : a.Fetched Good home r data h h1) :
    (¬ CanStage home c h1.files ∧ ∃ e, x = .error e) ∨
    ∃ t outcome t3, Staged home c h1.files t ∧
      (Archive.unpack r.kind h1.cwd data (scratchPath (a.sources.child c))).run.run t = (outcome, t3) ∧
      ((∃ fault e, outcome = .error fault ∧ x = .error e) ∨ outcome = .ok () ∧
        Runs (a.performAll (a.sources.child c) r [.place, .discard]).outcome { h1 with files := t3 } x h') := by
  have hsame : ∀ {data' h1'}, a.Fetched Good home r data' h h1' → h1' = h1 ∧ data' = data := by
    intro data' h1' hf'
    obtain ⟨-, rfl⟩ := hf'.run.unique hf.run
    exact ⟨rfl, hf.archive.unique hf'.archive⟩
  cases hw with
  | unmade hm =>
    obtain ⟨t, ht, -⟩ := hf.tried.made
    cases hm.symm.trans ht
  | unfetched _ hrun =>
    obtain ⟨he, -⟩ := hrun.unique hf.run
    cases he
  | unstaged ht hno => exact Or.inl ⟨fun hcan => hno (ht.canStage_iff.mpr (hf.tried.canStage_iff.mp hcan)), _, rfl⟩
  | spoiled hf' hs hu =>
    obtain ⟨rfl, rfl⟩ := hsame hf'
    exact Or.inr ⟨_, _, _, hs, hu, Or.inl ⟨_, _, rfl, rfl⟩⟩
  | unpacked hf' hs hu hrun =>
    obtain ⟨rfl, rfl⟩ := hsame hf'
    exact Or.inr ⟨_, _, _, hs, hu, Or.inr ⟨rfl, hrun⟩⟩

section Twice

variable (hb : a.Behind home c h g) (hf : a.Fetched Good home r data h h1)
  (hf' : a.Fetched Good home r data g g1)
include hb hf hf'

/-- After the same archive was fetched before and after the failed calls, the machines are the same but for
archives and the staging directory. -/
theorem agreeOff_fetched : AgreeOff (AtResidue home c) h1.files g1.files := by
  obtain ⟨t, hm, hag⟩ := hf.tried.made
  obtain ⟨t', hm', hag'⟩ := hb.made
  obtain ⟨t'', hm'', hag''⟩ := hf'.tried.made
  cases hm.symm.trans hm'
  cases hb.ready.makeDirectories_downloads.symm.trans hm''
  intro k hk
  have hka : k ≠ archiveKey home r.fileName := fun he => hk (Or.inl ⟨_, he⟩)
  exact ((hag'' k hka).trans (hag' k hk)).trans (hag k hka).symm

theorem canStage_fetched : CanStage home c g1.files ↔ CanStage home c h1.files := by
  rw [hf'.tried.canStage_iff, hf.tried.canStage_iff]
  refine and_congr_right fun _ => ?_
  have hstage := not_congr hb.staging
  simpa only [not_exists] using hstage

theorem directory_fetched (n : String) : g1.files.get? (archiveKey home n) = some .directory ↔
    h1.files.get? (archiveKey home n) = some .directory := by
  have htried : ∀ {h h1 : Host}, a.Tried home r h h1 → (h1.files.get? (archiveKey home n) = some .directory ↔
      h.files.get? (archiveKey home n) = some .directory) := fun ht => (ht.spared (c := c)).behind.directory n
  rw [htried hf.tried, htried hf'.tried]
  exact hb.directory n

/-- So they are once the staging directory was made anew, -/
theorem sameOffArchives_staged {t t' : FileTree} (hs : Staged home c h1.files t)
    (hs' : Staged home c g1.files t') : SameOffArchives home t t' := by
  refine ⟨fun k hk => ?_, fun n => ?_⟩
  · by_cases hstage : AtEntries home [".staging-" ++ c] k
    · obtain ⟨x, rfl⟩ := atEntries_singleton.mp hstage
      by_cases hx : x = []
      · rw [hx, List.append_nil]
        exact hs'.directory.trans hs.directory.symm
      · exact (hs'.empty x hx).trans (hs.empty x hx).symm
    · rw [hs.frame k hstage, hs'.frame k hstage]
      exact agreeOff_fetched hb hf hf' k fun hr => hr.elim hk hstage
  · rw [hs.frame _ (not_atEntries_archiveKey home c n), hs'.frame _ (not_atEntries_archiveKey home c n)]
    exact directory_fetched hb hf hf' n

/-- and the archive unpacked. -/
theorem sameOffArchives_unpacked {t t' t3 t3' : FileTree} {outcome outcome' : Except Archive.UnpackFault Unit}
    (hself : Archive.SelfContained r.kind data) (hc : IsCacheName c) (hs : Staged home c h1.files t)
    (hs' : Staged home c g1.files t')
    (hu : (Archive.unpack r.kind h1.cwd data (scratchPath (a.sources.child c))).run.run t = (outcome, t3))
    (hu' : (Archive.unpack r.kind g1.cwd data (scratchPath (a.sources.child c))).run.run t' = (outcome', t3')) :
    outcome' = outcome ∧ SameOffArchives home t3 t3' := by
  obtain ⟨result, s, hall⟩ := hself
  obtain ⟨ho, hinside, houtside⟩ := hall ((hs.cleared hf.tried.ready).destination hc)
  obtain ⟨ho', hinside', houtside'⟩ := hall ((hs'.cleared hf'.tried.ready).destination hc)
  rw [hu] at ho hinside houtside
  rw [hu'] at ho' hinside' houtside'
  have hsame := sameOffArchives_staged hb hf hf' hs hs'
  refine ⟨ho'.trans ho.symm, fun k hk => ?_, fun n => ?_⟩
  · by_cases hbelow : isBelow (stagingKey home c) k = true
    · obtain ⟨x, hx, rfl⟩ := isBelow_iff.mp hbelow
      exact (hinside' x hx).trans (hinside x hx).symm
    · rw [Bool.not_eq_true] at hbelow
      exact ((houtside' k hbelow).trans (hsame.off k hk)).trans (houtside k hbelow).symm
  · have hbelow : isBelow (stagingKey home c) (archiveKey home n) = false :=
      isBelow_eq_false fun hp => not_atEntries_archiveKey home c n (atEntries_singleton.mpr hp)
    rw [houtside _ hbelow, houtside' _ hbelow]
    exact hsame.directory n

/-- **Filling the cache ends the same**, with the same tree, before and after the failed calls. -/
theorem fills_same (hself : Archive.SelfContained r.kind data) (hc : IsCacheName c)
    (hfree : h.files.get? (home ++ [c]) = none) (hw : Fills a Good home c r h x h')
    (hw' : Fills a Good home c r g y g') : (∃ e e', x = .error e ∧ y = .error e') ∨
      x = .ok (a.sources.child c) ∧ y = .ok (a.sources.child c) ∧ treeAt home c g'.files = treeAt home c h'.files := by
  rcases hw.after_fetch hf with ⟨hno, e, rfl⟩ | ⟨t, outcome, t3, hs, hu, hrest⟩
  · rcases hw'.after_fetch hf' with ⟨-, e', rfl⟩ | ⟨t', _, _, hs', -⟩
    · exact Or.inl ⟨e, e', rfl, rfl⟩
    · exact absurd ((canStage_fetched hb hf hf').mp hs'.can) hno
  · rcases hw'.after_fetch hf' with ⟨hno', -⟩ | ⟨t', outcome', t3', hs', hu', hrest'⟩
    · exact absurd ((canStage_fetched hb hf hf').mpr hs.can) hno'
    · obtain ⟨rfl, hsame⟩ := sameOffArchives_unpacked hb hf hf' hself hc hs hs' hu hu'
      rcases hrest with ⟨fault, e, rfl, rfl⟩ | ⟨rfl, hrun⟩
      · rcases hrest' with ⟨fault', e', -, rfl⟩ | ⟨ho, -⟩
        · exact Or.inl ⟨e, e', rfl, rfl⟩
        · cases ho
      · rcases hrest' with ⟨fault', e', ho, -⟩ | ⟨-, hrun'⟩
        · cases ho
        right
        -- the place is free in both, and the same is moved there
        have hunp := (hs.cleared hf.tried.ready).unpacked hself.confined hc hu
        have hunp' := (hs'.cleared hf'.tried.ready).unpacked hself.confined hc hu'
        have hplace := get?_cached_unpack hself.confined hc hf.tried.ready hs hu
        have hplace' := get?_cached_unpack hself.confined hc hf'.tried.ready hs' hu'
        have harch := hf.hasArchive_unpack hself.confined hc hs hu
        have harch' := hf'.hasArchive_unpack hself.confined hc hs' hu'
        obtain ⟨hbelow, hdown, harchive, -⟩ := cachedKey_ne hc home []
        have hfree1 : h1.files.get? (home ++ [c]) = none :=
          (hf.tried.frame _ hbelow hdown (harchive _)).trans hfree
        have hfree1' : g1.files.get? (home ++ [c]) = none :=
          (agreeOff_fetched hb hf hf' _ (not_atResidue_cached hc home [] c)).trans hfree1
        rcases placed_or_blocked hunp hc harch hrun with ⟨t4, hp, -, rfl, rfl⟩ | ⟨hblock, -⟩
        · rcases placed_or_blocked hunp' hc harch' hrun' with ⟨t4', hp', -, rfl, rfl⟩ | ⟨hblock', -⟩
          · refine ⟨rfl, rfl, funext fun k => ?_⟩
            have hcwd : g1.cwd = h1.cwd := (hf'.tried.cwd.trans hb.cwd).trans hf.tried.cwd.symm
            unfold treeAt
            rw [get?_erase_archive t4' home _ hc.ne_downloads, get?_erase_archive t4 home _ hc.ne_downloads]
            refine (hp'.cached k).trans (Eq.trans ?_ (hp.cached k).symm)
            show t3'.get? (stagingKey home c ++ movedTop t3' g1.cwd _ _ ++ k) =
              t3.get? (stagingKey home c ++ movedTop t3 h1.cwd _ _ ++ k)
            rw [hcwd, hsame.movedTop_eq hunp.ready (hcwd ▸ hunp'.ready) c, List.append_assoc]
            exact hsame.get?_staging c _
          · exact absurd (hplace'.trans hfree1') hblock'
        · exact absurd (hplace.trans hfree1) hblock

end Twice

/-! ## Main result -/

/-- An error of fetching is one of the download or of the files. -/
theorem failed_fetchArchive (hf : a.fetcher.Saves Good) {e : SourceError}
    (hrun : Runs (a.fetchArchive r).outcome h (.error e) h') :
    (∃ message, e = .download r.url message) ∨ ∃ p error, e = .files p error := by
  unfold fetchArchive at hrun
  rcases runs_filesAt_bind_iff.mp hrun with ⟨t, -, hrun⟩ | ⟨error, -, he, -⟩
  · rcases Attempt.runs_bind.mp hrun with ⟨_, h2, hlog, hrun⟩ | ⟨e', hlog, -⟩
    · exact (hf.failed hrun).imp_right fun ⟨error, he⟩ => ⟨_, error, he⟩
    · cases (Attempt.runs_modify.mp hlog).1
  · cases he
    exact Or.inr ⟨_, _, rfl⟩

/-- Which errors filling the cache has, and what is left when the archive cannot be unpacked. -/
theorem Fills.error_cases {e : SourceError} (hw : Fills a Good home c r h (.error e) h')
    (hf : a.fetcher.Saves Good) (hgood : ∀ kind data, Good kind data → Confined kind data) (hc : IsCacheName c) :
    (∃ message, e = .download r.url message) ∨ (∃ p error, e = .files p error) ∨
      e = .unpacking (a.downloads.child r.fileName) ∧ ∃ data h1, a.Fetched Good home r data h h1 ∧
        h'.read (a.downloads.child r.fileName) = .ok data := by
  cases hw with
  | unmade _ => exact Or.inr (Or.inl ⟨_, _, rfl⟩)
  | unfetched _ hrun => exact (failed_fetchArchive hf hrun).imp_right Or.inl
  | unstaged _ _ => exact Or.inr (Or.inl ⟨_, _, rfl⟩)
  | unpacked _ _ _ hrun => exact Or.inr (Or.inl (files_of_performAll hrun))
  | @spoiled data h1 t t3 fault hf' hs hu =>
    refine Or.inr (Or.inr ⟨rfl, data, h1, hf', ?_⟩)
    have hconf := hgood _ _ hf'.good
    have hready : Ready a.sources h1.cwd home t3 := (hs.cleared hf'.tried.ready).ready_unpack hconf hc hu
    obtain ⟨z, hz⟩ := hready.openRead_archive (hf'.hasArchive_unpack hconf hc hs hu)
    show (t3.openRead h1.cwd _ >>= fun entry => readEntry entry) = .ok data
    rw [hz]
    rfl

/-- A call fails on something else than an operation on files: nothing can be fetched, the download fails,
or the archive cannot be unpacked. -/
theorem failed_call (hf : a.fetcher.Saves Archive.SelfContained) (hat : LiesAt a.sources home h)
    (hc : IsCacheName (cacheName name version)) {e : SourceError} (hout : OutsideFiles e)
    (hrun : Runs (a.tree name version url).outcome h (.error e) h') :
    h'.isThere (a.treePath name version) = false ∧
    (∀ c, IsCacheName c → c ≠ cacheName name version → treeAt home c h'.files = treeAt home c h.files) ∧
    ((∃ n, e = .missingSource n) ∨ (∃ f, e = .unsupportedArchive f) → h' = h) ∧
    ∀ p, e = .unpacking p → ∃ r data h1, request name url = .ok r ∧ p = a.downloads.child r.fileName ∧
      a.Fetched Archive.SelfContained home r data h h1 ∧ h'.read p = .ok data := by
  have hconf : ∀ kind data, Archive.SelfContained kind data → Confined kind data := fun _ _ hs => hs.confined
  have hends := ends (d := ⟨name, version, url⟩) hat hf hc hrun
  have hbehind := hends.behind hconf hc hout
  cases hends with
  | refused hmiss hreq =>
    refine ⟨hmiss, fun _ _ _ => rfl, fun _ => rfl, ?_⟩
    rintro p rfl
    unfold request at hreq
    split at hreq
    · cases hreq
    · dsimp only at hreq
      split at hreq <;> cases hreq
  | @worked r _ _ hmiss hr hw =>
    have hcases := hw.error_cases hf hconf hc
    refine ⟨?_, fun c' hc' _ => ?_, fun he => ?_, fun p hp => ?_⟩
    · rcases hbehind with rfl | hb
      · exact hmiss
      · exact hb.miss hat hc hmiss
    · rcases hbehind with rfl | hb
      · rfl
      · funext x
        exact hb.get?_cached hc' x
    · exfalso
      rcases hcases with ⟨m, rfl⟩ | ⟨p, error, rfl⟩ | ⟨rfl, -⟩
      · rcases he with ⟨n, he⟩ | ⟨n, he⟩ <;> cases he
      · exact hout _ _ rfl
      · rcases he with ⟨n, he⟩ | ⟨n, he⟩ <;> cases he
    · rcases hcases with ⟨m, rfl⟩ | ⟨p, error, rfl⟩ | ⟨rfl, data, h1, hfetched, hread⟩
      · cases hp
      · cases hp
      · cases hp
        exact ⟨r, data, h1, hr, rfl, hfetched, hread⟩

theorem exists_runs_tree (hmiss : h.isThere (a.treePath name version) = false)
    (hr : request name url = .ok r) (hf : Runs (a.fetchArchive r).outcome h (.ok ()) h1) :
    ∃ x h', Runs (a.tree name version url).outcome h x h' := by
  obtain ⟨x, h', hrest⟩ : ∃ x h', Runs (a.performAll (a.treePath name version) r
      [.reset, .unpack, .place, .discard]).outcome h1 x h' := finishes_performAll _ (by decide) h1
  exact ⟨x, h', (runs_tree_of_miss hmiss).mpr (Or.inr ⟨r, hr, runs_performAll.mpr (Or.inl ⟨h1, hf, hrest⟩)⟩)⟩

/-- **Failed calls do not matter.**  Calls for a library failed, none of them on an operation on files.
Each of them left no tree at its path and every other cached tree as it was; when nothing could be fetched
it left the machine as it was, and when the archive could not be unpacked it left the archive.  A later
call for the library that fetches its archive ends as it would have ended without them: with an error, or
with the path and the same tree. -/
theorem failed_calls_do_not_matter (hf : a.fetcher.Saves Archive.SelfContained)
    (hat : LiesAt a.sources home h) (hc : IsCacheName (cacheName name version)) :
    (∀ {url e h'}, Runs (a.tree name version url).outcome h (.error e) h' → OutsideFiles e →
      h'.isThere (a.treePath name version) = false ∧
      (∀ c, IsCacheName c → c ≠ cacheName name version → treeAt home c h'.files = treeAt home c h.files) ∧
      ((∃ n, e = .missingSource n) ∨ (∃ f, e = .unsupportedArchive f) → h' = h) ∧
      ∀ p, e = .unpacking p → ∃ r data h1, request name url = .ok r ∧ p = a.downloads.child r.fileName ∧
        a.Fetched Archive.SelfContained home r data h h1 ∧ h'.read p = .ok data) ∧
    ∀ {calls g}, a.Calls h calls g →
      (∀ call ∈ calls, call.1.name = name ∧ call.1.version = version ∧
        ∃ e, call.2 = .error e ∧ OutsideFiles e) →
      h.isThere (a.treePath name version) = false →
      ∀ {url r data h1 g1}, request name url = .ok r →
        a.Fetched Archive.SelfContained home r data h h1 → a.Fetched Archive.SelfContained home r data g g1 →
        ∃ x h' y g', Runs (a.tree name version url).outcome h x h' ∧
          Runs (a.tree name version url).outcome g y g' ∧
          ((∃ e e', x = .error e ∧ y = .error e') ∨
            x = .ok (a.treePath name version) ∧ y = .ok (a.treePath name version) ∧
            treeAt home (cacheName name version) g'.files = treeAt home (cacheName name version) h'.files) := by
  refine ⟨fun hrun hout => failed_call hf hat hc hout hrun, ?_⟩
  intro calls g hcalls hall hmiss url r data h1 g1 hr hfh hfg
  obtain ⟨x, h', hx⟩ := exists_runs_tree hmiss hr hfh.run
  have hbehind := hcalls.behind hf (fun _ _ hs => hs.confined) hat hc fun call hm => by
    obtain ⟨hn, hv, he⟩ := hall call hm
    exact ⟨by rw [Call.cacheName, hn, hv], he⟩
  rcases hbehind with rfl | hb
  · -- the machine is as it was
    refine ⟨x, h', x, h', hx, hx, ?_⟩
    cases x with
    | error e => exact Or.inl ⟨e, e, rfl, rfl⟩
    | ok p =>
      obtain rfl := tree_path hx
      exact Or.inr ⟨rfl, rfl, rfl⟩
  · have hfree := hat.free_of_miss hc.1 hb.ready.zeroFree hmiss
    have hmiss' : g.isThere (a.treePath name version) = false := hb.miss hat hc hmiss
    obtain ⟨y, g', hy⟩ := exists_runs_tree hmiss' hr hfg.run
    refine ⟨x, h', y, g', hx, hy, ?_⟩
    cases ends (d := ⟨name, version, url⟩) hat hf hc hx with
    | hit hit => cases hmiss.symm.trans hit
    | refused _ he => cases hr.symm.trans he
    | worked _ hr1 hw =>
      cases hr.symm.trans hr1
      cases ends (d := ⟨name, version, url⟩) hb.ready.liesAt hf hc hy with
      | hit hit => cases hmiss'.symm.trans hit
      | refused _ he => cases hr.symm.trans he
      | worked _ hr2 hw' =>
        cases hr.symm.trans hr2
        exact fills_same hb hfh hfg hfh.good hc hfree hw hw'

/-! ## Example -/

/-- What is fetched is what lies at the address. -/
theorem fetched_of_serving {bodies : String → List UInt8} {sources : Path}
    (hf : (Fetcher.serving bodies).Saves Good) (hat : LiesAt sources home h) (hr : request name url = .ok r)
    (hrun : Runs (SourceCache.fetchArchive ⟨sources, .serving bodies⟩ r).outcome h (.ok ()) h1) :
    SourceCache.Fetched ⟨sources, .serving bodies⟩ Good home r (bodies r.url) h h1 := by
  have hq := request_eq hr
  have hname : IsEntryName r.fileName.toList := hq.1 ▸ isEntryName_fileNameOf (hq.1 ▸ hq.2)
  have hat' : LiesAt (SourceCache.mk sources (.serving bodies)).sources home h := hat
  rcases hat'.of_fetchArchive hf hq hrun with ⟨e, -, he, -⟩ | ⟨htried, ⟨e, he⟩ | ⟨-, data, hgood, harch⟩⟩
  · cases he
  · cases he
  have hrun' := hrun
  unfold fetchArchive at hrun
  rcases runs_filesAt_bind_iff.mp hrun with ⟨t, hm, hrun⟩ | ⟨error, -, he, -⟩
  · obtain ⟨u, h2, hlog, hrun⟩ := (Attempt.runs_bind.mp hrun).resolve_right fun ⟨e, _, he⟩ => nomatch he
    obtain ⟨-, rfl⟩ := Attempt.runs_modify.mp hlog
    have hready : Ready (SourceCache.mk sources (.serving bodies)).sources h.cwd home t := (hat.ready hm).1
    rcases runs_filesAt_iff.mp hrun with ⟨t', ht', -, rfl⟩ | ⟨e, -, he, -⟩
    · obtain ⟨-, -, -, x, hx⟩ := hready.of_write hname ht'
      obtain rfl := harch.unique ⟨x, hx⟩
      exact ⟨hrun', htried, hgood, harch⟩
    · cases he
  · cases he

/-- Whether an archive could not be unpacked, on a host that then passes a test. -/
def failsUnpacking (a : SourceCache) (name : String) (version url : Option String) (h : Host)
    (p : Host → Bool) : Bool :=
  match (a.tree name version url).outcome.run h with
  | .ok (.error (.unpacking _), h') => p h'
  | _ => false

theorem exists_of_failsUnpacking {p : Host → Bool} (hy : a.failsUnpacking name version url h p = true) :
    ∃ archive h', Runs (a.tree name version url).outcome h (.error (.unpacking archive)) h' ∧ p h' = true := by
  unfold failsUnpacking at hy
  split at hy
  · next archive h' hr => exact ⟨archive, h', hr, hy⟩
  · cases hy

/-- A cache with an archive at one address, and none that can be unpacked at another one. -/
def mended : SourceCache := ⟨⟨"/s"⟩, .serving fun url => if url = "http://h/bad.zip" then [] else zipOfFile⟩

theorem saves_mended : mended.fetcher.Saves Plain := by
  refine Fetcher.saves_serving fun url kind _ => ?_
  show Archive.isPlain kind (if url = "http://h/bad.zip" then [] else zipOfFile) = true
  have hplain : Archive.isPlain kind [] = true ∧ Archive.isPlain kind zipOfFile = true := by
    cases kind <;> decide +kernel
  split
  · exact hplain.1
  · exact hplain.2

/-- A call that gets a tree on a machine without it has fetched its archive. -/
theorem exists_fetched_mended (hf : mended.fetcher.Saves Good) (hat : LiesAt ⟨"/s"⟩ home h)
    (hmiss : h.isThere (mended.treePath name version) = false) (hr : request name url = .ok r) {p : Path}
    (hrun : Runs (mended.tree name version url).outcome h (.ok p) h') :
    ∃ h1, mended.Fetched Good home r (if r.url = "http://h/bad.zip" then [] else zipOfFile) h h1 := by
  rcases (runs_tree_of_miss hmiss).mp hrun with ⟨e, he, -⟩ | ⟨r', hr', hwork⟩
  · cases hr.symm.trans he
  cases hr.symm.trans hr'
  rcases runs_performAll.mp hwork with ⟨h1, hfetch, -⟩ | ⟨e, -, he⟩
  · exact ⟨h1, fetched_of_serving hf hat hr hfetch⟩
  · cases he

/-- A library whose archive could not be unpacked is had from another address, as if that had not been
tried. -/
theorem had_after_failure : ∃ archive g h' g',
    mended.Calls bareSources [(⟨"x", none, some "http://h/bad.zip"⟩, .error (.unpacking archive))] g ∧
    g.isThere (mended.treePath "x" none) = false ∧
    Runs (mended.tree "x" none (some "http://h/x.zip")).outcome bareSources (.ok (mended.treePath "x" none)) h' ∧
    Runs (mended.tree "x" none (some "http://h/x.zip")).outcome g (.ok (mended.treePath "x" none)) g' ∧
    treeAt ["s"] "x" g'.files = treeAt ["s"] "x" h'.files := by
  have hmiss : bareSources.isThere (mended.treePath "x" none) = false := by decide +kernel
  have hc : IsCacheName (cacheName "x" none) := by decide
  obtain ⟨r, hr⟩ : ∃ r, request "x" (some "http://h/x.zip") = .ok r := ⟨⟨_, _, .zip⟩, by rfl⟩
  have hy : mended.yieldsTree "x" none (some "http://h/x.zip") bareSources fun _ => true := by decide +kernel
  have hn : mended.failsUnpacking "x" none (some "http://h/bad.zip") bareSources
      (fun g => mended.yieldsTree "x" none (some "http://h/x.zip") g fun _ => true) = true := by decide +kernel
  obtain ⟨h', hrun, -⟩ := exists_of_yieldsTree hy
  obtain ⟨archive, g, hfail, hy'⟩ := exists_of_failsUnpacking hn
  obtain ⟨g', hrun', -⟩ := exists_of_yieldsTree hy'
  have hcalls := Calls.nil.snoc ⟨"x", none, some "http://h/bad.zip"⟩ hfail
  have hself := saves_mended.mono fun _ _ => Archive.selfContained_of_isPlain
  obtain ⟨hone, hmany⟩ := failed_calls_do_not_matter hself liesAt_bareSources hc
  have hmissg := (hone hfail nofun).1
  obtain ⟨h1, hfh⟩ := exists_fetched_mended hself liesAt_bareSources hmiss hr hrun
  obtain ⟨hatg, -⟩ := hcalls.liesAt saves_mended liesAt_bareSources fun call hm => by
    rw [List.mem_singleton.mp hm]
    exact hc
  obtain ⟨g1, hfg⟩ := exists_fetched_mended hself hatg hmissg hr hrun'
  obtain ⟨x, h2, y, g2, hx, hy, hsame⟩ := hmany hcalls (fun call hm => by
    rw [List.mem_singleton.mp hm]
    exact ⟨rfl, rfl, _, rfl, nofun⟩) hmiss hr hfh hfg
  obtain ⟨rfl, rfl⟩ := hx.unique hrun
  obtain ⟨rfl, rfl⟩ := hy.unique hrun'
  rcases hsame with ⟨e, e', he, -⟩ | ⟨-, -, htree⟩
  · cases he
  · exact ⟨archive, g, h2, g2, hcalls, hmissg, hx, hy, htree⟩

/-- A zip archive of a link `l` to `../b`, an empty file `l/f.c`, and a file `../z` that is refused. -/
def zipThroughLink : List UInt8 :=
  [80, 75, 3, 4, 20, 0, 0, 0, 0, 0, 0, 0, 33, 0, 226, 84, 218, 226, 4, 0, 0, 0, 4, 0, 0, 0, 1, 0, 0, 0,
  108, 46, 46, 47, 98, 80, 75, 3, 4, 20, 0, 0, 0, 0, 0, 0, 0, 33, 0, 0, 0, 0, 0, 0, 0, 0, 0, 0, 0, 0,
  0, 5, 0, 0, 0, 108, 47, 102, 46, 99, 80, 75, 3, 4, 20, 0, 0, 0, 0, 0, 0, 0, 33, 0, 0, 0, 0, 0, 0, 0,
  0, 0, 0, 0, 0, 0, 4, 0, 0, 0, 46, 46, 47, 122, 80, 75, 1, 2, 20, 3, 20, 0, 0, 0, 0, 0, 0, 0, 33, 0,
  226, 84, 218, 226, 4, 0, 0, 0, 4, 0, 0, 0, 1, 0, 0, 0, 0, 0, 0, 0, 0, 0, 0, 0, 255, 161, 0, 0, 0, 0,
  108, 80, 75, 1, 2, 20, 3, 20, 0, 0, 0, 0, 0, 0, 0, 33, 0, 0, 0, 0, 0, 0, 0, 0, 0, 0, 0, 0, 0, 5, 0,
  0, 0, 0, 0, 0, 0, 0, 0, 0, 0, 164, 129, 35, 0, 0, 0, 108, 47, 102, 46, 99, 80, 75, 1, 2, 20, 3, 20,
  0, 0, 0, 0, 0, 0, 0, 33, 0, 0, 0, 0, 0, 0, 0, 0, 0, 0, 0, 0, 0, 4, 0, 0, 0, 0, 0, 0, 0, 0, 0, 0, 0,
  164, 129, 70, 0, 0, 0, 46, 46, 47, 122, 80, 75, 5, 6, 0, 0, 0, 0, 3, 0, 3, 0, 148, 0, 0, 0, 104, 0,
  0, 0, 0, 0]

/-- A machine with one cached tree, `b`, of one file. -/
def hostWithTree : Host :=
  let sources := FileTree.empty.put ["s"] .directory
  let tree := sources.put ["s", "b"] .directory
  { bareHost with files := tree.put ["s", "b", "f.c"] (.file (.bytes [0]) false) }

theorem get?_hostWithTree_ne (k : Key) (target : String) : hostWithTree.files.get? k ≠ some (.link target) := by
  intro he
  have hm := mem_entries_of_get? he (by rintro rfl; cases he)
  have hentries : hostWithTree.files.entries = [(["s", "b", "f.c"], .file (.bytes [0]) false),
      (["s", "b"], .directory), (["s"], .directory)] := by decide +kernel
  rw [hentries] at hm
  simp at hm

theorem liesAt_hostWithTree : LiesAt ⟨"/s"⟩ ["s"] hostWithTree := by
  refine liesAt_of_leads ?_ (leadsFromOutside_top (by decide +kernel))
    (fun _ target => get?_hostWithTree_ne _ target) fun _ target => get?_hostWithTree_ne _ target
  have hs := wellFormed_empty.put (d := []) (n := "s") (by decide) rfl (fun _ => rfl) nofun
  have hb := hs.put (d := ["s"]) (n := "b") (by decide) (by decide +kernel) (fun _ => rfl) nofun
  refine hb.put (d := ["s", "b"]) (n := "f.c") (by decide) (by decide +kernel) (fun he => ?_) nofun
  exact absurd he (by decide +kernel)

/-- Failed calls do matter to another tree when an archive is unpacked through a link of its own, and to
their own tree when the sources are named by a path through a directory that is not there: the call makes
that directory, and then a tree is at its path. -/
theorem failed_calls_reach_trees :
    (∃ archive g, LiesAt ⟨"/s"⟩ ["s"] hostWithTree ∧
      Runs ((filledFrom zipThroughLink).tree "x" none (some "http://h/x.zip")).outcome hostWithTree
        (.error (.unpacking archive)) g ∧ treeAt ["s"] "b" g.files ≠ treeAt ["s"] "b" hostWithTree.files) ∧
    ∃ archive g, (∀ k target, hostWithTree.files.get? k ≠ some (.link target)) ∧
      Runs ((SourceCache.mk ⟨"/w/../s"⟩ (.delivering [])).tree "b" none (some "http://h/b.zip")).outcome
        hostWithTree (.error (.unpacking archive)) g ∧
      g.isThere ((SourceCache.mk ⟨"/w/../s"⟩ (.delivering [])).treePath "b" none) = true := by
  constructor
  · have hn : (filledFrom zipThroughLink).failsUnpacking "x" none (some "http://h/x.zip") hostWithTree
        (fun g => treeAt ["s"] "b" g.files ["f.c"] == some (.file (.bytes []) false)) = true := by decide +kernel
    obtain ⟨archive, g, hrun, hg⟩ := exists_of_failsUnpacking hn
    refine ⟨archive, g, liesAt_hostWithTree, hrun, fun he => ?_⟩
    have hfile := (congrFun he ["f.c"]).symm.trans (eq_of_beq hg)
    exact absurd hfile (by decide +kernel)
  · have hn : (SourceCache.mk ⟨"/w/../s"⟩ (.delivering [])).failsUnpacking "b" none (some "http://h/b.zip")
        hostWithTree (fun g => g.isThere
          ((SourceCache.mk ⟨"/w/../s"⟩ (.delivering [])).treePath "b" none)) = true := by decide +kernel
    obtain ⟨archive, g, hrun, hg⟩ := exists_of_failsUnpacking hn
    exact ⟨archive, g, get?_hostWithTree_ne, hrun, hg⟩

end SourceCache

end CipherCorpus
