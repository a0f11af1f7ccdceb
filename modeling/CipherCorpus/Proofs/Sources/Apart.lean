import CipherCorpus.Proofs.Sources.Cached

/-!
# Callers of different trees

Callers look for trees with different cache names at once.  A step of one caller changes the sources in
its zone only (`Moves`): the archive, the staging directory and the place of its tree.  When the archives
have different file names as well, the zones lie apart, so what one caller has got to (`Underway`) is not
touched by the steps of the others, and every caller that gets a path has there what the archive that it
fetched itself is unpacked to (`callers_apart_do_not_mix`).

The downloads are one directory for all of them.  Where two archives have one file name, a caller may
unpack what another one has fetched, and a library named `.downloads` finds the directory instead of a
tree (`callers_mix`).
-/

namespace CipherCorpus.SourceCache

open FileTree CipherCorpus.Path
open Archive (Kind isPlain extraction stripped)

variable {a : SourceCache} {r r' : Request} {home k : Key} {c c' : String} {h h' : Host} {data : List UInt8}
  {works rest : List Work} {w : Work} {x : Except SourceError Unit} {fileName : String}

/-! ## Zones -/

/-- What filling the cache with a tree changes: the archive, the staging directory and the place of the
tree. -/
def InZone (home : Key) (c fileName : String) (k : Key) : Prop :=
  k = archiveKey home fileName ∨ AtEntries home [".staging-" ++ c, c] k

/-- A step changes the sources in its zone only, and they are ready then, unless the step changes
nothing. -/
structure Moves (a : SourceCache) (home : Key) (c fileName : String) (h h' : Host) : Prop where
  cwd : h'.cwd = h.cwd
  ready : h' = h ∨ Ready a.sources h'.cwd home h'.files
  frame : ∀ k, isBelow home k = true → k ≠ home ++ [".downloads"] → ¬ InZone home c fileName k →
    h'.files.get? k = h.files.get? k

theorem Moves.refl (a : SourceCache) (home : Key) (c fileName : String) (h : Host) :
    Moves a home c fileName h h := ⟨rfl, Or.inl rfl, fun _ _ _ _ => rfl⟩

theorem Moves.of_ready {t : FileTree} (hr : Ready a.sources h.cwd home t)
    (hag : AgreeOff (InZone home c fileName) h.files t) : Moves a home c fileName h { h with files := t } :=
  ⟨rfl, Or.inr hr, fun k _ _ hk => hag k hk⟩

theorem not_atEntries_archive (hc : IsCacheName c) (home : Key) (fileName : String) :
    ¬ AtEntries home [".staging-" ++ c, c] (archiveKey home fileName) := by
  rw [archiveKey_eq, atEntries_iff, List.mem_cons, List.mem_singleton, not_or]
  exact ⟨(staging_ne_downloads c).symm, hc.ne_downloads.symm⟩

theorem not_inZone_archive (hc : IsCacheName c) (hne : r.fileName ≠ fileName) :
    ¬ InZone home c fileName (archiveKey home r.fileName) := by
  rintro (he | hk)
  · simp [archiveKey] at he
    exact hne he
  · exact not_atEntries_archive hc home _ hk

theorem not_inZone_staging (hc : IsCacheName c) (hne : c' ≠ c) (y : Key) :
    ¬ InZone home c fileName (stagingKey home c' ++ y) := by
  rw [stagingKey, List.append_assoc]
  rintro (he | hk)
  · rw [archiveKey_eq, List.append_cancel_left_eq] at he
    exact staging_ne_downloads c' (List.cons.inj he).1
  · rw [List.singleton_append, atEntries_iff, List.mem_cons, List.mem_singleton] at hk
    rcases hk with hk | hk
    · exact hne (staging_inj.mp hk)
    · exact hc.ne_staging c' hk.symm

theorem not_inZone_cached (hc' : IsCacheName c') (hne : c' ≠ c) (y : Key) :
    ¬ InZone home c fileName (home ++ c' :: y) := by
  rintro (he | hk)
  · exact (cachedKey_ne hc' home y).2.2.1 fileName he
  · rw [atEntries_iff, List.mem_cons, List.mem_singleton] at hk
    rcases hk with hk | hk
    · exact hc'.ne_staging c hk
    · exact hne hk

namespace Moves

variable (hm : Moves a home c fileName h h')
include hm

theorem get?_archive (hc : IsCacheName c) (hne : r.fileName ≠ fileName) :
    h'.files.get? (archiveKey home r.fileName) = h.files.get? (archiveKey home r.fileName) :=
  hm.frame _ (isBelow_archiveKey home _)
    (fun he => absurd (congrArg List.length he) (by simp [archiveKey])) (not_inZone_archive hc hne)

theorem get?_staging (hc : IsCacheName c) (hne : c' ≠ c) (y : Key) :
    h'.files.get? (stagingKey home c' ++ y) = h.files.get? (stagingKey home c' ++ y) := by
  refine hm.frame _ (isBelow_of_append _ (isBelow_stagingKey home c')) (fun he => ?_)
    (not_inZone_staging hc hne y)
  rw [stagingKey, List.append_assoc, List.append_cancel_left_eq] at he
  exact staging_ne_downloads c' (List.cons.inj he).1

theorem treeAt_eq (hc' : IsCacheName c') (hne : c' ≠ c) : treeAt home c' h'.files = treeAt home c' h.files := by
  funext y
  obtain ⟨hbelow, hdown, -⟩ := cachedKey_ne hc' home y
  exact hm.frame _ hbelow hdown (not_inZone_cached hc' hne y)

theorem ready_of_ready (hr : Ready a.sources h.cwd home h.files) : Ready a.sources h'.cwd home h'.files := by
  rcases hm.ready with rfl | hr'
  · exact hr
  · exact hr'

end Moves

/-! ## On the way -/

/-- How far filling the cache has come, by the steps that remain. -/
inductive Underway (a : SourceCache) (home : Key) (c : String) (r : Request) (data : List UInt8) (h : Host) :
    List Work → Prop where
  | fetched : Ready a.sources h.cwd home h.files → HasArchive home r data h.files →
      treeAt home c h.files [] = none → Underway a home c r data h [.reset, .unpack, .place, .discard]
  | cleared : Cleared a.sources h.cwd home c h.files → HasArchive home r data h.files →
      treeAt home c h.files [] = none → Underway a home c r data h [.unpack, .place, .discard]
  | unpacked : a.Unpacked home c h → (extraction r.kind data).1 = .ok () →
      (∀ y, h.files.get? (stagingKey home c ++ y) = (extraction r.kind data).2.get? y) →
      HasArchive home r data h.files → treeAt home c h.files [] = none →
      Underway a home c r data h [.place, .discard]
  | placed : Ready a.sources h.cwd home h.files → (extraction r.kind data).1 = .ok () →
      treeAt home c h.files = stripped (extraction r.kind data).2 → HasArchive home r data h.files →
      Underway a home c r data h [.discard]
  | done : Ready a.sources h.cwd home h.files → (extraction r.kind data).1 = .ok () →
      treeAt home c h.files = stripped (extraction r.kind data).2 → Underway a home c r data h []

/-- A step of the caller leads on, or fails; it changes the zone of the caller only. -/
theorem Underway.step (hu : Underway a home c r data h (w :: rest)) (hp : isPlain r.kind data = true)
    (hc : IsCacheName c) (hrun : Runs (a.perform (a.sources.child c) r w).outcome h x h') :
    Moves a home c r.fileName h h' ∧ (x = .ok () → Underway a home c r data h' rest) := by
  have hconf := Archive.confined_of_isPlain hp
  have hstage : ∀ k, AtEntries home [".staging-" ++ c] k → InZone home c r.fileName k :=
    fun _ hk => Or.inr (atEntries_cons hk)
  have hfree : ∀ {t t' : FileTree}, AgreeOff (AtEntries home [".staging-" ++ c]) t t' →
      treeAt home c t [] = none → treeAt home c t' [] = none := fun hag hnone =>
    (hag _ ((cachedKey_ne hc home []).2.2.2 c)).trans hnone
  cases hu with
  | fetched hr ha hnone =>
    rcases hr.of_resetStaging hc hrun with ⟨t, hs, -, rfl⟩ | ⟨-, rfl, e, rfl⟩
    · exact ⟨.of_ready (hs.ready hr) (hs.frame.mono hstage), fun _ =>
        .cleared (hs.cleared hr) (hs.hasArchive ha) (hfree hs.frame hnone)⟩
    · exact ⟨.refl .., nofun⟩
  | cleared hcl ha hnone =>
    obtain ⟨y, hopen⟩ := hcl.ready.openRead_archive ha
    rcases hunp : (Archive.unpack r.kind h.cwd data (scratchPath (a.sources.child c))).run.run h.files with
      ⟨outcome, t⟩
    obtain ⟨rfl, rfl⟩ := runs_unpack hopen hunp hrun
    have hag := hcl.agreeOff_unpack hconf hc hunp
    refine ⟨.of_ready (hcl.ready_unpack hconf hc hunp) (hag.mono hstage), fun hok => ?_⟩
    obtain ⟨hext, hinside, -⟩ := hcl.mirrored hp hc hunp
    refine .unpacked (hcl.unpacked hconf hc hunp) ?_ hinside (hcl.hasArchive_unpack hconf hc hunp ha)
      (hfree hag hnone)
    rw [hext]
    exact Attempt.eq_ok_of_mapError hok
  | unpacked hunp hext hinside ha hnone =>
    rcases hunp.runs_putInPlace hc hrun with ⟨t, hplaced, -, rfl⟩ | ⟨hblock, -⟩
    · have hclear := (Archive.unpack_of_isPlain hp Archive.destination_root).2.clear
      obtain ⟨hready, htree⟩ := hplaced.of_mirrored hunp hc hinside (Archive.wellFormed_extraction _ _) hclear
      refine ⟨.of_ready hready (hplaced.frame.mono fun _ => Or.inr), fun _ => .placed hready hext htree ?_⟩
      exact ha.imp fun _ hy => (hplaced.frame _ (not_atEntries_archive hc home _)).trans hy
    · exact absurd hnone hblock
  | placed hready hext htree ha =>
    obtain ⟨-, rfl⟩ := runs_discard hready.tree hready.zeroFree_downloads hready.leads_downloads ha hrun
    refine ⟨.of_ready (hready.erase_archive ha) ((agreeOff_erase _ _).mono fun _ => Or.inl), fun _ =>
      .done (hready.erase_archive ha) hext (Eq.trans (funext fun y => ?_) htree)⟩
    exact get?_erase_archive h.files home _ hc.ne_downloads y

theorem Underway.ready (hu : Underway a home c r data h works) : Ready a.sources h.cwd home h.files := by
  cases hu with
  | fetched hr _ _ => exact hr
  | cleared hcl _ _ => exact hcl.ready
  | unpacked hunp _ _ _ _ => exact hunp.ready
  | placed hr _ _ _ => exact hr
  | done hr _ _ => exact hr

/-- A step of another caller does not touch it. -/
theorem Underway.of_moves (hu : Underway a home c r data h works) (hm : Moves a home c' fileName h h')
    (hc : IsCacheName c) (hc' : IsCacheName c') (hne : c ≠ c') (hfile : r.fileName ≠ fileName) :
    Underway a home c r data h' works := by
  have hready := hm.ready_of_ready hu.ready
  have harch : HasArchive home r data h.files → HasArchive home r data h'.files := fun ha =>
    ha.imp fun _ hy => (hm.get?_archive hc' hfile).trans hy
  have htree := hm.treeAt_eq hc hne
  have hstage := hm.get?_staging hc' hne
  have hdir : h.files.get? (stagingKey home c) = some .directory →
      h'.files.get? (stagingKey home c) = some .directory := fun hd => by
    have := hstage []
    rw [List.append_nil] at this
    exact this.trans hd
  cases hu with
  | fetched _ ha hnone => exact .fetched hready (harch ha) (htree ▸ hnone)
  | cleared hcl ha hnone =>
    exact .cleared ⟨hready, hcl.fits, hdir hcl.directory, fun y hy => (hstage y).trans (hcl.empty y hy)⟩
      (harch ha) (htree ▸ hnone)
  | unpacked hunp hext hinside ha hnone =>
    exact .unpacked ⟨hready, hunp.fits, hdir hunp.directory⟩ hext (fun y => (hstage y).trans (hinside y))
      (harch ha) (htree ▸ hnone)
  | placed _ hext hcached ha => exact .placed hready hext (htree.trans hcached) (harch ha)
  | done _ hext hcached => exact .done hready hext (htree.trans hcached)

/-! ## Callers -/

section Crew

variable {n : Nat} {calls : Fin n → Call} {start : Host} {trace : List (Fin n × Move)} {s s' : Crew n}
  {i j : Fin n} {m : Move} {served served' : Request → List UInt8 → Prop} {stage : Stage}

/-- In a step of the run caller `i` has fetched these data. -/
def Served (a : SourceCache) (home : Key) (calls : Fin n → Call) (start : Host) (trace : List (Fin n × Move))
    (i : Fin n) (r : Request) (data : List UInt8) : Prop :=
  isPlain r.kind data = true ∧ ∃ before s1 s2, (before ++ [(i, .perform .fetch)]) <+: trace ∧
    (Crew.starting n start).Reaches a calls before s1 ∧ s1.advance a calls i = some (.perform .fetch, s2) ∧
    HasArchive home r data s2.host.files

theorem Served.concat (h : Served a home calls start trace i r data) (step : Fin n × Move) :
    Served a home calls start (trace ++ [step]) i r data := by
  obtain ⟨hp, before, s1, s2, hpre, hrest⟩ := h
  exact ⟨hp, before, s1, s2, hpre.trans (List.prefix_append _ _), hrest⟩

/-- No tree is at the place of a caller, if the path of the sources can be one. -/
def Free (a : SourceCache) (home : Key) (c : String) (h : Host) : Prop :=
  ZeroFree a.sources.text → treeAt home c h.files [] = none

/-- A path is the one that was asked for, and the tree of an archive that was fetched for it is there. -/
def Answered (a : SourceCache) (home : Key) (d : Call) (served : Request → List UInt8 → Prop) (h : Host)
    (answer : Except SourceError Path) : Prop :=
  ∀ p, answer = .ok p → p = a.treePath d.name d.version ∧
    ∃ r data, request d.name d.url = .ok r ∧ served r data ∧ Underway a home d.cacheName r data h []

/-- What is there for a caller at a stage: nothing of the tree before it has fetched, then what its work
has come to, and at the end of the work the tree. -/
def Stage.Sound (a : SourceCache) (home : Key) (d : Call) (served : Request → List UInt8 → Prop) (h : Host) :
    Stage → Prop
  | .arriving | .waiting _ | .holding _ => Free a home d.cacheName h
  | .working _ r w rest => request d.name d.url = .ok r ∧
      (w :: rest = filling ∧ Free a home d.cacheName h ∨
        ∃ data, served r data ∧ Underway a home d.cacheName r data h (w :: rest))
  | .leaving _ answer | .returned answer => Answered a home d served h answer

theorem Answered.mono {d : Call} {answer : Except SourceError Path} (hs : Answered a home d served h answer)
    (hserved : ∀ r data, served r data → served' r data) : Answered a home d served' h answer := by
  intro p hp
  obtain ⟨hpath, r, data, hr, hd, hu⟩ := hs p hp
  exact ⟨hpath, r, data, hr, hserved _ _ hd, hu⟩

theorem Stage.Sound.mono {d : Call} (hs : stage.Sound a home d served h)
    (hserved : ∀ r data, served r data → served' r data) : stage.Sound a home d served' h := by
  cases stage with
  | arriving => exact hs
  | waiting lock => exact hs
  | holding lock => exact hs
  | working lock r w rest =>
    exact ⟨hs.1, hs.2.imp_right fun ⟨data, hd, hu⟩ => ⟨data, hserved _ _ hd, hu⟩⟩
  | leaving lock answer => exact Answered.mono hs hserved
  | returned answer => exact Answered.mono hs hserved

section OfMoves

variable {d : Call} (hm : Moves a home c' fileName h h') (hc : IsCacheName d.cacheName) (hc' : IsCacheName c')
  (hne : d.cacheName ≠ c') (hfile : ∀ r, request d.name d.url = .ok r → r.fileName ≠ fileName)
include hm hc hne

theorem Free.of_moves (hf : Free a home d.cacheName h) : Free a home d.cacheName h' := fun hz => by
  rw [hm.treeAt_eq hc hne]
  exact hf hz

include hc' hfile

theorem Answered.of_moves {answer : Except SourceError Path} (hs : Answered a home d served h answer) :
    Answered a home d served h' answer := by
  intro p hp
  obtain ⟨hpath, r, data, hr, hd, hu⟩ := hs p hp
  exact ⟨hpath, r, data, hr, hd, hu.of_moves hm hc hc' hne (hfile r hr)⟩

/-- A step of another caller keeps what is there. -/
theorem Stage.Sound.of_moves (hs : stage.Sound a home d served h) : stage.Sound a home d served h' := by
  cases stage with
  | arriving => exact Free.of_moves hm hc hne hs
  | waiting lock => exact Free.of_moves hm hc hne hs
  | holding lock => exact Free.of_moves hm hc hne hs
  | working lock r w rest =>
    refine ⟨hs.1, hs.2.imp (fun ⟨hw, hf⟩ => ⟨hw, Free.of_moves hm hc hne hf⟩) fun ⟨data, hd, hu⟩ => ?_⟩
    exact ⟨data, hd, hu.of_moves hm hc hc' hne (hfile r hs.1)⟩
  | leaving lock answer => exact Answered.of_moves hm hc hc' hne hfile hs
  | returned answer => exact Answered.of_moves hm hc hc' hne hfile hs

end OfMoves

/-- A caller that goes on has work or the tree. -/
theorem Stage.sound_toDo {d : Call} (lock : Nat) (hr : request d.name d.url = .ok r) (hd : served r data)
    (hu : Underway a home d.cacheName r data h works) :
    (Stage.toDo lock r (a.treePath d.name d.version) works).Sound a home d served h := by
  cases works with
  | nil =>
    intro p hp
    cases hp
    exact ⟨rfl, r, data, hr, hd, hu⟩
  | cons w rest => exact ⟨hr, Or.inr ⟨data, hd, hu⟩⟩

/-- Callers of different trees, which would be fetched into different files. -/
structure Apart (calls : Fin n → Call) : Prop where
  names : ∀ i, IsCacheName (calls i).cacheName
  caches : ∀ i j, i ≠ j → (calls i).cacheName ≠ (calls j).cacheName
  files : ∀ i j, i ≠ j → ∀ r r', request (calls i).name (calls i).url = .ok r →
    request (calls j).name (calls j).url = .ok r' → r.fileName ≠ r'.fileName

/-- What every run of callers apart keeps. -/
structure Orderly (a : SourceCache) (home : Key) (calls : Fin n → Call) (start : Host)
    (trace : List (Fin n × Move)) (s : Crew n) : Prop where
  liesAt : LiesAt a.sources home s.host
  begun : s.host = start ∨ Ready a.sources s.host.cwd home s.host.files
  stages : ∀ i, (s.stages i).Sound a home (calls i) (Served a home calls start trace i) s.host

namespace Orderly

/-- A step that leaves the machine as it is concerns its caller only. -/
theorem of_same (ho : Orderly a home calls start trace s) (ha : s.Advances a calls i m s')
    (hhost : s'.host = s.host)
    (hi : (s'.stages i).Sound a home (calls i) (Served a home calls start trace i) s.host) :
    Orderly a home calls start (trace ++ [(i, m)]) s' := by
  refine ⟨hhost ▸ ho.liesAt, hhost ▸ ho.begun, ?_⟩
  rw [hhost]
  exact fun j => (ha.forall_stages (P := fun j stage =>
    stage.Sound a home (calls j) (Served a home calls start trace j) s.host) hi ho.stages j).mono
      fun _ _ hd => hd.concat _

/-- A step in the zone of its caller does not concern the others. -/
theorem of_moves (hap : Apart calls) (ho : Orderly a home calls start trace s)
    (ha : s.Advances a calls i m s') (hr : request (calls i).name (calls i).url = .ok r)
    (hm : Moves a home (calls i).cacheName r.fileName s.host s'.host)
    (hi : (s'.stages i).Sound a home (calls i) (Served a home calls start (trace ++ [(i, m)]) i) s'.host) :
    Orderly a home calls start (trace ++ [(i, m)]) s' where
  liesAt := by
    rcases hm.ready with he | hready
    · exact he ▸ ho.liesAt
    · exact hready.liesAt
  begun := by
    rcases hm.ready with he | hready
    · exact he ▸ ho.begun
    · exact Or.inr hready
  stages j := by
    by_cases hj : j = i
    · subst hj
      exact hi
    · rw [ha.stages_ne hj]
      exact ((ho.stages j).of_moves hm (hap.names j) (hap.names i) (hap.caches j i hj)
        fun r' hr' => hap.files j i hj r' r hr' hr).mono fun _ _ hd => hd.concat _

/-- No caller finds a tree where none was at the start. -/
theorem not_hit (ho : Orderly a home calls start trace s) (hc : IsCacheName (calls i).cacheName)
    (hmiss : start.isThere (a.treePath (calls i).name (calls i).version) = false)
    (hfree : Free a home (calls i).cacheName s.host) :
    s.host.isThere (a.treePath (calls i).name (calls i).version) = false := by
  rcases ho.begun with he | hready
  · rw [he]
    exact hmiss
  · exact Bool.eq_false_of_not_eq_true fun hit => (hready.isThere_iff hc.1).mp hit (hfree hready.zeroFree)

/-- Fetching changes the zone of the caller, and brings an archive when it succeeds. -/
theorem moves_fetch (hat : LiesAt a.sources home h) (hf : a.fetcher.Saves Plain) {d : Call}
    (hr : request d.name d.url = .ok r) (hc : IsCacheName d.cacheName) (hfree : Free a home d.cacheName h)
    (hrun : Runs (a.perform (a.treePath d.name d.version) r .fetch).outcome h x h') :
    Moves a home d.cacheName r.fileName h h' ∧ (x = .ok () → ∃ data, isPlain r.kind data = true ∧
      HasArchive home r data h'.files ∧ Underway a home d.cacheName r data h' [.reset, .unpack, .place, .discard]) := by
  rcases hat.of_fetchArchive hf (request_eq hr) hrun with ⟨e, -, rfl, rfl⟩ | ⟨ht, hx⟩
  · exact ⟨.refl .., nofun⟩
  refine ⟨⟨ht.cwd, Or.inr ht.ready, fun k hk hd hz => ht.frame k hk hd fun he => hz (Or.inl he)⟩, fun hok => ?_⟩
  rcases hx with ⟨e, he⟩ | ⟨-, data, hgood, harch⟩
  · cases hok.symm.trans he
  · obtain ⟨hbelow, hdown, hne, -⟩ := cachedKey_ne hc home []
    exact ⟨data, hgood, harch, .fetched ht.ready harch
      ((ht.frame _ hbelow hdown (hne _)).trans (hfree ht.ready.zeroFree))⟩

/-- What a step keeps. -/
theorem step (hf : a.fetcher.Saves Plain) (hap : Apart calls)
    (hmiss : ∀ i, start.isThere (a.treePath (calls i).name (calls i).version) = false)
    (hr : (Crew.starting n start).Reaches a calls trace s) (ho : Orderly a home calls start trace s)
    (hadv : s.advance a calls i = some (m, s')) : Orderly a home calls start (trace ++ [(i, m)]) s' := by
  have ha := Crew.advances_of_advance hadv
  have hi := ho.stages i
  have hcase := ha
  cases ha with
  | known hs _ =>
    rw [hs] at hi
    exact ho.of_same hcase rfl (by rw [Crew.setStage_self]; exact hi)
  | new hs _ =>
    rw [hs] at hi
    exact ho.of_same hcase rfl (by rw [Crew.setStage_self]; exact hi)
  | take hs _ =>
    rw [hs] at hi
    exact ho.of_same hcase rfl (by rw [Crew.setStage_self]; exact hi)
  | hit hs hit =>
    rw [hs] at hi
    cases hit.symm.trans (ho.not_hit (hap.names i) (hmiss i) hi)
  | miss hs _ hreq =>
    rw [hs] at hi
    exact ho.of_same hcase rfl (by rw [Crew.setStage_self]; exact ⟨hreq, Or.inl ⟨rfl, hi⟩⟩)
  | refused hs _ _ =>
    exact ho.of_same hcase rfl (by rw [Crew.setStage_self]; exact nofun)
  | release hs =>
    rw [hs] at hi
    exact ho.of_same hcase rfl (by rw [Crew.setStage_self]; exact hi)
  | @done lock r w rest h hs hw =>
    rw [hs] at hi
    obtain ⟨hreq, ⟨hfill, hfree⟩ | ⟨data, hd, hu⟩⟩ := hi
    · cases hfill
      obtain ⟨hm, hnext⟩ := moves_fetch ho.liesAt hf hreq (hap.names i) hfree hw
      obtain ⟨data, hp, harch, hu⟩ := hnext rfl
      refine ho.of_moves hap hcase hreq hm ?_
      rw [Crew.setStage_self]
      exact Stage.sound_toDo lock hreq ⟨hp, trace, s, _, List.prefix_refl _, hr, hadv, harch⟩ hu
    · obtain ⟨hm, hnext⟩ := hu.step hd.1 (hap.names i) hw
      refine ho.of_moves hap hcase hreq hm ?_
      rw [Crew.setStage_self]
      exact Stage.sound_toDo lock hreq (hd.concat _) (hnext rfl)
  | @failed lock r w rest e h hs hw =>
    rw [hs] at hi
    have hend : ((({ s with host := h }).setStage i (.leaving lock (.error e))).stages i).Sound a home (calls i)
        (Served a home calls start (trace ++ [(i, Move.perform w)]) i) h := by
      rw [Crew.setStage_self]
      exact nofun
    obtain ⟨hreq, ⟨hfill, hfree⟩ | ⟨data, hd, hu⟩⟩ := hi
    · cases hfill
      exact ho.of_moves hap hcase hreq (moves_fetch ho.liesAt hf hreq (hap.names i) hfree hw).1 hend
    · exact ho.of_moves hap hcase hreq (hu.step hd.1 (hap.names i) hw).1 hend

/-- What every run keeps. -/
theorem of_reaches (hf : a.fetcher.Saves Plain) (hap : Apart calls)
    (hmiss : ∀ i, start.isThere (a.treePath (calls i).name (calls i).version) = false)
    (hat : LiesAt a.sources home start) (hr : (Crew.starting n start).Reaches a calls trace s) :
    Orderly a home calls start trace s := by
  induction hr with
  | start => exact ⟨hat, Or.inl rfl, fun i hz => hat.free_of_miss (hap.names i).1 hz (hmiss i)⟩
  | step hr hadv ih => exact ih.step hf hap hmiss hr hadv

end Orderly

/-- **Callers apart do not mix.**  Callers look for trees with different cache names and different names of
their archives, none of which is there at the start.  However their steps are interleaved, when a caller
has returned with a path, the tree there is what the archive is unpacked to that the caller itself has
fetched. -/
theorem callers_apart_do_not_mix (hf : a.fetcher.Saves Plain) (hap : Apart calls)
    (hmiss : ∀ i, start.isThere (a.treePath (calls i).name (calls i).version) = false)
    (hat : LiesAt a.sources home start) (hr : (Crew.starting n start).Reaches a calls trace s) {p : Path}
    (hi : s.stages i = .returned (.ok p)) :
    p = a.treePath (calls i).name (calls i).version ∧
    ∃ r data, request (calls i).name (calls i).url = .ok r ∧ Served a home calls start trace i r data ∧
      (extraction r.kind data).1 = .ok () ∧
      treeAt home (calls i).cacheName s.host.files = stripped (extraction r.kind data).2 := by
  have hsound := (Orderly.of_reaches hf hap hmiss hat hr).stages i
  rw [hi] at hsound
  obtain ⟨hp, r, data, hreq, hd, hu⟩ := hsound p rfl
  cases hu with
  | done _ hext htree => exact ⟨hp, r, data, hreq, hd, hext, htree⟩

/-! ## Examples -/

/-- Callers take steps in the given order, as long as they can. -/
def runCallers (a : SourceCache) (calls : Fin n → Call) : List (Fin n) → Crew n → Option (Crew n)
  | [], s => some s
  | i :: rest, s =>
    match s.advance a calls i with
    | some (_, s') => runCallers a calls rest s'
    | none => none

theorem reaches_of_runCallers {order : List (Fin n)} : ∀ {s s' s0 : Crew n} {trace},
    runCallers a calls order s = some s' → s0.Reaches a calls trace s → ∃ trace, s0.Reaches a calls trace s' := by
  induction order with
  | nil =>
    intro s s' s0 trace h hr
    cases h
    exact ⟨trace, hr⟩
  | cons i rest ih =>
    intro s s' s0 trace h hr
    unfold runCallers at h
    split at h
    · next ha => exact ih h (hr.step ha)
    · cases h

/-- The caller has returned with a path. -/
def Stage.hasPath (p : Path) : Stage → Bool
  | returned (.ok q) => q == p
  | _ => false

theorem Stage.eq_of_hasPath {p : Path} (h : stage.hasPath p = true) : stage = .returned (.ok p) := by
  unfold Stage.hasPath at h
  split at h
  · rw [eq_of_beq h]
  · cases h

/-- A run in a given order passes a test. -/
def comesTo (calls : Fin n → Call) (order : List (Fin n)) (p : Crew n → Bool) : Bool :=
  match runCallers filledFromTwo calls order (Crew.starting n bareSources) with
  | some s => p s
  | none => false

theorem exists_of_comesTo {order : List (Fin n)} {p : Crew n → Bool} (h : comesTo calls order p = true) :
    ∃ trace s, (Crew.starting n bareSources).Reaches filledFromTwo calls trace s ∧ p s = true := by
  unfold comesTo at h
  split at h
  · next s hrun =>
    obtain ⟨trace, hr⟩ := reaches_of_runCallers hrun .start
    exact ⟨trace, s, hr, h⟩
  · cases h

/-- Two callers of different trees, each with an address. -/
def twoCalls (name name' url url' : String) : Fin 2 → Call
  | 0 => ⟨name, none, some url⟩
  | 1 => ⟨name', none, some url'⟩

/-- While a caller is on its way another one fetches; it gets what it has fetched itself. -/
theorem two_callers_apart : ∃ trace s,
    (Crew.starting 2 bareSources).Reaches filledFromTwo
      (twoCalls "x" "y" "http://h/x.zip" "http://h/a.zip") trace s ∧
    s.stages 0 = .returned (.ok ⟨"/s/x"⟩) ∧
    ∃ kind data, treeAt ["s"] "x" s.host.files = stripped (extraction kind data).2 := by
  have hap : Apart (twoCalls "x" "y" "http://h/x.zip" "http://h/a.zip") := by
    have h0 : request "x" (some "http://h/x.zip") = .ok ⟨"http://h/x.zip", "x.zip", .zip⟩ := by rfl
    have h1 : request "y" (some "http://h/a.zip") = .ok ⟨"http://h/a.zip", "a.zip", .zip⟩ := by rfl
    refine ⟨by decide, by decide, fun i j hij r r' hr hr' => ?_⟩
    match i, j, hij, hr, hr' with
    | 0, 0, hij, _, _ => exact absurd rfl hij
    | 0, 1, _, hr, hr' =>
      cases h0.symm.trans hr
      cases h1.symm.trans hr'
      decide
    | 1, 0, _, hr, hr' =>
      cases h1.symm.trans hr
      cases h0.symm.trans hr'
      decide
    | 1, 1, hij, _, _ => exact absurd rfl hij
  have hmiss : ∀ i, bareSources.isThere (filledFromTwo.treePath
      (twoCalls "x" "y" "http://h/x.zip" "http://h/a.zip" i).name
      (twoCalls "x" "y" "http://h/x.zip" "http://h/a.zip" i).version) = false := by decide +kernel
  have hrun : comesTo (twoCalls "x" "y" "http://h/x.zip" "http://h/a.zip")
      [0, 0, 0, 0, 1, 1, 1, 1, 0, 0, 0, 0, 0] (fun s => (s.stages 0).hasPath ⟨"/s/x"⟩) = true := by
    decide +kernel
  obtain ⟨trace, s, hr, htest⟩ := exists_of_comesTo hrun
  have h0 := Stage.eq_of_hasPath htest
  obtain ⟨-, r, data, -, -, -, htree⟩ :=
    callers_apart_do_not_mix saves_filledFromTwo hap hmiss liesAt_bareSources hr h0
  exact ⟨trace, s, hr, h0, _, _, htree⟩

/-- **Callers mix.**  Two callers whose archives have one file name: the second one fetches before the
first one unpacks, and the first one returns with the tree of the second.  And a library named
`.downloads` returns with the downloads directory, without having fetched anything. -/
theorem callers_mix :
    (∃ trace s, (Crew.starting 2 bareSources).Reaches filledFromTwo
        (twoCalls "x" "y" "http://g/a.zip" "http://h/a.zip") trace s ∧
      s.stages 0 = .returned (.ok ⟨"/s/x"⟩) ∧
      treeAt ["s"] "x" s.host.files ≠ stripped (extraction .zip (twoBodies "http://g/a.zip")).2) ∧
    ∃ trace s, (Crew.starting 2 bareSources).Reaches filledFromTwo
        (twoCalls "x" ".downloads" "http://g/x.zip" "http://h/a.zip") trace s ∧
      s.stages 0 = .returned (.ok ⟨"/s/x"⟩) ∧ s.stages 1 = .returned (.ok ⟨"/s/.downloads"⟩) ∧
      treeAt ["s"] ".downloads" s.host.files ≠ stripped (extraction .zip (twoBodies "http://h/a.zip")).2 := by
  have hother : stripped (extraction .zip (twoBodies "http://g/a.zip")).2 ["g.c"] = none ∧
      stripped (extraction .zip (twoBodies "http://h/a.zip")).2 ["g.c"] ≠ none := by decide +kernel
  have hrace : comesTo (twoCalls "x" "y" "http://g/a.zip" "http://h/a.zip")
      [0, 0, 0, 0, 1, 1, 1, 1, 0, 0, 0, 0, 0] (fun s => (s.stages 0).hasPath ⟨"/s/x"⟩ &&
        decide (treeAt ["s"] "x" s.host.files ["g.c"] ≠ none)) = true := by decide +kernel
  have hturn : comesTo (twoCalls "x" ".downloads" "http://g/x.zip" "http://h/a.zip")
      [0, 0, 0, 0, 0, 0, 0, 0, 0, 1, 1, 1, 1] (fun s => (s.stages 0).hasPath ⟨"/s/x"⟩ &&
        (s.stages 1).hasPath ⟨"/s/.downloads"⟩ &&
        decide (treeAt ["s"] ".downloads" s.host.files ["g.c"] = none)) = true := by decide +kernel
  constructor
  · obtain ⟨trace, s, hr, htest⟩ := exists_of_comesTo hrace
    simp only [Bool.and_eq_true, decide_eq_true_eq] at htest
    refine ⟨trace, s, hr, Stage.eq_of_hasPath htest.1, fun he => htest.2 ?_⟩
    rw [he]
    exact hother.1
  · obtain ⟨trace, s, hr, htest⟩ := exists_of_comesTo hturn
    simp only [Bool.and_eq_true, decide_eq_true_eq] at htest
    refine ⟨trace, s, hr, Stage.eq_of_hasPath htest.1.1, Stage.eq_of_hasPath htest.1.2, fun he => hother.2 ?_⟩
    rw [← he]
    exact htest.2

end Crew

end CipherCorpus.SourceCache
