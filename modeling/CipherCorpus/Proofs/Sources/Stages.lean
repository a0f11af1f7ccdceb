import CipherCorpus.Proofs.Sources.Ready

/-!
# The steps that fill the cache

What each step does with a sources directory that is ready, one lemma for each:

* `LiesAt.of_fetchArchive`: the downloads directory cannot be made, or everything is ready, with or
  without the archive (`Tried`);
* `Ready.of_resetStaging`: the staging directory is there and empty (`Staged`), or nothing is changed;
* `runs_unpackFile_iff`, `Cleared.destination`: the archive is unpacked there, and nothing else changes;
* `Unpacked.runs_putInPlace`: what was unpacked is at the place of the cached tree, without its top-level
  directory if nothing lies beside that (`Placed`), or the place was not free;
* `runs_discard`: the archive is removed.
-/

namespace CipherCorpus

open FileTree CipherCorpus.Path
open Archive (Kind fileNameOf Destination Confined)

variable {t t' s : FileTree} {cwd home k : Key} {p q : Path} {n c : String} {h h' : Host}
  {Good : Kind → List UInt8 → Prop}

/-! ## Extracted trees -/

namespace Archive

/-- The top-level directory of what was extracted, if nothing lies beside it. -/
def singleTop (s : FileTree) : Key :=
  match s.names [] with
  | [single] => if s.get? [single] = some .directory then [single] else []
  | _ => []

/-- What was extracted, by keys from its top-level directory if nothing lies beside that. -/
def stripped (s : FileTree) (x : Key) : Option Entry := s.get? (singleTop s ++ x)

/-- The top is left out when it is a directory and the only entry. -/
theorem singleTop_eq_singleton_iff (h : s.WellFormed) :
    singleTop s = [n] ↔ s.get? [n] = some .directory ∧ ∀ m, s.get? [m] ≠ none → m = n := by
  have hnames := h.names_eq_singleton [] n
  constructor
  · intro he
    unfold singleTop at he
    split at he
    · next single hs =>
      split at he
      · next hd =>
        cases he
        exact ⟨hd, fun m hm => (hnames.mp hs m).mp hm⟩
      · cases he
    · cases he
  · rintro ⟨hd, hall⟩
    have hs : s.names [] = [n] := hnames.mpr fun m => ⟨hall m, fun hm => by
      rw [hm]
      show s.get? [n] ≠ none
      rw [hd]
      simp⟩
    unfold singleTop
    rw [hs]
    exact if_pos hd

theorem singleTop_eq_nil (h : ∀ n, s.names [] = [n] → s.get? [n] ≠ some .directory) : singleTop s = [] := by
  unfold singleTop
  split
  · next single hs => exact if_neg (h single hs)
  · rfl

end Archive

namespace SourceCache

open Archive (singleTop stripped)

variable {a : SourceCache} {r : Request} {sources : Path}

/-- A cached tree, by keys from its top. -/
def treeAt (home : Key) (c : String) (t : FileTree) (x : Key) : Option Entry := t.get? (home ++ c :: x)

/-- An operation on the files is done, or leaves the host as it is. -/
theorem runs_filesAt_iff {f : FileTree → Key → Except FileError FileTree} {x : Except SourceError Unit} :
    Runs (filesAt p f).outcome h x h' ↔
      (∃ t, f h.files h.cwd = .ok t ∧ x = .ok () ∧ h' = { h with files := t }) ∨
      ∃ e, f h.files h.cwd = .error e ∧ x = .error (.files p e) ∧ h' = h := by
  unfold filesAt
  rw [Attempt.runs_inWords]
  simp only [Attempt.runs_change]
  constructor
  · rintro ⟨y, ⟨t, ht, rfl, rfl⟩ | ⟨e, he, rfl, rfl⟩, rfl⟩
    · exact Or.inl ⟨t, ht, rfl, rfl⟩
    · exact Or.inr ⟨e, he, rfl, rfl⟩
  · rintro (⟨t, ht, rfl, rfl⟩ | ⟨e, he, rfl, rfl⟩)
    · exact ⟨.ok (), Or.inl ⟨t, ht, rfl, rfl⟩, rfl⟩
    · exact ⟨.error e, Or.inr ⟨e, he, rfl, rfl⟩, rfl⟩

theorem runs_filesAt_bind_iff {f : FileTree → Key → Except FileError FileTree} {α : Type}
    {g : Unit → Attempt SourceError α} {x : Except SourceError α} :
    Runs (filesAt p f >>= g).outcome h x h' ↔
      (∃ t, f h.files h.cwd = .ok t ∧ Runs (g ()).outcome { h with files := t } x h') ∨
      ∃ e, f h.files h.cwd = .error e ∧ x = .error (.files p e) ∧ h' = h :=
  Attempt.runs_change_bind

/-! ## Fetching -/

theorem Stands.leads_downloads (h : Stands a.sources cwd home t) :
    Leads t cwd a.downloads (home ++ [".downloads"]) :=
  h.leads.toLeads.child isFileName_downloads h.downloads

namespace Ready

theorem leads_downloads (h : Ready a.sources cwd home t) : Leads t cwd a.downloads (home ++ [".downloads"]) :=
  h.stands.leads_downloads

theorem zeroFree_downloads (h : Ready a.sources cwd home t) : ZeroFree a.downloads.text :=
  (zeroFree_child isEntryName_downloads).mpr ⟨h.zeroFree, by decide⟩

/-- A file is written into the downloads directory. -/
theorem of_write {body : Body} (h : Ready a.sources cwd home t) (hn : IsEntryName n.toList)
    (hw : t.write cwd (a.downloads.child n) body = .ok t') :
    Ready a.sources cwd home t' ∧ AgreeOff (· = archiveKey home n) t t' ∧
      t.get? (archiveKey home n) ≠ some .directory ∧
      ∃ x, t'.get? (archiveKey home n) = some (.file body x) := by
  have hlink : ∀ target, t.get? (home ++ [".downloads"] ++ [n]) ≠ some (.link target) := h.archive n
  obtain ⟨⟨-, hfit⟩, x, hbefore, ht'⟩ := (write_child_iff h.leads_downloads hn hlink).mp hw
  obtain rfl : t' = t.put (archiveKey home n) (.file body x) := ht'
  have hfile : (t.put (archiveKey home n) (.file body x)).get? (archiveKey home n) = some (.file body x) :=
    get?_put_self t _ (by simp [archiveKey])
  have hdir : t.get? (archiveKey home n) ≠ some .directory := by
    intro hd
    rcases hbefore with ⟨hnone, -⟩ | ⟨b, hb⟩
    · cases hd.symm.trans hnone
    · cases hd.symm.trans hb
  have hag : AgreeOff (· = archiveKey home n) t (t.put (archiveKey home n) (.file body x)) :=
    agreeOff_put t _ _
  refine ⟨?_, hag, hdir, x, hfile⟩
  refine h.of_agreeOff (h.tree.put hfit h.downloads (fun hd => absurd hd hdir) nofun) hag
    (fun k hk => hk ▸ isBelow_archiveKey home n) (fun he => ?_) (fun m target he => ?_)
    fun m target he => ?_
  · exact absurd (congrArg List.length he) (by simp [archiveKey])
  · exact absurd (congrArg List.length he) (by simp [archiveKey])
  · rw [he, hfile]
    simp

end Ready

/-- The downloads directory was made, and fetching the archive was tried. -/
structure Tried (a : SourceCache) (home : Key) (r : Request) (h h' : Host) : Prop where
  made : ∃ t, h.files.makeDirectories h.cwd a.downloads = .ok t ∧
    AgreeOff (· = archiveKey home r.fileName) t h'.files
  cwd : h'.cwd = h.cwd
  fetches : h'.trace.fetches = h.trace.fetches ++ [r.url]
  ready : Ready a.sources h'.cwd home h'.files
  frame : ∀ k, isBelow home k = true → k ≠ home ++ [".downloads"] → k ≠ archiveKey home r.fileName →
    h'.files.get? k = h.files.get? k
  directory : h'.files.get? (archiveKey home r.fileName) = some .directory ↔
    h.files.get? (archiveKey home r.fileName) = some .directory

/-- The archive that was fetched. -/
def HasArchive (home : Key) (r : Request) (data : List UInt8) (t : FileTree) : Prop :=
  ∃ x, t.get? (archiveKey home r.fileName) = some (.file (.bytes data) x)

theorem LiesAt.of_fetchArchive (hat : LiesAt a.sources home h) (hf : a.fetcher.Saves Good)
    (hr : r.fileName = fileNameOf r.url ∧ Kind.ofFileName? r.fileName = some r.kind)
    {x : Except SourceError Unit} (hrun : Runs (a.fetchArchive r).outcome h x h') :
    (∃ e, h.files.makeDirectories h.cwd a.downloads = .error e ∧ x = .error (.files a.downloads e) ∧
      h' = h) ∨
    a.Tried home r h h' ∧ ((∃ e, x = .error e) ∨
      x = .ok () ∧ ∃ data, Good r.kind data ∧ HasArchive home r data h'.files) := by
  have hname : IsEntryName r.fileName.toList := hr.1 ▸ isEntryName_fileNameOf (hr.1 ▸ hr.2)
  unfold SourceCache.fetchArchive at hrun
  rcases runs_filesAt_bind_iff.mp hrun with ⟨t, hm, hrun⟩ | ⟨e, hm, rfl, rfl⟩
  · right
    obtain ⟨hready, hframe⟩ := hat.ready hm
    rcases Attempt.runs_bind.mp hrun with ⟨_, h1, h2, hrun⟩ | ⟨e, h2, -⟩
    · obtain ⟨-, rfl⟩ := Attempt.runs_modify.mp h2
      obtain ⟨hcwd, htrace, hfiles⟩ := hf.host hrun
      have hcwd : h'.cwd = h.cwd := hcwd
      have harch : archiveKey home r.fileName ≠ home ++ [".downloads"] := fun he =>
        absurd (congrArg List.length he) (by simp [archiveKey])
      have hsame := hframe _ (isBelow_archiveKey home r.fileName) harch
      have hoff : AgreeOff (· = archiveKey home r.fileName) t h'.files := by
        rcases hfiles with he | ⟨body, hw⟩
        · exact fun k _ => by rw [he]
        · exact (hready.of_write hname hw).2.1
      have htried : a.Tried home r h h' := by
        refine ⟨⟨t, hm, hoff⟩, hcwd, congrArg Trace.fetches htrace, ?_, fun k hk hkd hka =>
          (hoff k hka).trans (hframe k hk hkd), ?_⟩
        · rw [hcwd]
          rcases hfiles with he | ⟨body, hw⟩
          · exact he ▸ hready
          · exact (hready.of_write hname hw).1
        · rcases hfiles with he | ⟨body, hw⟩
          · rw [he, hsame]
          · obtain ⟨-, -, hno, x, hx⟩ := hready.of_write hname hw
            rw [hsame] at hno
            exact iff_of_false (by rw [hx]; simp) hno
      refine ⟨htried, ?_⟩
      cases x with
      | error e => exact Or.inl ⟨e, rfl⟩
      | ok u =>
        obtain ⟨data, hw, hgood⟩ := hf.saved hrun
        obtain ⟨-, -, -, x, hx⟩ := hready.of_write hname hw
        exact Or.inr ⟨rfl, data, hgood r.kind (hr.1 ▸ hr.2), x, hx⟩
    · obtain ⟨he, -⟩ := Attempt.runs_modify.mp h2
      cases he
  · exact Or.inl ⟨e, hm, rfl, rfl⟩

/-! ## The staging directory -/

/-- The staging directory can be made: its name fits, and no file has it. -/
def CanStage (home : Key) (c : String) (t : FileTree) : Prop :=
  IsFileName (".staging-" ++ c) ∧ ∀ body x, t.get? (stagingKey home c) ≠ some (.file body x)

/-- The staging directory was made anew. -/
structure Staged (home : Key) (c : String) (t t' : FileTree) : Prop where
  tree : t'.WellFormed
  can : CanStage home c t
  frame : AgreeOff (AtEntries home [".staging-" ++ c]) t t'
  directory : t'.get? (stagingKey home c) = some .directory
  empty : ∀ x, x ≠ [] → t'.get? (stagingKey home c ++ x) = none

theorem stagingKey_ne_nil (home : Key) (c : String) : stagingKey home c ≠ [] := by simp [stagingKey]

theorem downloads_ne_staging (c : String) : ".downloads" ∉ [".staging-" ++ c] := by
  rw [List.mem_singleton]
  exact (staging_ne_downloads c).symm

/-- A new staging directory, after what had its name was removed. -/
theorem staged_of_put (h : t.WellFormed) (hhome : t.get? home = some .directory) (hc : CanStage home c t)
    {t1 : FileTree} (h1 : t1 = t ∧ t.get? (stagingKey home c) = none ∨ t1 = t.eraseAll (stagingKey home c)) :
    Staged home c t (t1.put (stagingKey home c) .directory) := by
  have htop : ¬ stagingKey home c <+: home := by
    intro hp
    have := hp.length_le
    rw [stagingKey, List.length_append, List.length_singleton] at this
    omega
  have hw1 : t1.WellFormed := by
    rcases h1 with ⟨rfl, -⟩ | rfl
    · exact h
    · exact h.eraseAll _
  have hnone : ∀ x, t1.get? (stagingKey home c ++ x) = none := by
    intro x
    rcases h1 with ⟨rfl, hnone⟩ | rfl
    · by_cases hx : x = []
      · rw [hx, List.append_nil]
        exact hnone
      · exact h.get?_append (by rw [hnone]; simp) hx
    · rw [get?_eraseAll t _ (by simp [stagingKey]), if_pos (List.prefix_append _ _)]
  have hag : AgreeOff (AtEntries home [".staging-" ++ c]) t t1 := by
    intro k hk
    rcases h1 with ⟨rfl, -⟩ | rfl
    · rfl
    · exact agreeOff_eraseAll t _ k fun hp => hk (atEntries_singleton.mpr hp)
  have hhome1 : t1.get? home = some .directory :=
    (hag home fun hp => htop (atEntries_singleton.mp hp)).trans hhome
  refine ⟨?_, hc, fun k hk => ?_, get?_put_self t1 _ (stagingKey_ne_nil home c), fun x hx => ?_⟩
  · exact hw1.put hc.1 hhome1 (fun _ => rfl) nofun
  · have hne : k ≠ stagingKey home c := by
      rintro rfl
      exact hk (atEntries_singleton.mpr (List.prefix_refl _))
    rw [get?_put_ne t1 _ hne]
    exact hag k hk
  · rw [get?_put_ne t1 _ (by simpa using hx)]
    exact hnone x

theorem Ready.of_resetStaging (h0 : Ready a.sources h.cwd home h.files) (hc : IsCacheName c)
    {x : Except SourceError Unit}
    (hrun : Runs (resetStaging (scratchPath (a.sources.child c))).outcome h x h') :
    (∃ t, Staged home c h.files t ∧ x = .ok () ∧ h' = { h with files := t }) ∨
      ¬ CanStage home c h.files ∧ h' = h ∧
        ∃ e, x = .error (.files (scratchPath (a.sources.child c)) e) := by
  have hn := isEntryName_staging hc.1
  have hlink : ∀ target, h.files.get? (stagingKey home c) ≠ some (.link target) := h0.entry _
  have hl := leads_stagingRoot hc.1 h0.leads
  have hhome := h0.leads.get?_home h0.tree
  have hfit : IsFileName (".staging-" ++ c) → ZeroFree (stagingRoot a.sources c).text ∧ IsFileName (".staging-" ++ c) :=
    fun hfit => ⟨zeroFree_stagingRoot hc.1 h0.zeroFree (IsFileName.of_staging hc.1 hfit).zeroFree, hfit⟩
  rw [scratchPath_eq a.sources hc.1] at hrun ⊢
  unfold resetStaging at hrun
  rw [Attempt.runs_inspect_bind] at hrun
  split at hrun
  · -- something is there: it is a directory, which is removed, or a file
    next hthere =>
    obtain ⟨hfits, -⟩ := (isThere_child_iff hl hn hlink).mp hthere
    rcases runs_filesAt_bind_iff.mp hrun with ⟨t1, hrm, hrun⟩ | ⟨e, hrm, rfl, rfl⟩
    · obtain ⟨-, hd, rfl⟩ := (removeTree_child_iff hl hn hlink).mp hrm
      have hcan : CanStage home c h.files := ⟨hfits.2, fun body x hx => by cases hd.symm.trans hx⟩
      have hnone : (h.files.eraseAll (stagingKey home c)).get? (stagingKey home c) = none := by
        rw [get?_eraseAll _ _ (stagingKey_ne_nil home c), if_pos (List.prefix_refl _)]
      have hl1 : Leads (h.files.eraseAll (stagingKey home c)) h.cwd (stagingRoot a.sources c) home := by
        refine leads_stagingRoot hc.1 (h0.leads.of_outside fun k hk => agreeOff_eraseAll _ _ k fun hp => ?_)
        rw [(atEntries_singleton.mpr hp).isBelow] at hk
        cases hk
      have hlink1 : ∀ target, (h.files.eraseAll (stagingKey home c)).get? (stagingKey home c) ≠
          some (.link target) := by
        rw [hnone]
        exact nofun
      have hmake := fun t => (makeDirectories_child_iff hl1 hn hlink1 : _ = Except.ok t ↔ _)
      left
      rcases runs_filesAt_iff.mp hrun with ⟨t2, hmk, rfl, rfl⟩ | ⟨e, hmk, -, -⟩
      · obtain ⟨-, ⟨-, rfl⟩ | ⟨hd', -⟩⟩ := (hmake t2).mp hmk
        · exact ⟨_, staged_of_put h0.tree hhome hcan (Or.inr rfl), rfl, rfl⟩
        · cases hd'.symm.trans hnone
      · cases hmk.symm.trans ((hmake _).mpr ⟨hfits, Or.inl ⟨hnone, rfl⟩⟩)
    · refine Or.inr ⟨fun hcan => ?_, rfl, e, rfl⟩
      cases hg : h'.files.get? (stagingKey home c) with
      | none =>
        exact absurd hg ((isThere_child_iff hl hn hlink).mp hthere).2
      | some entry =>
        cases entry with
        | directory =>
          rw [(removeTree_child_iff hl hn hlink).mpr ⟨hfits, hg, rfl⟩] at hrm
          cases hrm
        | file body x => exact hcan.2 body x hg
        | link target => exact hlink target hg
  · next hthere =>
    have hmake := fun t => (makeDirectories_child_iff hl hn hlink : _ = Except.ok t ↔ _)
    have hfree : CanStage home c h.files → h.files.get? (stagingKey home c) = none := by
      intro hcan
      by_contra hg
      exact hthere ((isThere_child_iff hl hn hlink).mpr ⟨hfit hcan.1, hg⟩)
    rcases runs_filesAt_iff.mp hrun with ⟨t1, hmk, rfl, rfl⟩ | ⟨e, hmk, rfl, rfl⟩
    · obtain ⟨hfits, ⟨hnone, rfl⟩ | ⟨hd, -⟩⟩ := (hmake t1).mp hmk
      · have hnone : h.files.get? (stagingKey home c) = none := hnone
        have hcan : CanStage home c h.files := ⟨hfits.2, fun body x hx => by cases hnone.symm.trans hx⟩
        exact Or.inl ⟨_, staged_of_put h0.tree hhome hcan (Or.inl ⟨rfl, hnone⟩), rfl, rfl⟩
      · exact absurd ((isThere_child_iff hl hn hlink).mpr ⟨hfits, by rw [hd]; simp⟩) hthere
    · refine Or.inr ⟨fun hcan => ?_, rfl, e, rfl⟩
      cases hmk.symm.trans ((hmake _).mpr ⟨hfit hcan.1, Or.inl ⟨hfree hcan, rfl⟩⟩)

namespace Staged

variable (hs : Staged home c t t')
include hs

theorem ready (h : Ready a.sources cwd home t) : Ready a.sources cwd home t' :=
  h.of_entries hs.tree hs.frame (downloads_ne_staging c) fun n hn target => by
    rw [List.mem_singleton.mp hn]
    show t'.get? (stagingKey home c) ≠ _
    rw [hs.directory]
    simp

/-- The archives are as they were. -/
theorem get?_archive (fileName : String) : t'.get? (archiveKey home fileName) = t.get? (archiveKey home fileName) :=
  hs.frame _ fun hp => by
    rw [archiveKey_eq] at hp
    exact downloads_ne_staging c (atEntries_iff.mp hp)

theorem hasArchive {data : List UInt8} (h : HasArchive home r data t) : HasArchive home r data t' :=
  h.imp fun _ hx => (hs.get?_archive r.fileName).trans hx

end Staged

/-- The staging directory is there and empty. -/
structure Cleared (sources : Path) (cwd home : Key) (c : String) (t : FileTree) : Prop where
  ready : Ready sources cwd home t
  fits : IsFileName (".staging-" ++ c)
  directory : t.get? (stagingKey home c) = some .directory
  empty : ∀ x, x ≠ [] → t.get? (stagingKey home c ++ x) = none

theorem Staged.cleared (hs : Staged home c t t') (hr : Ready a.sources cwd home t) :
    Cleared a.sources cwd home c t' :=
  ⟨hs.ready hr, hs.can.1, hs.directory, hs.empty⟩

/-- An empty staging directory is one to unpack into. -/
theorem Stands.destination (hs : Stands sources cwd home t) (hc : IsEntryName c.toList)
    (hname : IsFileName (".staging-" ++ c)) (hd : t.get? (stagingKey home c) = some .directory)
    (hempty : ∀ x, x ≠ [] → t.get? (stagingKey home c ++ x) = none) :
    Destination t cwd (scratchPath (sources.child c)) (stagingKey home c) := by
  have hl := leads_stagingRoot hc hs.leads
  have hn := isEntryName_staging hc
  have hfit : ZeroFree (stagingRoot sources c).text ∧ IsFileName (".staging-" ++ c) :=
    ⟨zeroFree_stagingRoot hc hs.zeroFree (IsFileName.of_staging hc hname).zeroFree, hname⟩
  have hlink : ∀ target, t.get? (home ++ [".staging-" ++ c]) ≠ some (.link target) :=
    fun target hg => nomatch hd.symm.trans hg
  rw [scratchPath_eq sources hc]
  exact {
    tree := hs.tree
    directory := hd
    found := (stat_child_iff hl hn hlink).mpr ⟨hfit, rfl, hd⟩
    isThere := ⟨_, (linkStat_child_iff hl hn hlink).mpr ⟨hfit, rfl, hd⟩⟩
    made := (makeDirectories_child_iff hl hn hlink).mpr ⟨hfit, Or.inr ⟨hd, rfl⟩⟩
    empty := hempty }

theorem Cleared.destination (hcl : Cleared a.sources cwd home c t) (hc : IsCacheName c) :
    Destination t cwd (scratchPath (a.sources.child c)) (stagingKey home c) :=
  hcl.ready.stands.destination hc.1 hcl.fits hcl.directory hcl.empty

/-! ## Unpacking -/

/-- The fetched archive can be read. -/
theorem Ready.openRead_archive {data : List UInt8} (h : Ready a.sources cwd home t) (ha : HasArchive home r data t) :
    ∃ x, t.openRead cwd (a.downloads.child r.fileName) = .ok (.file (.bytes data) x) := by
  obtain ⟨x, hx⟩ := ha
  have hfit : IsFileName r.fileName := by
    refine h.tree.name (home ++ [".downloads"]) _ ?_
    rw [show home ++ [".downloads"] ++ [r.fileName] = archiveKey home r.fileName from rfl, hx]
    simp
  exact ⟨x, (openRead_child_iff h.leads_downloads hfit.entry (h.archive _)).mpr
    ⟨⟨h.zeroFree_downloads, hfit⟩, hx⟩⟩

theorem runs_unpackFile_iff {kind : Kind} {archive dest : Path} {body : Body} {y : Bool}
    (ho : h.files.openRead h.cwd archive = .ok (.file body y)) {x : Except SourceError Unit} :
    Runs (Archive.unpackFile kind archive dest).outcome h x h' ↔
      h' = { h with files := ((Archive.unpack kind h.cwd body.data dest).run.run h.files).2 } ∧
        x = ((Archive.unpack kind h.cwd body.data dest).run.run h.files).1.mapError
          fun _ => .unpacking archive := by
  unfold Archive.unpackFile
  rw [Attempt.runs_get_bind, ho]
  simp only [readEntry]
  rcases (Archive.unpack kind h.cwd body.data dest).run.run h.files with ⟨outcome, files⟩
  dsimp only
  rw [Attempt.runs_bind]
  simp only [Attempt.runs_set]
  constructor
  · rintro (⟨_, h1, ⟨-, rfl⟩, hk⟩ | ⟨e, ⟨he, -⟩, -⟩)
    · cases outcome with
      | ok u =>
        obtain ⟨rfl, rfl⟩ := runs_pure.mp hk
        exact ⟨rfl, rfl⟩
      | error e =>
        obtain ⟨rfl, rfl⟩ := runs_pure.mp hk
        exact ⟨rfl, rfl⟩
    · cases he
  · rintro ⟨rfl, rfl⟩
    refine Or.inl ⟨⟨⟩, _, ⟨trivial, rfl⟩, ?_⟩
    cases outcome with
    | ok u => exact runs_pure.mpr ⟨rfl, rfl⟩
    | error e => exact runs_pure.mpr ⟨rfl, rfl⟩

/-- An archive was unpacked into the staging directory. -/
structure Unpacked (a : SourceCache) (home : Key) (c : String) (h : Host) : Prop where
  ready : Ready a.sources h.cwd home h.files
  fits : IsFileName (".staging-" ++ c)
  directory : h.files.get? (stagingKey home c) = some .directory

namespace Cleared

variable {kind : Kind} {data : List UInt8} {outcome : Except Archive.UnpackFault Unit}
  (hcl : Cleared a.sources h.cwd home c t) (hconf : Confined kind data) (hc : IsCacheName c)
  (hu : (Archive.unpack kind h.cwd data (scratchPath (a.sources.child c))).run.run t = (outcome, t'))
include hcl hconf hc hu

/-- Unpacking changes what lies in the staging directory only. -/
theorem agreeOff_unpack : AgreeOff (AtEntries home [".staging-" ++ c]) t t' := by
  intro k hk
  have := hconf (hcl.destination hc) k (isBelow_eq_false fun hp => hk (atEntries_singleton.mpr hp))
  rwa [hu] at this

theorem directory_unpack : t'.get? (stagingKey home c) = some .directory := by
  have := hconf (hcl.destination hc) _ (isBelow_self (stagingKey home c))
  rw [hu] at this
  exact this.trans hcl.directory

theorem ready_unpack : Ready a.sources h.cwd home t' := by
  have hw : t'.WellFormed := by
    obtain ⟨q, hq, habs, hsteps, -⟩ := exists_parent?_child a.sources hc.1
    have hstart : t.get? (startOf h.cwd (scratchPath (a.sources.child c)).text.toList) = some .directory := by
      rw [scratchPath_eq a.sources hc.1, startOf_child _ _ (isStep_of_isEntryName (isEntryName_staging hc.1))]
      unfold stagingRoot
      rw [hq]
      exact (hcl.ready.leads.congr habs hsteps).start'
    have := Archive.wellFormed_unpack hcl.ready.tree hstart kind data
    rwa [hu] at this
  refine hcl.ready.of_entries hw (hcl.agreeOff_unpack hconf hc hu) (downloads_ne_staging c) ?_
  intro n hn target
  rw [List.mem_singleton.mp hn]
  show t'.get? (stagingKey home c) ≠ _
  rw [hcl.directory_unpack hconf hc hu]
  exact nofun

/-- The archives are as they were. -/
theorem archive_unpack (fileName : String) :
    t'.get? (archiveKey home fileName) = t.get? (archiveKey home fileName) :=
  hcl.agreeOff_unpack hconf hc hu _ fun hk => by
    rw [archiveKey_eq] at hk
    exact downloads_ne_staging c (atEntries_iff.mp hk)

theorem hasArchive_unpack (ha : HasArchive home r data t) : HasArchive home r data t' :=
  ha.imp fun _ hx => (hcl.archive_unpack hconf hc hu r.fileName).trans hx

theorem unpacked : a.Unpacked home c { h with files := t' } := by
  have hready : Ready a.sources h.cwd home t' := hcl.ready_unpack hconf hc hu
  exact ⟨hready, hcl.fits, hcl.directory_unpack hconf hc hu⟩

end Cleared

/-- A plain archive is in the staging directory as in an empty tree. -/
theorem Cleared.mirrored {kind : Kind} {data : List UInt8} {outcome : Except Archive.UnpackFault Unit}
    (hcl : Cleared a.sources h.cwd home c t) (hp : Archive.isPlain kind data = true) (hc : IsCacheName c)
    (hu : (Archive.unpack kind h.cwd data (scratchPath (a.sources.child c))).run.run t = (outcome, t')) :
    (Archive.extraction kind data).1 = outcome ∧
    (∀ x, t'.get? (stagingKey home c ++ x) = (Archive.extraction kind data).2.get? x) ∧
    ∀ k target, (Archive.extraction kind data).2.get? k ≠ some (.link target) := by
  obtain ⟨houtcome, hmirrors⟩ := Archive.unpack_of_isPlain hp (hcl.destination hc)
  rw [hu] at houtcome hmirrors
  refine ⟨houtcome.symm, fun x => ?_, hmirrors.clear⟩
  by_cases hx : x = []
  · rw [hx, List.append_nil]
    exact hcl.directory_unpack (Archive.confined_of_isPlain hp) hc hu
  · exact hmirrors.inside x hx

/-! ## The place of the tree -/

/-- What is moved from the staging directory: the one entry in it, if that leads to a directory. -/
def movedTop (t : FileTree) (cwd : Key) (staging : Path) (key : Key) : Key :=
  match t.names key with
  | [single] => if t.isDirectory cwd (staging.child single) then [single] else []
  | _ => []

/-- What was staged, from `top` on, is at its place. -/
structure Placed (home : Key) (c : String) (top : Key) (t t' : FileTree) : Prop where
  tree : t'.WellFormed
  cached : ∀ x, treeAt home c t' x = t.get? (stagingKey home c ++ top ++ x)
  staging : ∀ x, t'.get? (stagingKey home c ++ x) = none
  frame : AgreeOff (AtEntries home [".staging-" ++ c, c]) t t'

theorem staging_ne_self (c : String) : ".staging-" ++ c ≠ c := by
  intro he
  have hlength := congrArg String.length he
  rw [String.length_append, show ".staging-".length = 9 from rfl] at hlength
  omega

theorem staging_prefix_ne (home : Key) (c : String) (top : Key) :
    ¬ stagingKey home c ++ top <+: home ++ [c] := by
  rw [stagingKey, List.append_assoc, List.prefix_append_right_inj, List.singleton_append,
    List.cons_prefix_cons]
  exact fun hp => staging_ne_self c hp.1

theorem cached_prefix_ne (home : Key) (c : String) (top : Key) :
    ¬ home ++ [c] <+: stagingKey home c ++ top := by
  rw [stagingKey, List.append_assoc, List.prefix_append_right_inj, List.singleton_append,
    List.cons_prefix_cons]
  exact fun hp => staging_ne_self c hp.1.symm

theorem treeAt_move (t : FileTree) (home : Key) (c : String) (top x : Key) :
    treeAt home c (t.move (stagingKey home c ++ top) (home ++ [c])) x =
      t.get? (stagingKey home c ++ top ++ x) := by
  unfold treeAt
  rw [show home ++ c :: x = home ++ [c] ++ x by simp, get?_move_target (by simp [stagingKey])
    (staging_prefix_ne home c top) (cached_prefix_ne home c top)]

theorem agreeOff_move (t : FileTree) (home top : Key) (c : String) :
    AgreeOff (AtEntries home [".staging-" ++ c, c]) t
      (t.move (stagingKey home c ++ top) (home ++ [c])) := by
  intro k hk
  refine get?_move_elsewhere t (fun hp => hk ⟨_, List.mem_cons_self, ?_⟩) fun hp => hk ⟨c, by simp, hp⟩
  exact (List.prefix_append _ _).trans hp

theorem wellFormed_move (ht : t.WellFormed) (hhome : t.get? home = some .directory)
    (hfit : IsFileName c) (top : Key) : (t.move (stagingKey home c ++ top) (home ++ [c])).WellFormed :=
  ht.move (by simp [stagingKey]) (staging_prefix_ne home c top) (cached_prefix_ne home c top) hfit hhome

/-- The whole staging directory takes its place. -/
theorem placed_of_move (ht : t.WellFormed) (hhome : t.get? home = some .directory)
    (hfit : IsFileName c) : Placed home c [] t (t.move (stagingKey home c) (home ++ [c])) := by
  have he : stagingKey home c = stagingKey home c ++ [] := (List.append_nil _).symm
  refine ⟨?_, fun x => ?_, fun x => ?_, ?_⟩
  · rw [he]
    exact wellFormed_move ht hhome hfit []
  · rw [he, treeAt_move t home c, List.append_nil (stagingKey home c ++ [])]
  · refine get?_move_source (stagingKey_ne_nil home c) ?_ ?_ x
    · rw [he]
      exact staging_prefix_ne home c []
    · rw [he]
      exact cached_prefix_ne home c []
  · rw [he]
    exact agreeOff_move t home [] c

/-- The only entry of the staging directory takes its place, and the staging directory goes. -/
theorem placed_of_move_erase (ht : t.WellFormed) (hhome : t.get? home = some .directory)
    (hfit : IsFileName c) (hnames : t.names (stagingKey home c) = [n]) :
    (∀ x, x ≠ [] → (t.move (stagingKey home c ++ [n]) (home ++ [c])).get? (stagingKey home c ++ x) = none) ∧
    Placed home c [n] t ((t.move (stagingKey home c ++ [n]) (home ++ [c])).erase (stagingKey home c)) := by
  have honly := (ht.names_eq_singleton _ n).mp hnames
  have hstaging : ∀ x, x ≠ [] →
      (t.move (stagingKey home c ++ [n]) (home ++ [c])).get? (stagingKey home c ++ x) = none := by
    intro x hx
    cases x with
    | nil => exact absurd rfl hx
    | cons m x =>
      by_cases hmn : m = n
      · subst hmn
        rw [show stagingKey home c ++ m :: x = stagingKey home c ++ [m] ++ x by simp]
        exact get?_move_source (by simp [stagingKey]) (staging_prefix_ne home c [m])
          (cached_prefix_ne home c [m]) x
      · have hnone : t.get? (stagingKey home c ++ [m]) = none := by
          by_contra hg
          exact hmn ((honly m).mp hg)
        rw [get?_move_elsewhere t ?_ (cached_prefix_ne home c _)]
        · by_cases hx : x = []
          · rw [hx]
            exact hnone
          · rw [show stagingKey home c ++ m :: x = stagingKey home c ++ [m] ++ x by simp]
            exact ht.get?_append (by rw [hnone]; simp) hx
        · rw [List.prefix_append_right_inj, List.cons_prefix_cons]
          exact fun hp => hmn hp.1.symm
  have hw1 := wellFormed_move ht hhome hfit [n]
  refine ⟨hstaging, hw1.erase fun m => hstaging [m] (by simp), fun x => ?_, fun x => ?_, fun k hk => ?_⟩
  · have hne : home ++ c :: x ≠ stagingKey home c := by
      intro he
      have hp : home ++ [c] <+: stagingKey home c ++ [] := by
        rw [List.append_nil, ← he]
        exact prefix_below.mpr rfl
      exact cached_prefix_ne home c [] hp
    unfold treeAt
    rw [get?_erase_ne _ hne]
    exact treeAt_move t home c [n] x
  · by_cases hx : x = []
    · rw [hx, List.append_nil, get?_erase_self _ (stagingKey_ne_nil home c)]
    · rw [get?_erase_ne _ (by simpa using hx)]
      exact hstaging x hx
  · have hne : k ≠ stagingKey home c := by
      rintro rfl
      exact hk ⟨_, List.mem_cons_self, List.prefix_refl _⟩
    rw [get?_erase_ne _ hne]
    exact agreeOff_move t home [n] c k hk

namespace Unpacked

variable (hu : a.Unpacked home c h) (hc : IsCacheName c)
include hu hc

theorem fitsRoot : ZeroFree (stagingRoot a.sources c).text ∧ IsFileName (".staging-" ++ c) :=
  ⟨zeroFree_stagingRoot hc.1 hu.ready.zeroFree (IsFileName.of_staging hc.1 hu.fits).zeroFree, hu.fits⟩

theorem list_eq : h.files.list h.cwd ((stagingRoot a.sources c).child (".staging-" ++ c)) =
    .ok (h.files.names (stagingKey home c)) :=
  (list_child_iff (leads_stagingRoot hc.1 hu.ready.leads) (isEntryName_staging hc.1)
    (hu.ready.entry _)).mpr ⟨hu.fitsRoot hc, hu.directory, rfl⟩

/-- The whole staging directory is moved. -/
theorem runs_moveWhole {x : Except SourceError Unit}
    (hrun : Runs (filesAt (a.sources.child c) fun t cwd =>
      t.rename cwd ((stagingRoot a.sources c).child (".staging-" ++ c)) (a.sources.child c)).outcome h x h') :
    (∃ t, Placed home c [] h.files t ∧ x = .ok () ∧ h' = { h with files := t }) ∨
      h.files.get? (home ++ [c]) ≠ none ∧ h' = h ∧ ∃ e, x = .error (.files (a.sources.child c) e) := by
  have hr := hu.ready
  have hfit := IsFileName.of_staging hc.1 hu.fits
  have hout := staging_prefix_ne home c []
  rw [List.append_nil] at hout
  have hrename := fun t => (rename_child_iff (leads_stagingRoot hc.1 hr.leads)
    (isEntryName_staging hc.1) (hr.entry _) hr.leads.toLeads hc.1 (hr.entry c) hu.directory
    (fun he => hout (by rw [he]; exact List.prefix_refl _)) (isBelow_eq_false hout) : _ = Except.ok t ↔ _)
  rcases runs_filesAt_iff.mp hrun with ⟨t, ht, rfl, rfl⟩ | ⟨e, he, rfl, rfl⟩
  · obtain ⟨-, -, rfl⟩ := (hrename t).mp ht
    exact Or.inl ⟨_, placed_of_move hr.tree (hr.leads.get?_home hr.tree) hfit, rfl, rfl⟩
  · refine Or.inr ⟨fun hfree => ?_, rfl, e, rfl⟩
    cases he.symm.trans ((hrename _).mpr ⟨⟨hu.fitsRoot hc, hr.zeroFree, hfit⟩, Or.inl hfree, rfl⟩)

/-- The only entry of the staging directory is moved when it leads to a directory and its place is free;
nothing else can come of it. -/
theorem rename_inner (hnames : h.files.names (stagingKey home c) = [n])
    (hdir : h.isDirectory (((stagingRoot a.sources c).child (".staging-" ++ c)).child n) = true) :
    (∀ t, h.files.rename h.cwd (((stagingRoot a.sources c).child (".staging-" ++ c)).child n)
      (a.sources.child c) = .ok t → t = h.files.move (stagingKey home c ++ [n]) (home ++ [c])) ∧
    (h.files.get? (home ++ [c]) = none →
      ∃ t, h.files.rename h.cwd (((stagingRoot a.sources c).child (".staging-" ++ c)).child n)
        (a.sources.child c) = .ok t) := by
  have hr := hu.ready
  have hfit := IsFileName.of_staging hc.1 hu.fits
  have hn := ((hr.tree.names_eq_singleton _ n).mp hnames n).mpr rfl
  have hnfit : IsFileName n := hr.tree.name (stagingKey home c) n hn
  have hl2 := (leads_stagingRoot hc.1 hr.leads).child hu.fits hu.directory
  have hroot2 : ZeroFree ((stagingRoot a.sources c).child (".staging-" ++ c)).text :=
    (zeroFree_child (isEntryName_staging hc.1)).mpr ⟨(hu.fitsRoot hc).1, hu.fits.zeroFree⟩
  have hout := staging_prefix_ne home c [n]
  cases hg : h.files.get? (stagingKey home c ++ [n]) with
  | none => exact absurd hg hn
  | some entry =>
    cases entry with
    | directory =>
      have hrename := fun t => (rename_child_iff hl2 hnfit.entry
        (fun target hg' => by cases hg.symm.trans hg') hr.leads.toLeads hc.1 (hr.entry c) hg
        (fun he => hout (by rw [he]; exact List.prefix_refl _)) (isBelow_eq_false hout) :
          _ = Except.ok t ↔ _)
      exact ⟨fun t ht => ((hrename t).mp ht).2.2, fun hfree =>
        ⟨_, (hrename _).mpr ⟨⟨⟨hroot2, hnfit⟩, hr.zeroFree, hfit⟩, Or.inl hfree, rfl⟩⟩⟩
    | file body x =>
      have := (isDirectory_child_iff hl2 hnfit.entry (fun target hg' => by cases hg.symm.trans hg')).mp hdir
      cases hg.symm.trans this.2
    | link dest =>
      have hrename := fun t => (rename_link_child_iff hl2 hroot2 hnfit hg hr.leads.toLeads hc.1
        (hr.entry c) (fun he => hout (by rw [he]; exact List.prefix_refl _)) : _ = Except.ok t ↔ _)
      refine ⟨fun t ht => ((hrename t).mp ht).2.2, fun hfree =>
        ⟨_, (hrename _).mpr ⟨⟨hr.zeroFree, hfit⟩, ?_, rfl⟩⟩⟩
      rw [hfree]
      exact nofun

/-- The only entry of the staging directory is moved, and the staging directory removed. -/
theorem runs_moveInner (hnames : h.files.names (stagingKey home c) = [n])
    (hdir : h.isDirectory (((stagingRoot a.sources c).child (".staging-" ++ c)).child n) = true)
    {x : Except SourceError Unit} (hrun : Runs (do
      filesAt (a.sources.child c) fun t cwd =>
        t.rename cwd (((stagingRoot a.sources c).child (".staging-" ++ c)).child n) (a.sources.child c)
      filesAt ((stagingRoot a.sources c).child (".staging-" ++ c)) fun t cwd =>
        t.removeDirectory cwd ((stagingRoot a.sources c).child (".staging-" ++ c))).outcome h x h') :
    (∃ t, Placed home c [n] h.files t ∧ x = .ok () ∧ h' = { h with files := t }) ∨
      h.files.get? (home ++ [c]) ≠ none ∧ h' = h ∧ ∃ e, x = .error (.files (a.sources.child c) e) := by
  have hr := hu.ready
  have hfit := IsFileName.of_staging hc.1 hu.fits
  obtain ⟨hmoved, hfree⟩ := hu.rename_inner hc hnames hdir
  rcases runs_filesAt_bind_iff.mp hrun with ⟨t1, ht1, hrun⟩ | ⟨e, he, rfl, rfl⟩
  · obtain rfl := hmoved t1 ht1
    obtain ⟨hempty, hplaced⟩ := placed_of_move_erase hr.tree (hr.leads.get?_home hr.tree) hfit hnames
    -- the path of the staging directory leads there still, and nothing is left in it
    have hl1 : Leads (h.files.move (stagingKey home c ++ [n]) (home ++ [c])) h.cwd (stagingRoot a.sources c) home := by
      refine leads_stagingRoot hc.1 (hr.leads.of_outside fun k hk =>
        agreeOff_move h.files home [n] c k fun hS => ?_)
      rw [hS.isBelow] at hk
      cases hk
    have hd1 : (h.files.move (stagingKey home c ++ [n]) (home ++ [c])).get? (stagingKey home c) =
        some .directory := by
      refine (get?_move_elsewhere _ (fun hp => ?_) ?_).trans hu.directory
      · have := hp.length_le
        rw [List.length_append, List.length_singleton] at this
        omega
      · have := cached_prefix_ne home c []
        rwa [List.append_nil] at this
    have hremove := removeDirectory_child hl1 (isEntryName_staging hc.1)
      (fun target hg => by cases hd1.symm.trans hg) (hu.fitsRoot hc) hd1 (isEmpty_below hempty)
    rcases runs_filesAt_iff.mp hrun with ⟨t2, ht2, rfl, rfl⟩ | ⟨e, he, -, -⟩
    · cases ht2.symm.trans hremove
      exact Or.inl ⟨_, hplaced, rfl, rfl⟩
    · cases he.symm.trans hremove
  · refine Or.inr ⟨fun hnone => ?_, rfl, e, rfl⟩
    obtain ⟨t, ht⟩ := hfree hnone
    cases he.symm.trans ht

/-- What was unpacked is put in its place, unless something is there. -/
theorem runs_putInPlace {x : Except SourceError Unit}
    (hrun : Runs (putInPlace (scratchPath (a.sources.child c)) (a.sources.child c)).outcome h x h') :
    (∃ t, Placed home c (movedTop h.files h.cwd (scratchPath (a.sources.child c)) (stagingKey home c)) h.files t ∧
      x = .ok () ∧ h' = { h with files := t }) ∨
      h.files.get? (home ++ [c]) ≠ none ∧ h' = h ∧ ∃ e, x = .error (.files (a.sources.child c) e) := by
  rw [scratchPath_eq a.sources hc.1] at hrun ⊢
  unfold putInPlace at hrun
  rw [Attempt.runs_get_bind, hu.list_eq hc] at hrun
  unfold movedTop
  cases hnames : h.files.names (stagingKey home c) with
  | nil =>
    rw [hnames] at hrun
    exact hu.runs_moveWhole hc hrun
  | cons m rest =>
    rw [hnames] at hrun
    cases rest with
    | cons _ _ => exact hu.runs_moveWhole hc hrun
    | nil =>
      dsimp only at hrun ⊢
      split at hrun
      · next hdir =>
        rw [if_pos (show h.files.isDirectory h.cwd _ = true from hdir)]
        exact hu.runs_moveInner hc hnames hdir hrun
      · next hdir =>
        rw [if_neg (show ¬ h.files.isDirectory h.cwd _ = true from hdir)]
        exact hu.runs_moveWhole hc hrun

end Unpacked

/-- Where an archive without links was unpacked, what is moved is seen in the extracted tree. -/
theorem movedTop_eq_singleTop (hu : a.Unpacked home c h) (hc : IsCacheName c)
    (hinside : ∀ x, h.files.get? (stagingKey home c ++ x) = s.get? x) (hs : s.WellFormed)
    (hclear : ∀ k target, s.get? k ≠ some (.link target)) :
    movedTop h.files h.cwd (scratchPath (a.sources.child c)) (stagingKey home c) = singleTop s := by
  have hsingle : ∀ m, h.files.names (stagingKey home c) = [m] ↔ s.names [] = [m] := by
    intro m
    rw [hu.ready.tree.names_eq_singleton, hs.names_eq_singleton]
    refine forall_congr' fun m' => ?_
    rw [hinside]
    exact Iff.rfl
  rw [scratchPath_eq a.sources hc.1]
  unfold movedTop
  generalize h.files.names (stagingKey home c) = names at hsingle
  have hmany : (∀ m, names ≠ [m]) → singleTop s = [] := fun hne =>
    Archive.singleTop_eq_nil fun m hm => absurd ((hsingle m).mpr hm) (hne m)
  cases names with
  | nil => exact (hmany (by simp)).symm
  | cons m rest =>
    cases rest with
    | cons _ _ => exact (hmany (by simp)).symm
    | nil =>
      have hsm := (hsingle m).mp rfl
      have hinner : h.files.get? (stagingKey home c ++ [m]) = s.get? [m] := hinside [m]
      have hm : s.get? [m] ≠ none := (hs.names_eq_singleton [] m).mp hsm m |>.mpr rfl
      have hmfit : IsFileName m := hs.name [] m hm
      have hroot2 := (zeroFree_child (isEntryName_staging hc.1)).mpr
        ⟨(hu.fitsRoot hc).1, hu.fits.zeroFree⟩
      have hisdir := isDirectory_child_iff (t := h.files) (n := m)
        ((leads_stagingRoot hc.1 hu.ready.leads).child hu.fits hu.directory) hmfit.entry
        (fun target hg => hclear [m] target (hinner.symm.trans hg))
      unfold singleTop
      rw [hsm]
      dsimp only
      by_cases hd : s.get? [m] = some .directory
      · rw [if_pos hd, if_pos (hisdir.mpr ⟨⟨hroot2, hmfit⟩, hinner.trans hd⟩)]
      · rw [if_neg hd, if_neg fun hdir => hd (hinner ▸ (hisdir.mp hdir).2)]

/-! ## Removing the archive -/

theorem archiveKey_ne_nil (home : Key) (fileName : String) : archiveKey home fileName ≠ [] := by
  simp [archiveKey]

/-- A fetched archive is removed, whatever became of the rest. -/
theorem runs_discard {data : List UInt8} (hw : h.files.WellFormed) (hzero : ZeroFree a.downloads.text)
    (hl : Leads h.files h.cwd a.downloads (home ++ [".downloads"])) (ha : HasArchive home r data h.files)
    {x : Except SourceError Unit} (hrun : Runs (discard (a.downloads.child r.fileName)).outcome h x h') :
    x = .ok () ∧ h' = { h with files := h.files.erase (archiveKey home r.fileName) } := by
  obtain ⟨y, hy⟩ := ha
  have hfit : IsFileName r.fileName := by
    refine hw.name (home ++ [".downloads"]) _ ?_
    rw [show home ++ [".downloads"] ++ [r.fileName] = archiveKey home r.fileName from rfl, hy]
    simp
  have hremove := (removeFile_child_iff hl hfit.entry fun target hg => by cases hy.symm.trans hg).mpr
    ⟨⟨hzero, hfit⟩, ⟨_, _, hy⟩, rfl⟩
  unfold discard at hrun
  rcases runs_filesAt_iff.mp hrun with ⟨t, ht, rfl, rfl⟩ | ⟨e, he, -, -⟩
  · cases ht.symm.trans hremove
    exact ⟨rfl, rfl⟩
  · cases he.symm.trans hremove

theorem Ready.erase_archive {data : List UInt8} (h0 : Ready a.sources cwd home t)
    (ha : HasArchive home r data t) : Ready a.sources cwd home (t.erase (archiveKey home r.fileName)) := by
  obtain ⟨y, hy⟩ := ha
  refine h0.of_agreeOff (h0.tree.erase_of_get? hy nofun) (agreeOff_erase t _)
    (fun k hk => hk ▸ isBelow_archiveKey home r.fileName) (fun he => ?_) (fun m target he => ?_)
    fun m target he => ?_
  · exact absurd (congrArg List.length he) (by simp [archiveKey])
  · exact absurd (congrArg List.length he) (by simp [archiveKey])
  · rw [he, get?_erase_self _ (archiveKey_ne_nil home r.fileName)]
    exact nofun

/-- Outside of the downloads nothing changes when an archive is removed. -/
theorem get?_erase_archive (t : FileTree) (home : Key) (fileName : String) {n : String} (hn : n ≠ ".downloads")
    (x : Key) : (t.erase (archiveKey home fileName)).get? (home ++ n :: x) = t.get? (home ++ n :: x) := by
  refine get?_erase_ne t fun he => hn ?_
  rw [archiveKey_eq, List.append_cancel_left_eq] at he
  exact (List.cons.inj he).1

end SourceCache

end CipherCorpus
