import CipherCorpus.Proofs.Sources.Recovery
import CipherCorpus.Proofs.Sources.Rooted

/-!
# Two machines with one cache

Two machines that are the same but for what failed calls for one library may have left (`Beside`): the
sources and downloads directories, archives in the downloads, and the staging directory of its tree.  Every
call, for this library or another one, answers the same on both and leaves them so (`Beside.tree`).

The steps of a call are gone through one after the other on both machines, each with a lemma that it answers
the same and leaves the machines beside each other.
-/

namespace CipherCorpus

open FileTree CipherCorpus.Path
open Archive (Kind fileNameOf)

/-! ## Assumptions -/

/-- The machines have the same settings. -/
structure Host.SameSettings (h h' : Host) : Prop where
  cwd : h'.cwd = h.cwd
  environment : h'.environment = h.environment
  threadLimit : h'.threadLimit = h.threadLimit

theorem Host.SameSettings.refl (h : Host) : h.SameSettings h := ⟨rfl, rfl, rfl⟩

theorem Host.SameSettings.trans {h1 h2 h3 : Host} (h : h1.SameSettings h2) (h' : h2.SameSettings h3) :
    h1.SameSettings h3 :=
  ⟨h'.cwd.trans h.cwd, h'.environment.trans h.environment, h'.threadLimit.trans h.threadLimit⟩

theorem Host.SameSettings.symm {h h' : Host} (hs : h.SameSettings h') : h'.SameSettings h :=
  ⟨hs.cwd.symm, hs.environment.symm, hs.threadLimit.symm⟩

/-- A fetcher leaves the settings alone.  Its answer and what it writes depend on the address, the settings
and on whether the file can be written. -/
structure Fetcher.Steady (fetch : Fetcher) : Prop where
  settings : ∀ {url dest h x h'}, Runs (fetch url dest).outcome h x h' → h.SameSettings h'
  same : ∀ {url dest h g x y h' g'}, h.SameSettings g →
    (∀ body e, g.files.write g.cwd dest body = .error e ↔ h.files.write h.cwd dest body = .error e) →
    Runs (fetch url dest).outcome h x h' → Runs (fetch url dest).outcome g y g' →
    y = x ∧ (x = .ok () → ∃ data, h.files.writeBytes h.cwd dest data = .ok h'.files ∧
      g.files.writeBytes g.cwd dest data = .ok g'.files)

/-- What an archive is unpacked to in an empty directory is not a link alone. -/
def Archive.NoLoneLink (kind : Kind) (data : List UInt8) : Prop :=
  ∀ ⦃t : FileTree⦄ ⦃cwd : Key⦄ ⦃dest : Path⦄ ⦃top : Key⦄, Destination t cwd dest top → ∀ n target,
    ((unpack kind cwd data dest).run.run t).2.get? (top ++ [n]) = some (.link target) →
    ∃ m, m ≠ n ∧ ((unpack kind cwd data dest).run.run t).2.get? (top ++ [m]) ≠ none

/-- What is asked of the archives: they are unpacked in the same way everywhere, and not to a link alone. -/
def Archive.Portable (kind : Kind) (data : List UInt8) : Prop :=
  SelfContained kind data ∧ NoLoneLink kind data

/-- Archives of files and directories are such. -/
theorem Archive.portable_of_isPlain {kind : Kind} {data : List UInt8} (hp : isPlain kind data = true) :
    Portable kind data := by
  refine ⟨selfContained_of_isPlain hp, fun t cwd dest top hd n target hg => ?_⟩
  have hmirrors := (unpack_of_isPlain hp hd).2
  rw [hmirrors.inside _ (by simp)] at hg
  exact absurd hg (hmirrors.clear _ _)

/-- The fetcher that delivers what lies at each address is steady. -/
theorem Fetcher.steady_serving (bodies : String → List UInt8) : (Fetcher.serving bodies).Steady where
  settings hr := by
    rcases SourceCache.runs_filesAt_iff.mp hr with ⟨t, -, -, rfl⟩ | ⟨e, -, -, rfl⟩
    · exact ⟨rfl, rfl, rfl⟩
    · exact ⟨rfl, rfl, rfl⟩
  same {url dest h g x y h' g'} _ hwrite hr hr' := by
    rcases SourceCache.runs_filesAt_iff.mp hr with ⟨t, ht, rfl, rfl⟩ | ⟨e, he, rfl, rfl⟩
    · rcases SourceCache.runs_filesAt_iff.mp hr' with ⟨t', ht', rfl, rfl⟩ | ⟨e, he, rfl, rfl⟩
      · exact ⟨rfl, fun _ => ⟨_, ht, ht'⟩⟩
      · cases ht.symm.trans ((hwrite _ e).mp he)
    · rcases SourceCache.runs_filesAt_iff.mp hr' with ⟨t', ht', rfl, rfl⟩ | ⟨e', he', rfl, rfl⟩
      · cases ht'.symm.trans ((hwrite _ e).mpr he)
      · cases he.symm.trans ((hwrite _ e').mp he')
        exact ⟨rfl, nofun⟩

namespace SourceCache

variable {root : Path} {fetch : Fetcher} {top home k : Key} {c c' n : String} {h g h' g' : Host}
  {e e' : Option Entry} {r : Request} {data : List UInt8} {s t : FileTree}

/-! ## The error of a staging directory -/

/-- Why a staging directory that cannot be made cannot be made. -/
def stagingFault (sources : Path) (c : String) : FileError :=
  match ifNamed (scratchPath (sources.child c)) (".staging-" ++ c) (.ok ()) with
  | .error e => e
  | .ok () => .notDirectory

theorem resetStaging_error {a : SourceCache} {x : Except SourceError Unit}
    (hready : Ready a.sources h.cwd home h.files) (hc : IsCacheName c) (hno : ¬ CanStage home c h.files)
    (hrun : Runs (resetStaging (scratchPath (a.sources.child c))).outcome h x h') :
    x = .error (.files (scratchPath (a.sources.child c)) (stagingFault a.sources c)) := by
  have hn := isEntryName_staging hc.1
  have hlink : ∀ target, h.files.get? (home ++ [".staging-" ++ c]) ≠ some (.link target) := hready.entry _
  have hl := leads_stagingRoot hc.1 hready.leads
  have hthere : h.isThere ((stagingRoot a.sources c).child (".staging-" ++ c)) = true ↔ _ :=
    isThere_child_iff hl hn hlink
  unfold stagingFault
  rw [scratchPath_eq a.sources hc.1] at hrun ⊢
  unfold resetStaging at hrun
  rw [Attempt.runs_inspect_bind] at hrun
  dsimp only at hrun
  by_cases hfile : ∃ body x, h.files.get? (home ++ [".staging-" ++ c]) = some (.file body x)
  · obtain ⟨body, z, hg⟩ := hfile
    have hfits : IsFileName (".staging-" ++ c) := hready.tree.name home _ (by rw [hg]; simp)
    have hzero := zeroFree_stagingRoot hc.1 hready.zeroFree (IsFileName.of_staging hc.1 hfits).zeroFree
    rw [if_pos (hthere.mpr ⟨⟨hzero, hfits⟩, by rw [hg]; simp⟩)] at hrun
    have hremove := removeTree_child_eq hl hn hlink
    rw [hg] at hremove
    rcases runs_filesAt_bind_iff.mp hrun with ⟨t, ht, -⟩ | ⟨e, he, rfl, -⟩
    · have ht := hremove.symm.trans ht
      unfold ifNamed at ht
      split at ht
      · cases ht
      · split at ht <;> cases ht
    · have he := hremove.symm.trans he
      unfold ifNamed at he ⊢
      split at he
      · next hz =>
        cases he
        rw [if_pos hz]
      · next hz =>
        split at he
        · next hlong =>
          cases he
          rw [if_neg hz, if_pos hlong]
        · next hlong =>
          cases he
          rw [if_neg hz, if_neg hlong]
  · have hunfit : ¬ IsFileName (".staging-" ++ c) := fun hfits =>
      hno ⟨hfits, fun body x hx => hfile ⟨body, x, hx⟩⟩
    have hnone : h.files.get? (home ++ [".staging-" ++ c]) = none := by
      by_contra hg
      exact hunfit (hready.tree.name home _ hg)
    rw [if_neg fun ht => (hthere.mp ht).2 hnone] at hrun
    have hmake := makeDirectories_child_eq hl hn hlink
    rw [hnone] at hmake
    have hchange := runs_filesAt_iff.mp hrun
    rw [show h.files.makeDirectories h.cwd ((stagingRoot a.sources c).child (".staging-" ++ c)) = _ from hmake]
      at hchange
    unfold ifNamed at hchange ⊢
    by_cases hz : ((stagingRoot a.sources c).child (".staging-" ++ c)).text.toList.any (·.toNat == 0) = true
    · rw [if_pos hz] at hchange ⊢
      rcases hchange with ⟨t, ht, -⟩ | ⟨e, he, rfl, -⟩
      · cases ht
      · cases he
        rfl
    · rw [if_neg hz] at hchange ⊢
      by_cases hlong : nameLimit < (".staging-" ++ c).utf8ByteSize
      · rw [if_pos hlong] at hchange ⊢
        rcases hchange with ⟨t, ht, -⟩ | ⟨e, he, rfl, -⟩
        · cases ht
        · cases he
          rfl
      · exact absurd ⟨hn, Nat.not_lt.mp hlong,
          ((zeroFree_child hn).mp (Bool.not_eq_true _ ▸ hz)).2⟩ hunfit

/-! ## What may be different -/

/-- A key at which failed calls for a tree leave something. -/
def Residue (home : Key) (c : String) (k : Key) : Prop :=
  k = home ∨ k = home ++ [".downloads"] ∨ AtResidue home c k

theorem Residue.isPrefix (hk : Residue home c k) : home <+: k := by
  rcases hk with rfl | rfl | ⟨n, rfl⟩ | hk
  · exact List.prefix_refl _
  · exact List.prefix_append _ _
  · rw [archiveKey_eq]
    exact List.prefix_append _ _
  · obtain ⟨x, rfl⟩ := atEntries_singleton.mp hk
    rw [List.append_assoc]
    exact List.prefix_append _ _

/-- The entries at a key are the same, but for what failed calls may leave there. -/
structure Alike (home : Key) (c : String) (k : Key) (e e' : Option Entry) : Prop where
  same : ¬ Residue home c k → e' = e
  room : k = home ∨ k = home ++ [".downloads"] →
    (e = none ∨ e = some .directory) ∧ (e' = none ∨ e' = some .directory)
  archive : (∃ n, k = archiveKey home n) → (e' = some .directory ↔ e = some .directory)
  staging : k = stagingKey home c →
    ((∃ body x, e' = some (.file body x)) ↔ ∃ body x, e = some (.file body x))

theorem Alike.of_eq (he : e' = e) (hroom : k = home ∨ k = home ++ [".downloads"] → e = none ∨ e = some .directory) :
    Alike home c k e e' := by
  subst he
  exact ⟨fun _ => rfl, fun hk => ⟨hroom hk, hroom hk⟩, fun _ => Iff.rfl, fun _ => Iff.rfl⟩

/-- The machines are the same but for what failed calls for a tree may have left. -/
structure Beside (root : Path) (top : Key) (c : String) (h g : Host) : Prop where
  settings : h.SameSettings g
  left : Rooted root h.cwd top h.files
  right : Rooted root g.cwd top g.files
  alike : ∀ k, Alike (sourcesIn top) c k (h.files.get? k) (g.files.get? k)

namespace Beside

theorem refl (hr : Rooted root h.cwd top h.files) (ho : Open (sourcesIn top) h.files) : Beside root top c h h := by
  refine ⟨.refl h, hr, hr, fun k => .of_eq rfl ?_⟩
  rintro (rfl | rfl)
  · exact ho.sources
  · exact ho.downloads

section

variable (hb : Beside root top c h g)
include hb

theorem openLeft : Open (sourcesIn top) h.files :=
  ⟨((hb.alike _).room (Or.inl rfl)).1, ((hb.alike _).room (Or.inr rfl)).1⟩

theorem openRight : Open (sourcesIn top) g.files :=
  ⟨((hb.alike _).room (Or.inl rfl)).2, ((hb.alike _).room (Or.inr rfl)).2⟩

/-- Outside of the sources the entries are the same. -/
theorem get?_outside (hk : ¬ sourcesIn top <+: k) : g.files.get? k = h.files.get? k :=
  (hb.alike k).same fun hres => hk hres.isPrefix

/-- Cached trees are the same. -/
theorem get?_cached (hc' : IsCacheName c') (x : Key) :
    g.files.get? (sourcesIn top ++ c' :: x) = h.files.get? (sourcesIn top ++ c' :: x) := by
  refine (hb.alike _).same ?_
  rintro (he | he | hres)
  · simp at he
  · exact (cachedKey_ne hc' _ x).2.1 he
  · exact not_atResidue_cached hc' _ x c hres

/-- Changes in the sources that leave both ready, and alike where something changed. -/
theorem of_ready {Z : Key → Prop} (hh : h.SameSettings h') (hg : g.SameSettings g')
    (hready : Ready (root.child "sources") h'.cwd (sourcesIn top) h'.files)
    (hready' : Ready (root.child "sources") g'.cwd (sourcesIn top) g'.files)
    (hsub : ∀ k, Z k → sourcesIn top <+: k) (hag : AgreeOff Z h.files h'.files)
    (hag' : AgreeOff Z g.files g'.files)
    (hZ : ∀ k, Z k → Alike (sourcesIn top) c k (h'.files.get? k) (g'.files.get? k)) :
    Beside root top c h' g' where
  settings := (hh.symm.trans hb.settings).trans hg
  left := Rooted.of_ready (hh.cwd ▸ hb.left) hready (hag.mono hsub)
  right := Rooted.of_ready (hg.cwd ▸ hb.right) hready' (hag'.mono hsub)
  alike k := by
    by_cases hk : Z k
    · exact hZ k hk
    · rw [hag k hk, hag' k hk]
      exact hb.alike k

end

/-! ## Fetching -/

/-- When fetching was tried on both, it ends the same. -/
theorem fetchArchive {Good : Kind → List UInt8 → Prop} {x y : Except SourceError Unit}
    (hb : Beside root top c h g) (hf : fetch.Saves Good) (hst : fetch.Steady)
    (hr : r.fileName = fileNameOf r.url ∧ Kind.ofFileName? r.fileName = some r.kind)
    (hrun : Runs ((inRoot root fetch).fetchArchive r).outcome h x h')
    (hrun' : Runs ((inRoot root fetch).fetchArchive r).outcome g y g') :
    y = x ∧ h.SameSettings h' ∧ Beside root top c h' g' ∧
      Ready (root.child "sources") h'.cwd (sourcesIn top) h'.files ∧
      Ready (root.child "sources") g'.cwd (sourcesIn top) g'.files ∧
      (∀ c', IsCacheName c' → h'.files.get? (sourcesIn top ++ [c']) = h.files.get? (sourcesIn top ++ [c'])) ∧
      (x = .ok () → ∃ data, Good r.kind data ∧ HasArchive (sourcesIn top) r data h'.files ∧
        HasArchive (sourcesIn top) r data g'.files) := by
  have hname : IsEntryName r.fileName.toList := hr.1 ▸ isEntryName_fileNameOf (hr.1 ▸ hr.2)
  obtain ⟨s, hm, hready, hsame⟩ := hb.left.makeDownloads hb.openLeft
  obtain ⟨t, hm', hready', hsame'⟩ := hb.right.makeDownloads hb.openRight
  have htried : (inRoot root fetch).Tried (sourcesIn top) r h h' ∧ ((∃ e, x = .error e) ∨
      x = .ok () ∧ ∃ data, Good r.kind data ∧ HasArchive (sourcesIn top) r data h'.files) :=
    ((hb.left.liesAt hb.openLeft).of_fetchArchive hf hr hrun).resolve_left fun ⟨e, he, _⟩ =>
      nomatch hm.symm.trans he
  have htried' : (inRoot root fetch).Tried (sourcesIn top) r g g' :=
    (((hb.right.liesAt hb.openRight).of_fetchArchive hf hr hrun').resolve_left fun ⟨e, he, _⟩ =>
      nomatch hm'.symm.trans he).1
  obtain ⟨ht, hx⟩ := htried
  have harchive : archiveKey (sourcesIn top) r.fileName ≠ sourcesIn top ∧
      archiveKey (sourcesIn top) r.fileName ≠ sourcesIn top ++ [".downloads"] :=
    ⟨by simp [archiveKey], archiveKey_ne_downloads _ _⟩
  have hdir : t.get? (archiveKey (sourcesIn top) r.fileName) = some .directory ↔
      s.get? (archiveKey (sourcesIn top) r.fileName) = some .directory := by
    rw [hsame _ harchive.1 harchive.2, hsame' _ harchive.1 harchive.2]
    exact (hb.alike _).archive ⟨_, rfl⟩
  -- the fetcher is run on both
  obtain ⟨hyx, hset, hset', hdata⟩ : y = x ∧ h.SameSettings h' ∧ g.SameSettings g' ∧ (x = .ok () →
      ∃ data, HasArchive (sourcesIn top) r data h'.files ∧ HasArchive (sourcesIn top) r data g'.files) := by
    have hfetch : ∀ {h h' : Host} {x s}, h.files.makeDirectories h.cwd (inRoot root fetch).downloads = .ok s →
        Runs ((inRoot root fetch).fetchArchive r).outcome h x h' → ∃ h1, h1.files = s ∧ h.SameSettings h1 ∧
          Runs (fetch r.url ((inRoot root fetch).downloads.child r.fileName)).outcome h1 x h' := by
      intro h h' x s hm hrun
      unfold SourceCache.fetchArchive at hrun
      rcases runs_filesAt_bind_iff.mp hrun with ⟨s', hs', hrun⟩ | ⟨e, he, -⟩
      · cases hm.symm.trans hs'
        rcases Attempt.runs_bind.mp hrun with ⟨_, h1, hlog, hrun⟩ | ⟨e, hlog, -⟩
        · obtain ⟨-, rfl⟩ := Attempt.runs_modify.mp hlog
          exact ⟨{ h with files := s, trace := { h.trace with fetches := h.trace.fetches ++ [r.url] } }, rfl,
            ⟨rfl, rfl, rfl⟩, hrun⟩
        · cases (Attempt.runs_modify.mp hlog).1
      · cases hm.symm.trans he
    obtain ⟨h1, rfl, hs1, hrun1⟩ := hfetch hm hrun
    obtain ⟨g1, rfl, hs1', hrun1'⟩ := hfetch hm' hrun'
    have hsettings : h1.SameSettings g1 := (hs1.symm.trans hb.settings).trans hs1'
    rw [← hs1.cwd] at hready
    rw [← hs1'.cwd] at hready'
    obtain ⟨rfl, hsaved⟩ := hst.same hsettings (fun body e => write_child_error_iff (hready.leads_downloads (a := inRoot root fetch))
      (hready'.leads_downloads (a := inRoot root fetch)) hname (hready.archive _) (hready'.archive _) hdir) hrun1 hrun1'
    refine ⟨rfl, hs1.trans (hst.settings hrun1), hs1'.trans (hst.settings hrun1'), fun hok => ?_⟩
    obtain ⟨data, hw, hw'⟩ := hsaved hok
    obtain ⟨-, -, -, z, hz⟩ := hready.of_write (a := inRoot root fetch) hname hw
    obtain ⟨-, -, -, z', hz'⟩ := hready'.of_write (a := inRoot root fetch) hname hw'
    exact ⟨data, ⟨z, hz⟩, ⟨z', hz'⟩⟩
  refine ⟨hyx, hset, ?_, ht.ready, htried'.ready, fun c' hc' => ?_, fun hok => ?_⟩
  · obtain ⟨s', hs', hag⟩ := ht.made
    obtain ⟨t', ht', hag'⟩ := htried'.made
    cases hm.symm.trans hs'
    cases hm'.symm.trans ht'
    let Z (k : Key) : Prop := k = sourcesIn top ∨ k = sourcesIn top ++ [".downloads"] ∨
      k = archiveKey (sourcesIn top) r.fileName
    have hoff : ∀ {u v w : FileTree}, (∀ k, k ≠ sourcesIn top → k ≠ sourcesIn top ++ [".downloads"] →
        v.get? k = u.get? k) → AgreeOff (· = archiveKey (sourcesIn top) r.fileName) v w → AgreeOff Z u w :=
      fun huv hvw k hk => (hvw k fun he => hk (Or.inr (Or.inr he))).trans
        (huv k (fun he => hk (Or.inl he)) fun he => hk (Or.inr (Or.inl he)))
    have hhome := ht.ready.leads.get?_home ht.ready.tree
    have hhome' := htried'.ready.leads.get?_home htried'.ready.tree
    refine hb.of_ready hset hset' ht.ready htried'.ready ?_ (hoff hsame hag) (hoff hsame' hag') ?_
    · rintro k (rfl | rfl | rfl)
      · exact List.prefix_refl _
      · exact List.prefix_append _ _
      · rw [archiveKey_eq]
        exact List.prefix_append _ _
    · rintro k (rfl | rfl | rfl)
      · exact .of_eq (hhome'.trans hhome.symm) fun _ => Or.inr hhome
      · exact .of_eq (htried'.ready.downloads.trans ht.ready.downloads.symm) fun _ => Or.inr ht.ready.downloads
      · refine ⟨fun hk => absurd (Or.inr (Or.inr (Or.inl ⟨_, rfl⟩))) hk, ?_, fun _ => ?_, fun he => ?_⟩
        · rintro (he | he)
          · exact absurd he harchive.1
          · exact absurd he harchive.2
        · exact htried'.directory.trans (((hb.alike _).archive ⟨_, rfl⟩).trans ht.directory.symm)
        · exact absurd he.symm (stagingKey_ne_archiveKey _ _ _)
  · obtain ⟨hbelow, hdown, hne, -⟩ := cachedKey_ne hc' (sourcesIn top) []
    exact ht.frame _ hbelow hdown (hne _)
  · obtain ⟨data, ha, ha'⟩ := hdata hok
    rcases hx with ⟨e, he⟩ | ⟨-, data', hgood, ha''⟩
    · cases hok.symm.trans he
    · obtain rfl := ha.unique ha''
      exact ⟨_, hgood, ha, ha'⟩

/-! ## Staging -/

/-- A file stands in the way of a staging directory on both machines or on none. -/
theorem staging_iff (hb : Beside root top c h g) (c' : String) :
    (∃ body x, g.files.get? (stagingKey (sourcesIn top) c') = some (.file body x)) ↔
      ∃ body x, h.files.get? (stagingKey (sourcesIn top) c') = some (.file body x) := by
  by_cases hcc : c' = c
  · subst hcc
    exact (hb.alike _).staging rfl
  · rw [(hb.alike (stagingKey (sourcesIn top) c')).same]
    rintro (he | he | ⟨n, he⟩ | hk)
    · simp [stagingKey] at he
    · exact stagingKey_ne_downloads _ _ he
    · exact stagingKey_ne_archiveKey _ _ _ he
    · unfold stagingKey at hk
      rw [atEntries_iff, List.mem_singleton] at hk
      exact hcc (staging_inj.mp hk)

/-- Making the staging directory ends the same. -/
theorem resetStaging {x y : Except SourceError Unit} (hb : Beside root top c h g)
    (hready : Ready (root.child "sources") h.cwd (sourcesIn top) h.files)
    (hready' : Ready (root.child "sources") g.cwd (sourcesIn top) g.files) (hc' : IsCacheName c')
    (hrun : Runs (SourceCache.resetStaging (scratchPath ((root.child "sources").child c'))).outcome h x h')
    (hrun' : Runs (SourceCache.resetStaging (scratchPath ((root.child "sources").child c'))).outcome g y g') :
    y = x ∧ h.SameSettings h' ∧ Beside root top c h' g' ∧
      (x = .ok () → Staged (sourcesIn top) c' h.files h'.files ∧ Staged (sourcesIn top) c' g.files g'.files) := by
  -- making a staging directory does not depend on the fetcher
  let a : SourceCache := inRoot root fun _ _ => pure ()
  have hready : Ready a.sources h.cwd (sourcesIn top) h.files := hready
  have hready' : Ready a.sources g.cwd (sourcesIn top) g.files := hready'
  have hcan : CanStage (sourcesIn top) c' g.files ↔ CanStage (sourcesIn top) c' h.files := by
    have hfile := not_congr (hb.staging_iff c')
    unfold CanStage
    simpa only [not_exists] using and_congr_right fun _ => hfile
  rcases hready.of_resetStaging hc' hrun with ⟨s, hs, rfl, rfl⟩ | ⟨hno, rfl, -⟩
  · rcases hready'.of_resetStaging hc' hrun' with ⟨t, ht, rfl, rfl⟩ | ⟨hno', -⟩
    · refine ⟨rfl, ⟨rfl, rfl, rfl⟩, ?_, fun _ => ⟨hs, ht⟩⟩
      refine hb.of_ready ⟨rfl, rfl, rfl⟩ ⟨rfl, rfl, rfl⟩ (hs.ready hready) (ht.ready hready')
        (fun k hk => ?_) hs.frame ht.frame fun k hk => ?_
      · obtain ⟨x, hx⟩ := atEntries_singleton.mp hk
        exact ⟨[".staging-" ++ c'] ++ x, by rw [← List.append_assoc, hx]⟩
      · have hbelow := hk.isBelow
        obtain ⟨x, rfl⟩ := atEntries_singleton.mp hk
        refine .of_eq ?_ ?_
        · by_cases hx : x = []
          · rw [hx, List.append_nil]
            exact ht.directory.trans hs.directory.symm
          · exact (ht.empty x hx).trans (hs.empty x hx).symm
        · rintro (he | he)
          · rw [he, isBelow_self] at hbelow
            cases hbelow
          · have hkey := he ▸ hk
            rw [atEntries_iff] at hkey
            exact absurd hkey (downloads_ne_staging c')
    · exact absurd (hcan.mpr hs.can) hno'
  · rcases hready'.of_resetStaging hc' hrun' with ⟨t, ht, -⟩ | ⟨hno', rfl, -⟩
    · exact absurd (hcan.mp ht.can) hno
    · have hx := resetStaging_error hready hc' hno hrun
      have hy := resetStaging_error hready' hc' hno' hrun'
      refine ⟨hy.trans hx.symm, .refl _, hb, fun hok => ?_⟩
      cases hok.symm.trans hx

/-! ## Unpacking -/

/-- An archive was unpacked on both machines, and the same is there. -/
structure BothUnpacked (a : SourceCache) (home : Key) (c : String) (r : Request) (data : List UInt8)
    (h g : Host) : Prop where
  left : a.Unpacked home c h
  right : a.Unpacked home c g
  archiveLeft : HasArchive home r data h.files
  archiveRight : HasArchive home r data g.files
  inside : ∀ x, g.files.get? (stagingKey home c ++ x) = h.files.get? (stagingKey home c ++ x)
  noLoneLink : ∀ n target, h.files.get? (stagingKey home c ++ [n]) = some (.link target) →
    ∃ m, m ≠ n ∧ h.files.get? (stagingKey home c ++ [m]) ≠ none
  freeLeft : h.files.get? (home ++ [c]) = none
  freeRight : g.files.get? (home ++ [c]) = none

/-- Entries at or under one of some names in the sources are alike where they are the same. -/
theorem alike_of_atEntries {names : List String} (hnames : ".downloads" ∉ names) (hk : AtEntries home names k)
    (he : e' = e) : Alike home c k e e' := by
  refine .of_eq he ?_
  rintro (rfl | rfl)
  · have hbelow := hk.isBelow
    rw [isBelow_self] at hbelow
    cases hbelow
  · exact absurd (atEntries_iff.mp hk) hnames

/-- Unpacking ends the same. -/
theorem unpack {x y : Except SourceError Unit} (hb : Beside root top c h g)
    (hcl : Cleared (root.child "sources") h.cwd (sourcesIn top) c' h.files)
    (hcl' : Cleared (root.child "sources") g.cwd (sourcesIn top) c' g.files)
    (hp : Archive.Portable r.kind data) (hc' : IsCacheName c')
    (ha : HasArchive (sourcesIn top) r data h.files) (ha' : HasArchive (sourcesIn top) r data g.files)
    (hfree : h.files.get? (sourcesIn top ++ [c']) = none)
    (hrun : Runs ((inRoot root fetch).perform ((root.child "sources").child c') r .unpack).outcome h x h')
    (hrun' : Runs ((inRoot root fetch).perform ((root.child "sources").child c') r .unpack).outcome g y g') :
    y = x ∧ h.SameSettings h' ∧ Beside root top c h' g' ∧
      (x = .ok () → BothUnpacked (inRoot root fetch) (sourcesIn top) c' r data h' g') := by
  have hconf := hp.1.confined
  have hcl : Cleared (inRoot root fetch).sources h.cwd (sourcesIn top) c' h.files := hcl
  have hcl' : Cleared (inRoot root fetch).sources g.cwd (sourcesIn top) c' g.files := hcl'
  obtain ⟨z, hopen⟩ := hcl.ready.openRead_archive ha
  obtain ⟨z', hopen'⟩ := hcl'.ready.openRead_archive ha'
  rcases hu : (Archive.unpack r.kind h.cwd data (scratchPath ((root.child "sources").child c'))).run.run h.files
    with ⟨outcome, s⟩
  rcases hu' : (Archive.unpack r.kind g.cwd data (scratchPath ((root.child "sources").child c'))).run.run g.files
    with ⟨outcome', t⟩
  obtain ⟨rfl, rfl⟩ := runs_unpack hopen hu hrun
  obtain ⟨rfl, rfl⟩ := runs_unpack hopen' hu' hrun'
  obtain ⟨result, tree, hall⟩ := hp.1
  obtain ⟨ho, hinside, -⟩ := hall (hcl.destination hc')
  obtain ⟨ho', hinside', -⟩ := hall (hcl'.destination hc')
  have hlone := hp.2 (hcl.destination hc')
  have hdir := hcl.directory_unpack hconf hc' hu
  have hdir' := hcl'.directory_unpack hconf hc' hu'
  have hag := hcl.agreeOff_unpack hconf hc' hu
  have hag' := hcl'.agreeOff_unpack hconf hc' hu'
  rw [hu] at ho hinside hlone
  rw [hu'] at ho' hinside'
  have hsame : ∀ x, t.get? (stagingKey (sourcesIn top) c' ++ x) = s.get? (stagingKey (sourcesIn top) c' ++ x) := by
    intro x
    by_cases hx : x = []
    · rw [hx, List.append_nil]
      exact hdir'.trans hdir.symm
    · exact (hinside' x hx).trans (hinside x hx).symm
  have hplace : ¬ AtEntries (sourcesIn top) [".staging-" ++ c'] (sourcesIn top ++ [c']) :=
    (cachedKey_ne hc' (sourcesIn top) []).2.2.2 c'
  have houtcome : outcome' = outcome := ho'.trans ho.symm
  refine ⟨by rw [houtcome], ⟨rfl, rfl, rfl⟩, ?_, fun _ => ?_⟩
  · refine hb.of_ready ⟨rfl, rfl, rfl⟩ ⟨rfl, rfl, rfl⟩ (hcl.ready_unpack hconf hc' hu)
      (hcl'.ready_unpack hconf hc' hu') (fun k hk => ?_) hag hag' fun k hk => ?_
    · obtain ⟨x, rfl⟩ := atEntries_singleton.mp hk
      rw [List.append_assoc]
      exact List.prefix_append _ _
    · refine alike_of_atEntries (downloads_ne_staging c') hk ?_
      obtain ⟨x, rfl⟩ := atEntries_singleton.mp hk
      exact hsame x
  · exact {
      left := hcl.unpacked hconf hc' hu
      right := hcl'.unpacked hconf hc' hu'
      archiveLeft := hcl.hasArchive_unpack hconf hc' hu ha
      archiveRight := hcl'.hasArchive_unpack hconf hc' hu' ha'
      inside := hsame
      noLoneLink := hlone
      freeLeft := (hag _ hplace).trans hfree
      freeRight := (hag' _ hplace).trans ((hb.get?_cached hc' []).trans hfree) }

/-! ## Putting in place -/

/-- Where no link is alone, one directory alone is moved, or else the staging directory. -/
theorem movedTop_cases {a : SourceCache} (hu : a.Unpacked home c h) (hc : IsCacheName c)
    (hlone : ∀ n target, h.files.get? (stagingKey home c ++ [n]) = some (.link target) →
      ∃ m, m ≠ n ∧ h.files.get? (stagingKey home c ++ [m]) ≠ none) :
    let moved := movedTop h.files h.cwd (scratchPath (a.sources.child c)) (stagingKey home c)
    let Only := fun n => h.files.get? (stagingKey home c ++ [n]) = some .directory ∧
      ∀ m, h.files.get? (stagingKey home c ++ [m]) ≠ none ↔ m = n
    (∃ n, moved = [n] ∧ Only n) ∨ moved = [] ∧ ∀ n, ¬ Only n := by
  intro moved Only
  have hmoved : moved = movedTop h.files h.cwd (scratchPath (a.sources.child c)) (stagingKey home c) := rfl
  have hzero := (hu.fitsRoot hc).1
  have hstaging : Leads h.files h.cwd (scratchPath (a.sources.child c)) (stagingKey home c) := by
    rw [scratchPath_eq a.sources hc.1]
    exact (leads_stagingRoot hc.1 hu.ready.leads).child hu.fits hu.directory
  unfold movedTop at hmoved
  split at hmoved
  · next n hnames =>
    have honly := (hu.ready.tree.names_eq_singleton _ n).mp hnames
    have hfit : IsFileName n := hu.ready.tree.name _ n ((honly n).mpr rfl)
    have hlink : ∀ target, h.files.get? (stagingKey home c ++ [n]) ≠ some (.link target) := by
      intro target hg
      obtain ⟨m, hne, hm⟩ := hlone n target hg
      exact hne ((honly m).mp hm)
    have hdir := isDirectory_child_iff hstaging hfit.entry hlink
    split at hmoved
    · next hd => exact Or.inl ⟨n, hmoved, (hdir.mp hd).2, honly⟩
    · next hd =>
      refine Or.inr ⟨hmoved, fun m hm => hd (hdir.mpr ⟨⟨?_, hfit⟩, ?_⟩)⟩
      · rw [scratchPath_eq a.sources hc.1]
        exact (zeroFree_child (isEntryName_staging hc.1)).mpr ⟨hzero, hu.fits.zeroFree⟩
      · obtain rfl := (honly m).mp (by rw [hm.1]; exact nofun)
        exact hm.1
  · next hmany =>
    exact Or.inr ⟨hmoved, fun n hn => hmany n ((hu.ready.tree.names_eq_singleton _ n).mpr hn.2)⟩

theorem BothUnpacked.movedTop_eq {a : SourceCache} (hl : BothUnpacked a home c r data h g) (hc : IsCacheName c) :
    movedTop g.files g.cwd (scratchPath (a.sources.child c)) (stagingKey home c) =
      movedTop h.files h.cwd (scratchPath (a.sources.child c)) (stagingKey home c) ∧
    h.files.get? (stagingKey home c ++
      movedTop h.files h.cwd (scratchPath (a.sources.child c)) (stagingKey home c)) = some .directory := by
  have hright := movedTop_cases hl.right hc fun n target => by
    simp only [hl.inside]
    exact hl.noLoneLink n target
  simp only [hl.inside] at hright
  rcases movedTop_cases hl.left hc hl.noLoneLink with ⟨n, hn, hone⟩ | ⟨hnil, hnone⟩
  · rcases hright with ⟨m, hm, hone'⟩ | ⟨-, hnone'⟩
    · obtain rfl := (hone.2 m).mp ((hone'.2 m).mpr rfl)
      exact ⟨hm.trans hn.symm, by rw [hn]; exact hone.1⟩
    · exact absurd hone (hnone' n)
  · rcases hright with ⟨m, -, hone'⟩ | ⟨hnil', -⟩
    · exact absurd hone' (hnone m)
    · exact ⟨hnil'.trans hnil.symm, by rw [hnil, List.append_nil]; exact hl.left.directory⟩

/-- What was unpacked is put in its place, and the sources are ready. -/
theorem ready_of_placed {a : SourceCache} {moved : Key} (hu : a.Unpacked home c h) (hc : IsCacheName c)
    (hp : Placed home c moved h.files t)
    (hd : h.files.get? (stagingKey home c ++ moved) = some .directory) : Ready a.sources h.cwd home t := by
  refine hu.ready.of_entries hp.tree hp.frame ?_ fun n hn target hg => ?_
  · rw [List.mem_cons, List.mem_singleton, not_or]
    exact ⟨(staging_ne_downloads c).symm, hc.ne_downloads.symm⟩
  · rw [List.mem_cons, List.mem_singleton] at hn
    rcases hn with rfl | rfl
    · have hnone := hp.staging []
      rw [List.append_nil] at hnone
      cases hnone.symm.trans hg
    · have hcached : t.get? (home ++ [n]) = some .directory :=
        (hp.cached []).trans (by rw [List.append_nil]; exact hd)
      cases hcached.symm.trans hg

/-- Putting in place and removing the archive end the same. -/
theorem place {x y : Except SourceError Path} (hb : Beside root top c h g)
    (hl : BothUnpacked (inRoot root fetch) (sourcesIn top) c' r data h g) (hc' : IsCacheName c')
    (hrun : Runs ((inRoot root fetch).performAll ((root.child "sources").child c') r [.place, .discard]).outcome
      h x h')
    (hrun' : Runs ((inRoot root fetch).performAll ((root.child "sources").child c') r [.place, .discard]).outcome
      g y g') : y = x ∧ h.SameSettings h' ∧ Beside root top c h' g' ∧
      h'.files.get? (sourcesIn top ++ [c']) ≠ none := by
  obtain ⟨hmoved, hd⟩ := hl.movedTop_eq hc'
  rcases placed_or_blocked hl.left hc' hl.archiveLeft hrun with ⟨s, hp, harch, rfl, rfl⟩ | ⟨hblock, -⟩
  · rcases placed_or_blocked hl.right hc' hl.archiveRight hrun' with ⟨t, hp', harch', rfl, rfl⟩ | ⟨hblock, -⟩
    · rw [hmoved] at hp'
      have hready := (ready_of_placed hl.left hc' hp hd).erase_archive harch
      have hready' := (ready_of_placed hl.right hc' hp' ((hl.inside _).trans hd)).erase_archive harch'
      have hnames : ".downloads" ∉ [".staging-" ++ c', c'] := by
        rw [List.mem_cons, List.mem_singleton, not_or]
        exact ⟨(staging_ne_downloads c').symm, hc'.ne_downloads.symm⟩
      let Z (k : Key) : Prop := AtEntries (sourcesIn top) [".staging-" ++ c', c'] k ∨
        k = archiveKey (sourcesIn top) r.fileName
      have hoff : ∀ {u v : FileTree}, AgreeOff (AtEntries (sourcesIn top) [".staging-" ++ c', c']) u v →
          AgreeOff Z u (v.erase (archiveKey (sourcesIn top) r.fileName)) := fun huv k hk =>
        (get?_erase_ne _ fun he => hk (Or.inr he)).trans (huv k fun hk' => hk (Or.inl hk'))
      have hthere := (get?_erase_archive s (sourcesIn top) r.fileName hc'.ne_downloads []).trans (hp.cached [])
      rw [List.append_nil, hd] at hthere
      refine ⟨rfl, ⟨rfl, rfl, rfl⟩, hb.of_ready ⟨rfl, rfl, rfl⟩ ⟨rfl, rfl, rfl⟩ hready hready' ?_
        (hoff hp.frame) (hoff hp'.frame) ?_, by rw [hthere]; simp⟩
      · rintro k (⟨n, -, x, rfl⟩ | rfl)
        · rw [List.append_assoc]
          exact List.prefix_append _ _
        · rw [archiveKey_eq]
          exact List.prefix_append _ _
      · rintro k (hk | rfl)
        · refine alike_of_atEntries hnames hk ?_
          obtain ⟨n, hn, x, rfl⟩ := hk
          have hne : n ≠ ".downloads" := fun he => hnames (he ▸ hn)
          have herase := fun u => get?_erase_archive u (sourcesIn top) r.fileName hne x
          rw [List.append_assoc, List.singleton_append]
          refine (herase t).trans (Eq.trans ?_ (herase s).symm)
          rw [List.mem_cons, List.mem_singleton] at hn
          rcases hn with rfl | rfl
          · have hnone := hp.staging x
            have hnone' := hp'.staging x
            rw [stagingKey, List.append_assoc] at hnone hnone'
            exact hnone'.trans hnone.symm
          · refine (hp'.cached x).trans (Eq.trans ?_ (hp.cached x).symm)
            rw [List.append_assoc]
            exact hl.inside _
        · have hself := fun u => get?_erase_self u (archiveKey_ne_nil (sourcesIn top) r.fileName)
          refine .of_eq ((hself t).trans (hself s).symm) ?_
          rintro (he | he)
          · simp [archiveKey] at he
          · exact absurd he (archiveKey_ne_downloads _ _)
    · exact absurd hl.freeRight hblock
  · exact absurd hl.freeLeft hblock

/-! ## Calls -/

/-- Work that goes on goes on both machines, or it ends the same with its first step. -/
theorem performAll_cons {a : SourceCache} {cached : Path} {w : Work} {rest : List Work}
    {x y : Except SourceError Path} {P : Host → Host → Prop}
    (hrun : Runs (a.performAll cached r (w :: rest)).outcome h x h')
    (hrun' : Runs (a.performAll cached r (w :: rest)).outcome g y g')
    (hstep : ∀ {x1 y1 h1 g1}, Runs (a.perform cached r w).outcome h x1 h1 →
      Runs (a.perform cached r w).outcome g y1 g1 →
      y1 = x1 ∧ h.SameSettings h1 ∧ Beside root top c h1 g1 ∧ (x1 = .ok () → P h1 g1)) :
    (y = x ∧ h.SameSettings h' ∧ Beside root top c h' g' ∧ ∃ e, x = .error e) ∨
      ∃ h1 g1, h.SameSettings h1 ∧ Beside root top c h1 g1 ∧ P h1 g1 ∧
        Runs (a.performAll cached r rest).outcome h1 x h' ∧
        Runs (a.performAll cached r rest).outcome g1 y g' := by
  rcases runs_performAll.mp hrun with ⟨h1, hw, hrest⟩ | ⟨e, hw, rfl⟩
  · rcases runs_performAll.mp hrun' with ⟨g1, hw', hrest'⟩ | ⟨e, hw', rfl⟩
    · obtain ⟨-, hset, hb, hp⟩ := hstep hw hw'
      exact Or.inr ⟨h1, g1, hset, hb, hp rfl, hrest, hrest'⟩
    · cases (hstep hw hw').1
  · rcases runs_performAll.mp hrun' with ⟨g1, hw', hrest'⟩ | ⟨e', hw', rfl⟩
    · cases (hstep hw hw').1
    · obtain ⟨he, hset, hb, -⟩ := hstep hw hw'
      cases he
      exact Or.inl ⟨rfl, hset, hb, _, rfl⟩

/-- **A call answers the same** on machines that are beside each other, and leaves them so.  When it gives a
tree, the tree is there. -/
theorem tree {name : String} {version url : Option String} {x y : Except SourceError Path}
    (hb : Beside root top c h g) (hf : fetch.Saves Archive.Portable) (hst : fetch.Steady)
    (hc' : IsCacheName (cacheName name version))
    (hrun : Runs ((inRoot root fetch).tree name version url).outcome h x h')
    (hrun' : Runs ((inRoot root fetch).tree name version url).outcome g y g') :
    y = x ∧ h.SameSettings h' ∧ Beside root top c h' g' ∧
      ∀ p, x = .ok p → h'.files.get? (sourcesIn top ++ [cacheName name version]) ≠ none := by
  have hthere : h.isThere ((inRoot root fetch).treePath name version) = true ↔ _ :=
    hb.left.isThere_iff hc'.1
  have hthere' : g.isThere ((inRoot root fetch).treePath name version) = true ↔ _ :=
    hb.right.isThere_iff hc'.1
  rw [hb.get?_cached hc' [], ← hthere] at hthere'
  by_cases hit : h.isThere ((inRoot root fetch).treePath name version) = true
  · obtain ⟨rfl, rfl⟩ := (runs_tree_of_hit hit).mp hrun
    obtain ⟨rfl, rfl⟩ := (runs_tree_of_hit (hthere'.mpr hit)).mp hrun'
    exact ⟨rfl, .refl _, hb, fun _ _ => hthere.mp hit⟩
  have hmiss := Bool.eq_false_of_not_eq_true hit
  have hmiss' : g.isThere ((inRoot root fetch).treePath name version) = false :=
    Bool.eq_false_of_not_eq_true fun h => hit (hthere'.mp h)
  have hfree : h.files.get? (sourcesIn top ++ [cacheName name version]) = none := by
    by_contra hne
    exact hit (hthere.mpr hne)
  rcases (runs_tree_of_miss hmiss).mp hrun with ⟨e, he, rfl, rfl⟩ | ⟨r, hr, hwork⟩
  · rcases (runs_tree_of_miss hmiss').mp hrun' with ⟨e', he', rfl, rfl⟩ | ⟨r, hr, -⟩
    · cases he.symm.trans he'
      exact ⟨rfl, .refl _, hb, nofun⟩
    · cases he.symm.trans hr
  · rcases (runs_tree_of_miss hmiss').mp hrun' with ⟨e', he', -⟩ | ⟨r', hr', hwork'⟩
    · cases hr.symm.trans he'
    cases hr.symm.trans hr'
    have hq := request_eq hr
    have hfetch : ∀ {x1 y1 h1 g1},
        Runs ((inRoot root fetch).perform ((root.child "sources").child (cacheName name version)) r .fetch).outcome
          h x1 h1 →
        Runs ((inRoot root fetch).perform ((root.child "sources").child (cacheName name version)) r .fetch).outcome
          g y1 g1 → y1 = x1 ∧ h.SameSettings h1 ∧ Beside root top c h1 g1 ∧
          (x1 = .ok () → Ready (root.child "sources") h1.cwd (sourcesIn top) h1.files ∧
            Ready (root.child "sources") g1.cwd (sourcesIn top) g1.files ∧
            h1.files.get? (sourcesIn top ++ [cacheName name version]) = none ∧
            ∃ data, Archive.Portable r.kind data ∧ HasArchive (sourcesIn top) r data h1.files ∧
              HasArchive (sourcesIn top) r data g1.files) := by
      intro x1 y1 h1 g1 hw hw'
      obtain ⟨he, hset, hb1, hready, hready', hkeep, hdata⟩ := hb.fetchArchive hf hst hq hw hw'
      exact ⟨he, hset, hb1, fun hok => ⟨hready, hready', (hkeep _ hc').trans hfree, hdata hok⟩⟩
    rcases performAll_cons hwork hwork' hfetch with
      ⟨he, hset, hend, e, rfl⟩ | ⟨h1, g1, hset1, hb1, ⟨hready, hready', hfree1, data, hp, ha, ha'⟩, hwork, hwork'⟩
    · exact ⟨he, hset, hend, nofun⟩
    rcases performAll_cons hwork hwork' (hb1.resetStaging hready hready' hc') with
      ⟨he, hset, hend, e, rfl⟩ | ⟨h2, g2, hset2, hb2, ⟨hs, hs'⟩, hwork, hwork'⟩
    · exact ⟨he, hset1.trans hset, hend, nofun⟩
    have hcwd : g2.cwd = g1.cwd := by rw [hb2.settings.cwd, hset2.cwd, hb1.settings.cwd]
    have hcl : Cleared (root.child "sources") h2.cwd (sourcesIn top) (cacheName name version) h2.files :=
      hset2.cwd ▸ hs.cleared (a := inRoot root fetch) hready
    have hcl' : Cleared (root.child "sources") g2.cwd (sourcesIn top) (cacheName name version) g2.files :=
      hcwd ▸ hs'.cleared (a := inRoot root fetch) hready'
    have hfree2 : h2.files.get? (sourcesIn top ++ [cacheName name version]) = none :=
      (hs.frame _ ((cachedKey_ne hc' (sourcesIn top) []).2.2.2 _)).trans hfree1
    have hunpack : ∀ {x1 y1 h3 g3},
        Runs ((inRoot root fetch).perform ((root.child "sources").child (cacheName name version)) r .unpack).outcome
          h2 x1 h3 →
        Runs ((inRoot root fetch).perform ((root.child "sources").child (cacheName name version)) r .unpack).outcome
          g2 y1 g3 → y1 = x1 ∧ h2.SameSettings h3 ∧ Beside root top c h3 g3 ∧ (x1 = .ok () →
            BothUnpacked (inRoot root fetch) (sourcesIn top) (cacheName name version) r data h3 g3) :=
      hb2.unpack hcl hcl' hp hc' (hs.hasArchive ha) (hs'.hasArchive ha') hfree2
    rcases performAll_cons hwork hwork' hunpack with
      ⟨he, hset, hend, e, rfl⟩ | ⟨h3, g3, hset3, hb3, hboth, hwork, hwork'⟩
    · exact ⟨he, hset1.trans (hset2.trans hset), hend, nofun⟩
    · obtain ⟨he, hset, hend, hplaced⟩ := hb3.place hboth hc' hwork hwork'
      exact ⟨he, hset1.trans (hset2.trans (hset3.trans hset)), hend, fun _ _ => hplaced⟩

end Beside

section

variable {name : String} {version url : Option String} {x : Except SourceError Path}
  (hr : Rooted root h.cwd top h.files) (hc : IsCacheName (cacheName name version))
  (hrun : Runs ((inRoot root fetch).tree name version url).outcome h x h')
include hr hc hrun

/-- A call that finds no room for the downloads changes nothing. -/
theorem Rooted.open_or_unchanged : Open (sourcesIn top) h.files ∨ h' = h ∧
    ∀ p, x = .ok p → h.files.get? (sourcesIn top ++ [cacheName name version]) ≠ none := by
  by_cases hit : h.isThere ((inRoot root fetch).treePath name version) = true
  · exact Or.inr ⟨((runs_tree_of_hit hit).mp hrun).2, fun _ _ => (hr.isThere_iff hc.1).mp hit⟩
  rcases (runs_tree_of_miss (Bool.eq_false_of_not_eq_true hit)).mp hrun with ⟨e, -, rfl, he⟩ | ⟨r, -, hwork⟩
  · exact Or.inr ⟨he, nofun⟩
  · cases hm : h.files.makeDirectories h.cwd (inRoot root fetch).downloads with
    | ok t => exact Or.inl (hr.open_of_made hm)
    | error e =>
      have hfetch : ∀ {x1 h1}, Runs ((inRoot root fetch).fetchArchive r).outcome h x1 h1 →
          h1 = h ∧ ∃ e, x1 = .error e := by
        intro x1 h1 hw
        unfold SourceCache.fetchArchive at hw
        rcases runs_filesAt_bind_iff.mp hw with ⟨t, ht, -⟩ | ⟨e', -, rfl, rfl⟩
        · cases hm.symm.trans ht
        · exact ⟨rfl, _, rfl⟩
      rcases runs_performAll.mp hwork with ⟨h1, hw, -⟩ | ⟨e', hw, rfl⟩
      · obtain ⟨-, e', he⟩ := hfetch hw
        cases he
      · exact Or.inr ⟨(hfetch hw).1, nofun⟩

variable (hf : fetch.Saves Archive.Portable) (hst : fetch.Steady)
include hf hst

/-- The root stays in use, whatever comes of a call. -/
theorem Rooted.of_tree : Rooted root h'.cwd top h'.files ∧ h.SameSettings h' ∧
    ∀ p, x = .ok p → h'.files.get? (sourcesIn top ++ [cacheName name version]) ≠ none := by
  rcases hr.open_or_unchanged hc hrun with ho | ⟨rfl, hthere⟩
  · obtain ⟨-, hset, hb, hthere⟩ := (Beside.refl (c := cacheName name version) hr ho).tree hf hst hc hrun hrun
    exact ⟨hb.left, hset, hthere⟩
  · exact ⟨hr, .refl _, hthere⟩

/-- **A failed call leaves the machine beside itself**, when it did not fail on files. -/
theorem Rooted.beside_of_failed {e : SourceError} (hx : x = .error e) (hout : OutsideFiles e) :
    h' = h ∨ Beside root top (cacheName name version) h h' := by
  subst hx
  rcases hr.open_or_unchanged hc hrun with ho | ⟨he, -⟩
  · obtain ⟨-, hset, hb, -⟩ := (Beside.refl (c := cacheName name version) hr ho).tree hf hst hc hrun hrun
    have hends := ends (d := ⟨name, version, url⟩) (hr.liesAt ho) hf hc hrun
    refine (hends.behind (fun _ _ hgood => hgood.1.confined) hc hout).imp_right fun hbehind => ?_
    obtain ⟨t, hm, -, hsame⟩ := hr.makeDownloads ho
    obtain ⟨t', hm', hag⟩ := hbehind.made
    cases hm.symm.trans hm'
    refine ⟨hset, hr, hb.left, fun k => ⟨fun hk => ?_, ?_, ?_, fun hk => hk ▸ hbehind.staging⟩⟩
    · obtain ⟨hhome, hdown, hres⟩ := not_or.mp hk |>.imp_right not_or.mp
      exact (hag k hres).trans (hsame k hhome hdown)
    · rintro (rfl | rfl)
      · exact ⟨ho.sources, Or.inr (hbehind.ready.leads.get?_home hbehind.ready.tree)⟩
      · exact ⟨ho.downloads, Or.inr hbehind.ready.downloads⟩
    · rintro ⟨n, rfl⟩
      exact hbehind.directory n
  · exact Or.inl he

end

end SourceCache

end CipherCorpus
