import CipherCorpus.Proofs.Archive.Neighbours
import CipherCorpus.Proofs.Sources.Cached

/-!
# What a call puts in the cache

Nothing is asked of the archive here, and of what lies in the sources only that the downloads directory
is no link (`SourcesAt`): there may be links in an archive, among the cached trees, in the place of the
staging directory and among the archives.  While the cache is filled the path of the sources leads where
it did (`Stands`), since no step takes away a directory or a link that is not in the staging directory or
at the place of the tree.

When a call that did not find its tree answers with a path, what it has extracted lies in the staging
directory before it is put in its place (`Extracts`).  If that is a single link that leads to a directory
(`IsLoneLink`), the link itself is moved to the path.  Otherwise the path is that of a directory with the
extracted tree in it, and every later call finds it (`cached_unless_lone_link`).
-/

namespace CipherCorpus.SourceCache

open FileTree CipherCorpus.Path
open Archive (Kind fileNameOf Destination)

variable {a : SourceCache} {sources p : Path} {cwd home : Key} {c n : String} {name : String}
  {version url : Option String} {r : Request} {t t' : FileTree} {h h' : Host}
  {Good : Kind → List UInt8 → Prop}

/-! ## Sources with links in them -/

namespace Stands

/-- It stands as long as everything outside of it, and the downloads directory, stays what it is. -/
theorem of_keepsKinds {S : Key → Prop} (hs : Stands sources cwd home t) (hw : t'.WellFormed)
    (hk : KeepsKinds S t t') (hS : ∀ k, S k → isBelow home k = true) (hdown : ¬ S (home ++ [".downloads"])) :
    Stands sources cwd home t' :=
  ⟨hw, hs.zeroFree, hs.leads.of_keepsKinds hk hS, hk.get?_eq hdown hs.downloads rfl⟩

/-- It stands as long as only other entries of it change. -/
theorem of_entries {names : List String} (hs : Stands sources cwd home t) (hw : t'.WellFormed)
    (hag : AgreeOff (AtEntries home names) t t') (hnames : ".downloads" ∉ names) : Stands sources cwd home t' :=
  hs.of_keepsKinds hw (.of_frame hag) (fun _ hk => hk.isBelow) fun hk => hnames (atEntries_iff.mp hk)

end Stands

/-! ## The steps -/

/-- A file is written into the downloads directory, or where a link there leads. -/
theorem Stands.of_write {body : Body} (hs : Stands a.sources cwd home t) (hn : IsEntryName n.toList)
    (hw : t.write cwd (a.downloads.child n) body = .ok t') :
    Stands a.sources cwd home t' ∧ t'.get? (archiveKey home n) ≠ none := by
  have hstart : t.get? (startOf cwd (a.downloads.child n).text.toList) = some .directory := by
    rw [startOf_child _ _ (isStep_of_isEntryName hn)]
    show t.get? (startOf cwd (a.sources.child ".downloads").text.toList) = _
    rw [startOf_child _ _ (isStep_of_isEntryName isEntryName_downloads)]
    exact hs.leads.start'
  have hs' : Stands a.sources cwd home t' :=
    hs.of_keepsKinds (S := fun _ => False) (hs.tree.write hstart hw) (keepsKinds_write hw) nofun id
  refine ⟨hs', fun hnone => ?_⟩
  -- the path of what was written is resolved to it, which is more than a free name
  obtain ⟨place, x, hr, hp, rfl⟩ := write_eq hw
  have hlink : ∀ target, (t.put place.key (.file body x)).get? (home ++ [".downloads"] ++ [n]) ≠ some (.link target) :=
    fun target hg => nomatch hnone.symm.trans hg
  obtain ⟨-, hpresent⟩ := (resolve_child_iff hs'.leads_downloads hn hlink).mp (resolve_put hr hp)
  cases hpresent.trans (placeAt_of_none hnone)

/-- The archive was fetched into the downloads directory. -/
theorem SourcesAt.of_fetchArchive (hat : SourcesAt a.sources home h) (hf : a.fetcher.Saves Good)
    (hn : IsEntryName r.fileName.toList) (hrun : Runs (a.fetchArchive r).outcome h (.ok ()) h') :
    Stands a.sources h'.cwd home h'.files ∧ h'.files.get? (archiveKey home r.fileName) ≠ none := by
  unfold fetchArchive at hrun
  rcases runs_filesAt_bind_iff.mp hrun with ⟨t, hm, hrun⟩ | ⟨e, -, he, -⟩
  · rcases Attempt.runs_bind.mp hrun with ⟨_, h1, h2, hrun⟩ | ⟨e, -, he⟩
    · obtain ⟨-, rfl⟩ := Attempt.runs_modify.mp h2
      obtain ⟨hcwd, -, -⟩ := hf.host hrun
      obtain ⟨data, hw, -⟩ := hf.saved hrun
      have hcwd : h'.cwd = h.cwd := hcwd
      rw [hcwd]
      exact (hat.stands hm).of_write hn hw
    · cases he
  · cases he

section Staging

variable (hs : Stands a.sources h.cwd home h.files) (hc : IsEntryName c.toList)
include hs hc

/-- A staging directory, or a link in its place, was removed. -/
theorem Stands.of_removeTree_staging
    (hrm : h.files.removeTree h.cwd ((stagingRoot a.sources c).child (".staging-" ++ c)) = .ok t) :
    CanStage home c h.files ∧ t = h.files.eraseAll (stagingKey home c) := by
  obtain ⟨hfit, hremoved⟩ := removeTree_entry (leads_stagingRoot hc hs.leads) (isEntryName_staging hc) hrm
  rcases hremoved with ⟨hd, rfl⟩ | ⟨⟨target, hd⟩, rfl⟩
  · exact ⟨⟨hfit.2, fun body x hx => nomatch hx.symm.trans hd⟩, rfl⟩
  · exact ⟨⟨hfit.2, fun body x hx => nomatch hx.symm.trans hd⟩,
      hs.tree.erase_eq_eraseAll fun he => nomatch hd.symm.trans he⟩

/-- Where nothing is seen and the staging directory can be made, nothing is: a link that leads nowhere is
not seen, but no directory is made in its place. -/
theorem Stands.get?_staging_of_unseen
    (hmiss : ¬ h.isThere ((stagingRoot a.sources c).child (".staging-" ++ c)) = true)
    (hmk : h.files.makeDirectories h.cwd ((stagingRoot a.sources c).child (".staging-" ++ c)) = .ok t) :
    h.files.get? (stagingKey home c) = none := by
  have hl := leads_stagingRoot hc hs.leads
  by_contra hg
  have hfit : IsFileName (".staging-" ++ c) := hs.tree.name home _ hg
  have hzero := zeroFree_stagingRoot hc hs.zeroFree (IsFileName.of_staging hc hfit).zeroFree
  refine hmiss ?_
  by_cases hlink : ∃ target, h.files.get? (stagingKey home c) = some (.link target)
  · obtain ⟨target, hlink⟩ := hlink
    exact isThere_of_isDirectory (isDirectory_of_makeDirectories_link hl hzero hfit hlink hmk)
  · exact (isThere_child_iff hl (isEntryName_staging hc) (not_exists.mp hlink)).mpr ⟨⟨hzero, hfit⟩, hg⟩

/-- The staging directory was made anew, whatever was there. -/
theorem Stands.of_resetStaging
    (hrun : Runs (resetStaging (scratchPath (a.sources.child c))).outcome h (.ok ()) h') :
    ∃ t, Staged home c h.files t ∧ h' = { h with files := t } := by
  have hn := isEntryName_staging hc
  have hl := leads_stagingRoot hc hs.leads
  have hhome := hs.leads.get?_home hs.tree
  rw [scratchPath_eq a.sources hc] at hrun
  unfold resetStaging at hrun
  rw [Attempt.runs_inspect_bind] at hrun
  split at hrun
  · rcases runs_filesAt_bind_iff.mp hrun with ⟨t1, hrm, hrun⟩ | ⟨e, -, he, -⟩
    · obtain ⟨hcan, rfl⟩ := hs.of_removeTree_staging hc hrm
      have hl1 : Leads (h.files.eraseAll (stagingKey home c)) h.cwd (stagingRoot a.sources c) home :=
        leads_stagingRoot hc (hs.of_entries (hs.tree.eraseAll _) (fun k hk => agreeOff_eraseAll _ _ k
          fun hp => hk (atEntries_singleton.mpr hp)) (downloads_ne_staging c)).leads
      have hnone : (h.files.eraseAll (stagingKey home c)).get? (stagingKey home c) = none := by
        rw [get?_eraseAll _ _ (stagingKey_ne_nil home c), if_pos (List.prefix_refl _)]
      rcases runs_filesAt_iff.mp hrun with ⟨t2, hmk, -, rfl⟩ | ⟨e, -, he, -⟩
      · obtain ⟨-, ⟨-, rfl⟩ | ⟨hd, -⟩⟩ := (makeDirectories_child_iff hl1 hn
          (fun target hg => nomatch hnone.symm.trans hg)).mp hmk
        · exact ⟨_, staged_of_put hs.tree hhome hcan (Or.inr rfl), rfl⟩
        · cases hnone.symm.trans hd
      · cases he
    · cases he
  · next hmiss =>
    rcases runs_filesAt_iff.mp hrun with ⟨t1, hmk, -, rfl⟩ | ⟨e, -, he, -⟩
    · have hnone := hs.get?_staging_of_unseen hc hmiss hmk
      obtain ⟨hfit, ⟨-, rfl⟩ | ⟨hd, -⟩⟩ := (makeDirectories_child_iff hl hn
        (fun target hg => nomatch hnone.symm.trans hg)).mp hmk
      · exact ⟨_, staged_of_put hs.tree hhome ⟨hfit.2, fun body x hx => nomatch hnone.symm.trans hx⟩
          (Or.inl ⟨rfl, hnone⟩), rfl⟩
      · cases hnone.symm.trans hd
    · cases he

end Staging

/-- Whatever is unpacked, the sources stand, and the staging directory is there. -/
theorem Stands.of_unpackFile {kind : Kind} {archive dest : Path} {x : Except SourceError Unit}
    (hs : Stands sources h.cwd home h.files) (hd : Destination h.files h.cwd dest (stagingKey home c))
    (hrun : Runs (Archive.unpackFile kind archive dest).outcome h x h') :
    Stands sources h'.cwd home h'.files ∧
      h'.files.get? (stagingKey home c) = some .directory ∧
      KeepsKinds (AtEntries home [".staging-" ++ c]) h.files h'.files := by
  rcases runs_unpackFile hrun with rfl | ⟨-, -, data, -, -, rfl⟩
  · exact ⟨hs, hd.directory, .refl _ _⟩
  · have hw : ((Archive.unpack kind h.cwd data dest).run.run h.files).2.WellFormed :=
      Archive.of_unpack (Archive.closed_wellFormed.closedUnder _) hd hd.tree kind data
    have hkeeps : KeepsKinds (AtEntries home [".staging-" ++ c]) h.files
        ((Archive.unpack kind h.cwd data dest).run.run h.files).2 :=
      (Archive.keepsKinds_unpack hd kind data).mono fun k hk => atEntries_singleton.mpr hk
    exact ⟨hs.of_keepsKinds hw hkeeps (fun k hk => hk.isBelow)
      (fun hk => downloads_ne_staging c (atEntries_iff.mp hk)),
      Archive.of_unpack ((Archive.closed_directory _).closedUnder _) hd hd.directory kind data, hkeeps⟩

/-- The downloads directory holds an archive, so nothing is moved to its name. -/
theorem Stands.ne_downloads {e : Entry} (hs : Stands sources cwd home t) (harch : t.get? (archiveKey home n) ≠ none)
    (hd : e = .directory → t.get? (home ++ [c]) = none ∨
      t.get? (home ++ [c]) = some .directory ∧ (t.below (home ++ [c])).isEmpty = true)
    (ho : e ≠ .directory → t.get? (home ++ [c]) ≠ some .directory) : c ≠ ".downloads" := by
  rintro rfl
  by_cases he : e = .directory
  · rcases hd he with hnone | ⟨-, hempty⟩
    · cases hs.downloads.symm.trans hnone
    · exact harch (get?_of_isEmpty_below hempty (by simp))
  · exact ho he hs.downloads

section Place

variable (hs : Stands a.sources h.cwd home h.files) (hc : IsEntryName c.toList)
include hs hc

/-- The whole staging directory was moved. -/
theorem Stands.of_moveWhole (harch : h.files.get? (archiveKey home n) ≠ none)
    (hrun : Runs (filesAt (a.sources.child c) fun t cwd =>
      t.rename cwd ((stagingRoot a.sources c).child (".staging-" ++ c)) (a.sources.child c)).outcome h (.ok ()) h') :
    c ≠ ".downloads" ∧ ∃ t, h' = { h with files := t } ∧ Placed home c [] h.files t := by
  rcases runs_filesAt_iff.mp hrun with ⟨t, ht, -, rfl⟩ | ⟨e, -, he, -⟩
  · obtain ⟨hfit, rfl, e, -, hdir, hother⟩ := rename_entry (leads_stagingRoot hc hs.leads)
      (isEntryName_staging hc) hs.leads.toLeads hc (by simpa using (staging_ne_self c).symm) ht
    exact ⟨hs.ne_downloads harch hdir hother, _, rfl,
      placed_of_move hs.tree (hs.leads.get?_home hs.tree) hfit⟩
  · cases he

variable (hd : h.files.get? (stagingKey home c) = some .directory)
include hd

theorem Stands.fits_staging : ZeroFree (stagingRoot a.sources c).text ∧ IsFileName (".staging-" ++ c) := by
  have hfit : IsFileName (".staging-" ++ c) := hs.tree.name home _ (by
    rw [show home ++ [".staging-" ++ c] = stagingKey home c from rfl, hd]
    simp)
  exact ⟨zeroFree_stagingRoot hc hs.zeroFree (IsFileName.of_staging hc hfit).zeroFree, hfit⟩

theorem Stands.leads_staging :
    Leads h.files h.cwd ((stagingRoot a.sources c).child (".staging-" ++ c)) (stagingKey home c) :=
  (leads_stagingRoot hc hs.leads).child (hs.fits_staging hc hd).2 hd

/-- The only entry of the staging directory was moved, and the staging directory removed. -/
theorem Stands.of_moveInner (harch : h.files.get? (archiveKey home r.fileName) ≠ none)
    (hnames : h.files.names (stagingKey home c) = [n]) (hrun : Runs (do
      filesAt (a.sources.child c) fun t cwd =>
        t.rename cwd (((stagingRoot a.sources c).child (".staging-" ++ c)).child n) (a.sources.child c)
      filesAt ((stagingRoot a.sources c).child (".staging-" ++ c)) fun t cwd =>
        t.removeDirectory cwd ((stagingRoot a.sources c).child (".staging-" ++ c))).outcome h (.ok ()) h') :
    c ≠ ".downloads" ∧ ∃ t, h' = { h with files := t } ∧ Placed home c [n] h.files t := by
  have hhome := hs.leads.get?_home hs.tree
  have hn : IsFileName n := hs.tree.name _ _ (((hs.tree.names_eq_singleton _ n).mp hnames n).mpr rfl)
  rcases runs_filesAt_bind_iff.mp hrun with ⟨t1, ht1, hrun⟩ | ⟨e, -, he, -⟩
  · obtain ⟨hfit, rfl, e, -, hdir, hother⟩ := rename_entry (hs.leads_staging hc hd) hn.entry
      hs.leads.toLeads hc (by simp [stagingKey]) ht1
    have hne := hs.ne_downloads harch hdir hother
    have hs1 : Stands a.sources h.cwd home (h.files.move (stagingKey home c ++ [n]) (home ++ [c])) := by
      refine hs.of_entries (wellFormed_move hs.tree hhome hfit [n]) (agreeOff_move h.files home [n] c) ?_
      rw [List.mem_cons, List.mem_singleton, not_or]
      exact ⟨(staging_ne_downloads c).symm, hne.symm⟩
    rcases runs_filesAt_iff.mp hrun with ⟨t2, ht2, -, rfl⟩ | ⟨e, -, he, -⟩
    · obtain rfl := removeDirectory_entry (leads_stagingRoot hc hs1.leads) (isEntryName_staging hc) ht2
      exact ⟨hne, _, rfl, (placed_of_move_erase hs.tree hhome hfit hnames).2⟩
    · cases he
  · cases he

/-- What was extracted was put in its place. -/
theorem Stands.of_putInPlace (harch : h.files.get? (archiveKey home r.fileName) ≠ none)
    (hrun : Runs (putInPlace (scratchPath (a.sources.child c)) (a.sources.child c)).outcome h (.ok ()) h') :
    c ≠ ".downloads" ∧ ∃ t, h' = { h with files := t } ∧
      Placed home c (movedTop h.files h.cwd (scratchPath (a.sources.child c)) (stagingKey home c)) h.files t := by
  have hlist : h.files.list h.cwd ((stagingRoot a.sources c).child (".staging-" ++ c)) =
      .ok (h.files.names (stagingKey home c)) :=
    (list_child_iff (leads_stagingRoot hc hs.leads) (isEntryName_staging hc)
      fun _ hg => nomatch hd.symm.trans hg).mpr ⟨hs.fits_staging hc hd, hd, rfl⟩
  rw [scratchPath_eq a.sources hc] at hrun ⊢
  unfold putInPlace at hrun
  rw [Attempt.runs_get_bind, hlist] at hrun
  unfold movedTop
  cases hnames : h.files.names (stagingKey home c) with
  | nil =>
    rw [hnames] at hrun
    exact hs.of_moveWhole hc harch hrun
  | cons m rest =>
    rw [hnames] at hrun
    cases rest with
    | cons _ _ => exact hs.of_moveWhole hc harch hrun
    | nil =>
      dsimp only at hrun ⊢
      split at hrun
      · next hdir =>
        rw [if_pos (show h.files.isDirectory h.cwd _ = true from hdir)]
        exact hs.of_moveInner hc hd harch hnames hrun
      · next hdir =>
        rw [if_neg (show ¬ h.files.isDirectory h.cwd _ = true from hdir)]
        exact hs.of_moveWhole hc harch hrun

end Place

/-- The archive was removed. -/
theorem Stands.of_discard (hs : Stands a.sources h.cwd home h.files) (hn : IsEntryName n.toList)
    (hrun : Runs (discard (a.downloads.child n)).outcome h (.ok ()) h') :
    h' = { h with files := h.files.erase (archiveKey home n) } ∧ Stands a.sources h'.cwd home h'.files := by
  obtain ⟨t, hrm, -, rfl⟩ | ⟨e, -, he, -⟩ := runs_filesAt_iff.mp hrun
  · obtain ⟨hthere, hno, rfl⟩ := removeFile_entry hs.leads_downloads hn hrm
    obtain ⟨e, hg⟩ := Option.ne_none_iff_exists'.mp hthere
    have hw := hs.tree.erase_of_get? hg fun he => hno (he ▸ hg)
    exact ⟨rfl, hs.of_keepsKinds hw (.of_frame (agreeOff_erase _ _))
      (fun k hk => hk ▸ isBelow_archiveKey home n) fun he => absurd (congrArg List.length he) (by simp)⟩
  · cases he

/-- A directory in the sources is found under its name. -/
theorem Stands.found (hs : Stands sources cwd home t) (hc : IsEntryName c.toList)
    (hd : t.get? (home ++ [c]) = some .directory) :
    t.linkStat cwd (sources.child c) = .ok (home ++ [c], .directory) ∧ t.isThere cwd (sources.child c) = true := by
  have hfit : ZeroFree sources.text ∧ IsFileName c := ⟨hs.zeroFree, hs.tree.name home c (by rw [hd]; simp)⟩
  exact ⟨(linkStat_entry_iff hs.leads.toLeads hc).mpr ⟨hfit, rfl, hd⟩,
    (isThere_child_iff hs.leads.toLeads hc fun _ he => nomatch hd.symm.trans he).mpr ⟨hfit, by rw [hd]; simp⟩⟩

/-! ## The extracted tree -/

/-- Where an extracted tree begins: at the one entry of its directory, if that is a directory itself. -/
def topOf (t : FileTree) (key : Key) : Key :=
  match t.names key with
  | [single] => if t.get? (key ++ [single]) = some .directory then [single] else []
  | _ => []

/-- Nothing was extracted but a link, which leads to a directory. -/
def IsLoneLink (h : Host) (staging : Path) (key : Key) (target : String) : Prop :=
  ∃ n, h.files.names key = [n] ∧ h.files.get? (key ++ [n]) = some (.link target) ∧
    h.isDirectory (staging.child n) = true

theorem isLoneLink_iff {staging : Path} {key : Key} {target : String} (hnames : h.files.names key = [n]) :
    IsLoneLink h staging key target ↔
      h.files.get? (key ++ [n]) = some (.link target) ∧ h.isDirectory (staging.child n) = true := by
  constructor
  · rintro ⟨m, hm, hlink⟩
    cases hnames.symm.trans hm
    exact hlink
  · exact fun hlink => ⟨n, hnames, hlink⟩

/-- A single entry that leads to a directory is one, or a link. -/
theorem Stands.isDirectory_staged_iff (hs : Stands a.sources h.cwd home h.files) (hc : IsEntryName c.toList)
    (hd : h.files.get? (stagingKey home c) = some .directory) {e : Entry}
    (hg : h.files.get? (stagingKey home c ++ [n]) = some e) (he : ∀ target, e ≠ .link target) :
    h.isDirectory ((scratchPath (a.sources.child c)).child n) = true ↔ e = .directory := by
  have hfit := hs.fits_staging hc hd
  have hn : IsFileName n := hs.tree.name _ _ (by rw [hg]; simp)
  have hzero : ZeroFree ((stagingRoot a.sources c).child (".staging-" ++ c)).text :=
    (zeroFree_child (isEntryName_staging hc)).mpr ⟨hfit.1, hfit.2.zeroFree⟩
  rw [scratchPath_eq a.sources hc]
  refine (isDirectory_child_iff (hs.leads_staging hc hd) hn.entry fun target hlink => ?_).trans ?_
  · exact he target (Option.some.inj (hg.symm.trans hlink))
  · rw [hg, Option.some.injEq]
    exact and_iff_right ⟨hzero, hn⟩

/-- What is moved is a directory, with what was extracted in it, unless it is a lone link. -/
theorem Stands.movedTop_cases (hs : Stands a.sources h.cwd home h.files) (hc : IsEntryName c.toList)
    (hd : h.files.get? (stagingKey home c) = some .directory) :
    let staging := scratchPath (a.sources.child c)
    let key := stagingKey home c
    (movedTop h.files h.cwd staging key = topOf h.files key ∧
      h.files.get? (key ++ topOf h.files key) = some .directory ∧ ∀ target, ¬ IsLoneLink h staging key target) ∨
    ∃ target, IsLoneLink h staging key target ∧
      h.files.get? (key ++ movedTop h.files h.cwd staging key) = some (.link target) := by
  intro staging key
  by_cases hsingle : ∃ n, h.files.names key = [n]
  · obtain ⟨n, hnames⟩ := hsingle
    obtain ⟨e, hg⟩ := Option.ne_none_iff_exists'.mp (((hs.tree.names_eq_singleton key n).mp hnames n).mpr rfl)
    have htop : topOf h.files key = if e = .directory then [n] else [] := by
      unfold topOf
      rw [hnames]
      dsimp only
      rw [hg]
      simp only [Option.some.injEq]
    have hmoved : movedTop h.files h.cwd staging key = if h.isDirectory (staging.child n) then [n] else [] := by
      unfold movedTop
      rw [hnames]
      rfl
    rw [htop, hmoved]
    by_cases hlink : ∃ target, e = .link target
    · obtain ⟨target, rfl⟩ := hlink
      rw [if_neg (show Entry.link target ≠ .directory by simp)]
      by_cases hdir : h.isDirectory (staging.child n) = true
      · rw [if_pos hdir]
        exact Or.inr ⟨target, (isLoneLink_iff hnames).mpr ⟨hg, hdir⟩, hg⟩
      · rw [if_neg hdir, List.append_nil]
        exact Or.inl ⟨rfl, hd, fun target hlone => hdir ((isLoneLink_iff hnames).mp hlone).2⟩
    · have hiff := hs.isDirectory_staged_iff hc hd hg (not_exists.mp hlink)
      refine Or.inl ⟨if_congr hiff rfl rfl, ?_, fun target hlone => hlink ⟨target, ?_⟩⟩
      · split
        · next he => rw [hg, he]
        · rwa [List.append_nil]
      · exact Option.some.inj (hg.symm.trans ((isLoneLink_iff hnames).mp hlone).1)
  · have hnone : ∀ {β : Type} (f : String → β) (x : β),
        (match h.files.names key with | [n] => f n | _ => x) = x := by
      intro β f x
      split
      · next n hnames => exact absurd ⟨n, hnames⟩ hsingle
      · rfl
    have htop : topOf h.files key = [] := hnone _ _
    rw [htop, List.append_nil]
    exact Or.inl ⟨hnone _ _, hd, fun target ⟨n, hnames, _⟩ => hsingle ⟨n, hnames⟩⟩

/-- On the way from `h`, a call has fetched its archive and unpacked it into an empty staging directory. -/
structure Extracts (a : SourceCache) (home : Key) (c : String) (r : Request) (h g : Host) : Prop where
  steps : ∃ h1 h2, Runs (a.fetchArchive r).outcome h (.ok ()) h1 ∧
    Runs (resetStaging (scratchPath (a.sources.child c))).outcome h1 (.ok ()) h2 ∧
    (∀ x, x ≠ [] → h2.files.get? (stagingKey home c ++ x) = none) ∧
    Runs (Archive.unpackFile r.kind (a.downloads.child r.fileName) (scratchPath (a.sources.child c))).outcome
      h2 (.ok ()) g
  directory : g.files.get? (stagingKey home c) = some .directory

/-- The tree is in the cache: its path is that of a directory, and no link, with the tree extracted on
`g` in it; and every later call finds it. -/
structure IsCached (a : SourceCache) (home : Key) (name : String) (version : Option String) (g h : Host) :
    Prop where
  found : h.files.linkStat h.cwd (a.treePath name version) = .ok (home ++ [cacheName name version], .directory)
  tree : ∀ x, treeAt home (cacheName name version) h.files x =
    g.files.get? (stagingKey home (cacheName name version) ++
      topOf g.files (stagingKey home (cacheName name version)) ++ x)
  hits : ∀ url answer h', Runs (a.tree name version url).outcome h answer h' ↔
    answer = .ok (a.treePath name version) ∧ h' = h

/-- **Whatever an archive holds, and whatever lies in the cache**: when a call that did not find its tree
answers with a path, the tree is there in a directory, unless all that was extracted is a link to a
directory; then the link is what is at the path. -/
theorem cached_unless_lone_link (hat : SourcesAt a.sources home h) (hf : a.fetcher.Saves fun _ _ => True)
    (hc : IsEntryName (cacheName name version).toList) (hmiss : h.isThere (a.treePath name version) = false)
    (hrun : Runs (a.tree name version url).outcome h (.ok p) h') :
    p = a.treePath name version ∧ ∃ r g, request name url = .ok r ∧
      a.Extracts home (cacheName name version) r h g ∧
      ((∀ target, ¬ IsLoneLink g (scratchPath p) (stagingKey home (cacheName name version)) target) →
        a.IsCached home name version g h') ∧
      ∀ target, IsLoneLink g (scratchPath p) (stagingKey home (cacheName name version)) target →
        h'.files.get? (home ++ [cacheName name version]) = some (.link target) := by
  obtain rfl := tree_path hrun
  refine ⟨rfl, ?_⟩
  rcases (runs_tree_of_miss hmiss).mp hrun with ⟨e, -, he, -⟩ | ⟨r, hreq, hrun⟩
  · cases he
  obtain ⟨h1, hfetch, hrun⟩ := runs_performAll_cons.mp hrun
  obtain ⟨h2, hreset, hrun⟩ := runs_performAll_cons.mp hrun
  obtain ⟨h3, hunpack, hrun⟩ := runs_performAll_cons.mp hrun
  obtain ⟨h4, hplace, hrun⟩ := runs_performAll_cons.mp hrun
  obtain ⟨h5, hdiscard, hrun⟩ := runs_performAll_cons.mp hrun
  obtain ⟨-, rfl⟩ := runs_pure.mp hrun
  have hreq' := request_eq hreq
  have hname : IsEntryName r.fileName.toList := hreq'.1 ▸ isEntryName_fileNameOf (hreq'.1 ▸ hreq'.2)
  obtain ⟨hs1, harch1⟩ := hat.of_fetchArchive hf hname hfetch
  obtain ⟨t2, hstaged, rfl⟩ := hs1.of_resetStaging hc hreset
  have hs2 := hs1.of_entries hstaged.tree hstaged.frame (downloads_ne_staging _)
  have harch2 := (hstaged.get?_archive r.fileName).trans_ne harch1
  obtain ⟨hs3, hd3, hkeeps⟩ := hs2.of_unpackFile
    (hs2.destination hc hstaged.can.1 hstaged.directory hstaged.empty) hunpack
  have harch3 := hkeeps.ne_none (fun hk => downloads_ne_staging _ (atEntries_iff.mp (archiveKey_eq home _ ▸ hk))) harch2
  obtain ⟨hne, t4, rfl, hplaced⟩ := hs3.of_putInPlace hc hd3 harch3 hplace
  have hs4 := hs3.of_entries hplaced.tree hplaced.frame (by
    rw [List.mem_cons, List.mem_singleton, not_or]
    exact ⟨(staging_ne_downloads _).symm, hne.symm⟩)
  obtain ⟨rfl, hs5⟩ := hs4.of_discard hname hdiscard
  have htree : ∀ x, treeAt home (cacheName name version) (t4.erase (archiveKey home r.fileName)) x = _ := fun x =>
    (get?_erase_archive t4 home r.fileName hne x).trans (hplaced.cached x)
  refine ⟨r, h3, hreq, ⟨⟨h1, _, hfetch, hreset, hstaged.empty, hunpack⟩, hd3⟩, ?_⟩
  rcases hs3.movedTop_cases hc hd3 with ⟨hmoved, hdir, hno⟩ | ⟨target, hlone, hlink⟩
  · rw [hmoved] at htree
    have hplace := (htree []).trans ((congrArg h3.files.get? (List.append_nil _)).trans hdir)
    obtain ⟨hfound, hit⟩ := hs5.found hc hplace
    exact ⟨fun _ => ⟨hfound, htree, fun url answer h' => runs_tree_of_hit hit⟩,
      fun target hlone => absurd hlone (hno target)⟩
  · refine ⟨fun hno => absurd hlone (hno target), fun target' hlone' => ?_⟩
    obtain rfl : target' = target := by
      obtain ⟨n, hnames, hg, -⟩ := hlone
      cases hg.symm.trans ((isLoneLink_iff hnames).mp hlone').1
      rfl
    exact (htree []).trans ((congrArg h3.files.get? (List.append_nil _)).trans hlink)

/-! ## Examples -/

theorem saves_filledFrom (data : List UInt8) : (filledFrom data).fetcher.Saves fun _ _ => True :=
  have h : (Fetcher.serving fun _ => data).Saves fun _ _ => True := Fetcher.saves_serving fun _ _ _ => trivial
  h

/-- An archive of a single link that leads nowhere: the directory that holds the link is cached. -/
theorem link_to_nowhere_is_cached :
    let a := filledFrom zipOfLink
    bareSources.isThere (a.treePath "y" none) = false ∧ ∃ g h',
      Runs (a.tree "y" none (some "http://h/y.zip")).outcome bareSources (.ok ⟨"/s/y"⟩) h' ∧
      a.IsCached ["s"] "y" none g h' ∧ treeAt ["s"] "y" h'.files ["l"] = some (.link "../.staging-x") := by
  intro a
  have hmiss : bareSources.isThere (a.treePath "y" none) = false := by decide +kernel
  have hy : a.yieldsTree "y" none (some "http://h/y.zip") bareSources (fun h =>
      decide (h.files.get? ["s", "y"] = some .directory) &&
        decide (treeAt ["s"] "y" h.files ["l"] = some (.link "../.staging-x"))) = true := by decide +kernel
  obtain ⟨h', hrun, htest⟩ := exists_of_yieldsTree hy
  simp only [Bool.and_eq_true, decide_eq_true_eq] at htest
  obtain ⟨hdir, hlink⟩ := htest
  obtain ⟨hp, r, g, -, -, hcached, hlone⟩ := cached_unless_lone_link liesAt_bareSources.sourcesAt
    (saves_filledFrom zipOfLink) (by decide) hmiss hrun
  have hplace : a.treePath "y" none = ⟨"/s/y"⟩ := by decide +kernel
  rw [hplace] at hrun
  have hno : ∀ target, ¬ IsLoneLink g _ _ target := fun target hl => nomatch hdir.symm.trans (hlone target hl)
  exact ⟨hmiss, g, h', hrun, hcached hno, hlink⟩

/-- An archive of a single link to the staging directory: the link is moved to the path that is answered,
from where it leads nowhere.  The next call does not find a tree, and fetches again. -/
theorem moved_link_is_no_tree :
    let a := filledFrom zipOfLink
    let url := some "http://h/x.zip"
    bareHost.isThere (a.treePath "x" none) = false ∧ ∃ h',
      Runs (a.tree "x" none url).outcome bareHost (.ok (a.treePath "x" none)) h' ∧
      h'.files.get? ["s", "x"] = some (.link "../.staging-x") ∧ h'.isThere (a.treePath "x" none) = false ∧
      ∃ h'', Runs (a.tree "x" none url).outcome h' (.ok (a.treePath "x" none)) h'' ∧
        h''.trace.fetches = ["http://h/x.zip", "http://h/x.zip"] := by
  intro a url
  have hmiss : bareHost.isThere (a.treePath "x" none) = false := by decide +kernel
  have hy : a.yieldsTree "x" none url bareHost (fun h =>
      decide (h.files.get? ["s", "x"] = some (.link "../.staging-x")) &&
        !h.isThere (a.treePath "x" none) && a.yieldsTree "x" none url h fun h =>
          decide (h.trace.fetches = ["http://h/x.zip", "http://h/x.zip"])) = true := by decide +kernel
  obtain ⟨h', hrun, htest⟩ := exists_of_yieldsTree hy
  simp only [Bool.and_eq_true, decide_eq_true_eq, Bool.not_eq_true'] at htest
  obtain ⟨⟨hlink, hgone⟩, hnext⟩ := htest
  obtain ⟨h'', hrun', hfetches⟩ := exists_of_yieldsTree hnext
  exact ⟨hmiss, h', hrun, hlink, hgone, h'', hrun', of_decide_eq_true hfetches⟩

end CipherCorpus.SourceCache
