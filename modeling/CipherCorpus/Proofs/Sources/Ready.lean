import CipherCorpus.Proofs.Archive.Extraction
import CipherCorpus.Proofs.Sources.Cache

/-!
# A sources directory that is ready

Filling the cache begins with the downloads directory.  Once that is made, the path of the sources leads
to the directory `home`, and no entry of it or of the downloads is a link (`Ready`); this stays so while
the cache is filled.  Of a state from which filling may start (`LiesAt`) it is asked that the path leads
to `home` without going through what lies in it, as soon as the downloads directory is there.

Of sources with links in them it is asked less: to start, that the downloads directory is no link
(`SourcesAt`), and then that the path leads to `home` with that directory in it (`Stands`).
-/

namespace CipherCorpus

open FileTree CipherCorpus.Path

variable {t t' : FileTree} {cwd home k : Key} {p q : Path} {n c : String} {h h' : Host}

/-! ## Assumptions -/

/-- A fetcher writes the file it is given and nothing else, and an error of it is one of fetching or
writing.  When it answers that it has an archive, it has written all of it, and the archive is a good
one. -/
structure Fetcher.Saves (fetch : Fetcher) (Good : Archive.Kind → List UInt8 → Prop) : Prop where
  host : ∀ {url dest h r h'}, Runs (fetch url dest).outcome h r h' → h'.cwd = h.cwd ∧ h'.trace = h.trace ∧
    (h'.files = h.files ∨ ∃ body, h.files.write h.cwd dest body = .ok h'.files)
  saved : ∀ {url dest h h'}, Runs (fetch url dest).outcome h (.ok ()) h' → ∃ data,
    h.files.writeBytes h.cwd dest data = .ok h'.files ∧
      ∀ kind, Archive.Kind.ofFileName? (Archive.fileNameOf url) = some kind → Good kind data
  failed : ∀ {url dest h e h'}, Runs (fetch url dest).outcome h (.error e) h' →
    (∃ message, e = .download url message) ∨ ∃ error, e = .files dest error

theorem Fetcher.Saves.mono {fetch : Fetcher} {Good Good' : Archive.Kind → List UInt8 → Prop}
    (h : fetch.Saves Good) (hg : ∀ kind data, Good kind data → Good' kind data) : fetch.Saves Good' := by
  refine ⟨h.host, fun hr => ?_, h.failed⟩
  obtain ⟨data, hw, hgood⟩ := h.saved hr
  exact ⟨data, hw, fun kind hk => hg _ _ (hgood kind hk)⟩

/-- The name of a cached tree: of an entry, and not one that begins with a dot. -/
def IsCacheName (c : String) : Prop := IsEntryName c.toList ∧ c.toList.head? ≠ some '.'

instance (c : String) : Decidable (IsCacheName c) := inferInstanceAs (Decidable (_ ∧ _))

theorem IsCacheName.ne_downloads (hc : IsCacheName c) : c ≠ ".downloads" := by
  rintro rfl
  exact hc.2 rfl

theorem IsCacheName.ne_staging (hc : IsCacheName c) (c' : String) : c ≠ ".staging-" ++ c' := by
  rintro rfl
  refine hc.2 ?_
  rw [String.toList_append]
  rfl

theorem IsFileName.of_staging (hc : IsEntryName c.toList) (h : IsFileName (".staging-" ++ c)) :
    IsFileName c := by
  refine ⟨hc, ?_, ?_⟩
  · have hsize := h.size
    rw [String.utf8ByteSize_append] at hsize
    omega
  · have hzero := h.zeroFree
    unfold ZeroFree at hzero
    rw [String.toList_append, List.any_append, Bool.or_eq_false_iff] at hzero
    exact hzero.2

namespace SourceCache

variable {sources : Path}

/-- The staging directory of a cached tree, in the sources directory. -/
def stagingKey (home : Key) (c : String) : Key := home ++ [".staging-" ++ c]

/-- A fetched archive, in the downloads directory. -/
def archiveKey (home : Key) (fileName : String) : Key := home ++ [".downloads"] ++ [fileName]

/-- The sources are in the directory `home`: their path leads there, not through what lies in it, once
the downloads directory is made, and that is no link. -/
structure SourcesAt (sources : Path) (home : Key) (h : Host) : Prop where
  tree : h.files.WellFormed
  start : h.files.get? (startOf h.cwd sources.text.toList) = some .directory
  leads : ∀ t, h.files.makeDirectories h.cwd (Layout.downloadsOf sources) = .ok t →
    t.LeadsFromOutside h.cwd sources home
  downloads : ∀ target, h.files.get? (home ++ [".downloads"]) ≠ some (.link target)

/-- The sources directory with the downloads directory in it. -/
structure Stands (sources : Path) (cwd home : Key) (t : FileTree) : Prop where
  tree : t.WellFormed
  zeroFree : ZeroFree sources.text
  leads : t.LeadsFromOutside cwd sources home
  downloads : t.get? (home ++ [".downloads"]) = some .directory

theorem isEntryName_downloads : IsEntryName ".downloads".toList := by decide

/-- Once the downloads directory is made, it stands. -/
theorem SourcesAt.stands (hat : SourcesAt sources home h)
    (hm : h.files.makeDirectories h.cwd (Layout.downloadsOf sources) = .ok t) : Stands sources h.cwd home t := by
  have hw : t.WellFormed := by
    refine hat.tree.makeDirectories (fun q hq => ?_) hm
    rw [startOf_of_mem_ancestors hq]
    show h.files.get? (startOf h.cwd (sources.child ".downloads").text.toList) = _
    rw [startOf_child _ _ (isStep_of_isEntryName isEntryName_downloads)]
    exact hat.start
  have hl := hat.leads t hm
  obtain ⟨hzero, hdown⟩ := made_child isEntryName_downloads hm hw hl.start' hl.toLeads fun target hg =>
    hat.downloads target (((changesOnly_makeDirectories hm).links _ _).mp hg)
  exact ⟨hw, hzero, hl, hdown⟩

/-- The sources directory with the downloads directory in it; no entry of either is a link. -/
structure Ready (sources : Path) (cwd home : Key) (t : FileTree) : Prop where
  tree : t.WellFormed
  zeroFree : ZeroFree sources.text
  leads : t.LeadsFromOutside cwd sources home
  downloads : t.get? (home ++ [".downloads"]) = some .directory
  entry : ∀ n target, t.get? (home ++ [n]) ≠ some (.link target)
  archive : ∀ n target, t.get? (archiveKey home n) ≠ some (.link target)

/-- A state from which the cache may be filled: the sources are in the directory `home`, to which their
path does not go through what lies in it, whether the directory is there already or still to be made, and
no entry of `home` or of the downloads is a link. -/
structure LiesAt (sources : Path) (home : Key) (h : Host) : Prop where
  tree : h.files.WellFormed
  start : h.files.get? (startOf h.cwd sources.text.toList) = some .directory
  there : h.files.get? home ≠ none → h.files.LeadsFromOutside h.cwd sources home
  leads : ∀ t, h.files.makeDirectories h.cwd (Layout.downloadsOf sources) = .ok t → t.LeadsFromOutside h.cwd sources home
  entry : ∀ n target, h.files.get? (home ++ [n]) ≠ some (.link target)
  archive : ∀ n target, h.files.get? (archiveKey home n) ≠ some (.link target)

/-- Filling may start when the sources are there. -/
theorem liesAt_of_leads (hw : h.files.WellFormed) (hl : h.files.LeadsFromOutside h.cwd sources home)
    (hentry : ∀ n target, h.files.get? (home ++ [n]) ≠ some (.link target))
    (harchive : ∀ n target, h.files.get? (archiveKey home n) ≠ some (.link target)) :
    LiesAt sources home h :=
  ⟨hw, hl.start', fun _ => hl, fun _ hm => hl.of_changesOnly (changesOnly_makeDirectories hm), hentry, harchive⟩

theorem LiesAt.sourcesAt (hat : LiesAt sources home h) : SourcesAt sources home h :=
  ⟨hat.tree, hat.start, hat.leads, hat.entry _⟩

theorem Ready.stands (hr : Ready sources cwd home t) : Stands sources cwd home t :=
  ⟨hr.tree, hr.zeroFree, hr.leads, hr.downloads⟩

/-- Making the downloads directory makes everything ready, and changes nothing else in the sources. -/
theorem LiesAt.ready (hat : LiesAt sources home h) (hm : h.files.makeDirectories h.cwd (Layout.downloadsOf sources) = .ok t) :
    Ready sources h.cwd home t ∧
      ∀ k, isBelow home k = true → k ≠ home ++ [".downloads"] → t.get? k = h.files.get? k := by
  have hc := changesOnly_makeDirectories hm
  obtain ⟨hw, hzero, hl, hdown⟩ := hat.sourcesAt.stands hm
  have hentry : ∀ n target, t.get? (home ++ [n]) ≠ some (.link target) := fun n target hg =>
    hat.entry n target ((hc.links _ _).mp hg)
  refine ⟨⟨hw, hzero, hl, hdown, hentry, fun n target hg => ?_⟩, fun k hk hne => ?_⟩
  · exact hat.archive n target ((hc.links _ _).mp hg)
  · exact get?_of_makeDirectories_child isEntryName_downloads hm hw hl (hentry _) hk hne

/-! ## Names in the sources directory -/

theorem staging_inj {c c' : String} : ".staging-" ++ c = ".staging-" ++ c' ↔ c = c' := by
  refine ⟨fun h => ?_, fun h => h ▸ rfl⟩
  have hl := congrArg String.toList h
  rw [String.toList_append, String.toList_append, List.append_cancel_left_eq] at hl
  exact String.toList_inj.mp hl

theorem prefix_below {x y : String} {rest : List String} :
    home ++ [x] <+: home ++ y :: rest ↔ x = y := by
  rw [List.prefix_append_right_inj, List.cons_prefix_cons, and_iff_left List.nil_prefix]

/-! ## The staging directory -/

/-- The directory of the staging directory, as its path has it. -/
def stagingRoot (sources : Path) (c : String) : Path := ((sources.child c).parent?).getD ⟨""⟩

theorem scratchPath_eq (sources : Path) (hc : IsEntryName c.toList) :
    scratchPath (sources.child c) = (stagingRoot sources c).child (".staging-" ++ c) := by
  unfold scratchPath withFileName stagingRoot
  rw [fileName?_child sources hc]
  rfl

/-- It is the sources directory. -/
theorem leads_stagingRoot (hc : IsEntryName c.toList) (h : t.LeadsFromOutside cwd sources home) :
    t.Leads cwd (stagingRoot sources c) home := by
  obtain ⟨q, hq, habs, hsteps, -⟩ := exists_parent?_child sources hc
  unfold stagingRoot
  rw [hq]
  exact (h.congr habs hsteps).toLeads

theorem zeroFree_stagingRoot (hc : IsEntryName c.toList) (hs : ZeroFree sources.text)
    (hz : ZeroFree c) : ZeroFree (stagingRoot sources c).text := by
  obtain ⟨q, hq, -, -, hzero⟩ := exists_parent?_child sources hc
  unfold stagingRoot
  rw [hq]
  exact hzero ((zeroFree_child hc).mpr ⟨hs, hz⟩)

/-! ## Staying ready -/

/-- The trees agree outside of `S`. -/
def AgreeOff (S : Key → Prop) (t t' : FileTree) : Prop := ∀ k, ¬ S k → t'.get? k = t.get? k

theorem AgreeOff.trans {S : Key → Prop} {t1 t2 t3 : FileTree} (h : AgreeOff S t1 t2)
    (h' : AgreeOff S t2 t3) : AgreeOff S t1 t3 := fun k hk => (h' k hk).trans (h k hk)

theorem AgreeOff.mono {S S' : Key → Prop} (h : AgreeOff S t t') (hs : ∀ k, S k → S' k) :
    AgreeOff S' t t' := fun k hk => h k fun e => hk (hs k e)

theorem agreeOff_put (t : FileTree) (k : Key) (e : Entry) : AgreeOff (· = k) t (t.put k e) :=
  fun _ hj => get?_put_ne t e hj

theorem agreeOff_erase (t : FileTree) (k : Key) : AgreeOff (· = k) t (t.erase k) :=
  fun _ hj => get?_erase_ne t hj

theorem agreeOff_eraseAll (t : FileTree) (k : Key) : AgreeOff (k <+: ·) t (t.eraseAll k) := by
  intro j hj
  by_cases h0 : j = []
  · subst h0
    rfl
  · rw [get?_eraseAll t k h0, if_neg hj]

theorem archiveKey_eq (home : Key) (fileName : String) :
    archiveKey home fileName = home ++ ".downloads" :: [fileName] := by
  unfold archiveKey
  rw [List.append_assoc]
  rfl

theorem isBelow_archiveKey (home : Key) (fileName : String) : isBelow home (archiveKey home fileName) = true := by
  rw [archiveKey_eq]
  exact isBelow_append (by simp)

/-- Everything stays ready when changes in the sources leave the downloads directory, and put no link in
the two directories. -/
theorem Ready.of_agreeOff {S : Key → Prop} (h : Ready sources cwd home t) (hw : t'.WellFormed)
    (hag : AgreeOff S t t') (hS : ∀ k, S k → isBelow home k = true) (hdown : ¬ S (home ++ [".downloads"]))
    (hentry : ∀ n target, S (home ++ [n]) → t'.get? (home ++ [n]) ≠ some (.link target))
    (harchive : ∀ n target, S (archiveKey home n) → t'.get? (archiveKey home n) ≠ some (.link target)) :
    Ready sources cwd home t' := by
  refine ⟨hw, h.zeroFree, h.leads.of_outside fun k hk => hag k fun hs => ?_,
    (hag _ hdown).trans h.downloads, fun n target hg => ?_, fun n target hg => ?_⟩
  · rw [hS k hs] at hk
    cases hk
  · by_cases hs : S (home ++ [n])
    · exact hentry n target hs hg
    · exact h.entry n target ((hag _ hs).symm.trans hg)
  · by_cases hs : S (archiveKey home n)
    · exact harchive n target hs hg
    · exact h.archive n target ((hag _ hs).symm.trans hg)

/-- At or under one of some entries of a directory. -/
def AtEntries (home : Key) (names : List String) (k : Key) : Prop := ∃ n ∈ names, home ++ [n] <+: k

theorem atEntries_iff {names : List String} {n : String} {x : Key} :
    AtEntries home names (home ++ n :: x) ↔ n ∈ names := by
  constructor
  · rintro ⟨m, hm, hp⟩
    exact prefix_below.mp hp ▸ hm
  · exact fun hn => ⟨n, hn, prefix_below.mpr rfl⟩

theorem atEntries_singleton : AtEntries home [n] k ↔ home ++ [n] <+: k := by
  simp [AtEntries]

theorem AtEntries.isBelow {names : List String} (h : AtEntries home names k) : isBelow home k = true := by
  obtain ⟨n, -, x, rfl⟩ := h
  rw [List.append_assoc]
  exact isBelow_append (by simp)

/-- Everything stays ready when other entries of the sources change, and none becomes a link. -/
theorem Ready.of_entries {names : List String} (h : Ready sources cwd home t) (hw : t'.WellFormed)
    (hag : AgreeOff (AtEntries home names) t t') (hnames : ".downloads" ∉ names)
    (hlink : ∀ n ∈ names, ∀ target, t'.get? (home ++ [n]) ≠ some (.link target)) : Ready sources cwd home t' := by
  refine h.of_agreeOff hw hag (fun k hk => hk.isBelow) (fun hk => hnames (atEntries_iff.mp hk))
    (fun n target hn => hlink n (atEntries_iff.mp hn) target) fun n target hn => ?_
  rw [archiveKey_eq] at hn
  exact absurd (atEntries_iff.mp hn) hnames

theorem isFileName_downloads : IsFileName ".downloads" := by decide

/-- The downloads directory need not be made again. -/
theorem Ready.makeDirectories_downloads (hr : Ready sources cwd home t) :
    t.makeDirectories cwd (Layout.downloadsOf sources) = .ok t :=
  (makeDirectories_child_iff hr.leads.toLeads isEntryName_downloads (hr.entry _)).mpr
    ⟨⟨hr.zeroFree, isFileName_downloads⟩, Or.inr ⟨hr.downloads, rfl⟩⟩

/-- Where everything is ready, filling may start. -/
theorem Ready.liesAt (hr : Ready sources h.cwd home h.files) : LiesAt sources home h := by
  refine ⟨hr.tree, hr.leads.start', fun _ => hr.leads, fun t hm => ?_, hr.entry, hr.archive⟩
  cases hr.makeDirectories_downloads.symm.trans hm
  exact hr.leads

/-! ## Cached trees -/

/-- A cached tree is there when its directory holds an entry of its name. -/
theorem Ready.isThere_iff (hr : Ready sources cwd home t) (hc : IsEntryName c.toList) :
    t.isThere cwd (sources.child c) = true ↔ t.get? (home ++ [c]) ≠ none := by
  rw [isThere_child_iff hr.leads.toLeads hc (hr.entry c)]
  exact and_iff_right_of_imp fun hg => ⟨hr.zeroFree, hr.tree.name home c hg⟩

/-- A cached tree that is seen is there. -/
theorem LiesAt.get?_of_hit (hat : LiesAt sources home h) (hc : IsEntryName c.toList)
    (hhome : h.files.get? home ≠ none) (hit : h.isThere (sources.child c) = true) :
    h.files.get? (home ++ [c]) ≠ none :=
  ((isThere_child_iff (hat.there hhome).toLeads hc (hat.entry c)).mp hit).2

/-- Where no cached tree is seen, none is there. -/
theorem LiesAt.free_of_miss (hat : LiesAt sources home h) (hc : IsEntryName c.toList)
    (hzero : ZeroFree sources.text) (hmiss : h.isThere (sources.child c) = false) :
    h.files.get? (home ++ [c]) = none := by
  by_contra hg
  have hhome : h.files.get? home ≠ none := by
    rw [hat.tree.parent home c hg]
    exact nofun
  have hthere := (isThere_child_iff (hat.there hhome).toLeads hc (hat.entry c)).mpr
    ⟨⟨hzero, hat.tree.name home c hg⟩, hg⟩
  cases hmiss.symm.trans hthere

end SourceCache

end CipherCorpus
