import CipherCorpus.Proofs.Archive.Unpack
import CipherCorpus.Proofs.FileTree.Home
import CipherCorpus.Proofs.Host
import CipherCorpus.Sources.Cache
import Mathlib.Data.List.TakeWhile

/-!
# What looking for sources changes

Each step of `SourceCache.tree` works on paths under the sources directory, so whatever comes of it, a
tree, an error or a fault on the way, nothing changes outside of that directory (`tree_changes`).  Of
the outside it is asked that the fetcher writes only the file it is given, and that the archives which
it delivers are unpacked below their destination.
-/

namespace CipherCorpus

open FileTree CipherCorpus.Path
open Archive (under Kind fileNameOf StaysBelow)

/-- A fetcher writes only the file it is given, and the archives that it delivers are unpacked below
their destination. -/
structure Fetcher.Delivers (fetch : Fetcher) : Prop where
  touches : ∀ url dest h r h', Runs (fetch url dest).outcome h r h' → h.TouchesOnly dest h'
  archives : ∀ url dest h h', Runs (fetch url dest).outcome h (.ok ()) h' →
    ∀ kind, Kind.ofFileName? (fileNameOf url) = some kind →
    ∀ place body executable, h.files.resolve h.cwd true dest = .ok place →
      h'.files.get? place.key = some (.file body executable) → StaysBelow kind body.data

/-- The fetcher that delivers the same bytes for every address. -/
def Fetcher.delivering (data : List UInt8) : Fetcher := fun _ dest =>
  (change fun t cwd => t.writeBytes cwd dest data).inWords (.files dest)

namespace SourceCache

variable {root archive cached dest p : Path} {home : Key} {h h' : Host} {a : SourceCache}
  {name : String} {version url : Option String} {S : Key → Prop}

/-! ## Names in the sources directory -/

theorem isEntryName_cacheName (hn : IsEntryName name.toList) (hv : ∀ v ∈ version, '/' ∉ v.toList) :
    IsEntryName (cacheName name version).toList := by
  cases version with
  | none => exact hn
  | some v =>
    have hv := hv v rfl
    obtain ⟨hsep, hne, -⟩ := hn
    have he : (cacheName name (some v)).toList = name.toList ++ '-' :: v.toList := by
      unfold cacheName
      simp [String.toList_append]
    have hdash : '-' ∈ (cacheName name (some v)).toList := by simp [he]
    refine ⟨by simp [he, hsep, hv], fun h => ?_, fun h => ?_, fun h => ?_⟩
    · rw [h] at hdash
      cases hdash
    · rw [h] at hdash
      exact absurd hdash (by decide)
    · rw [h] at hdash
      exact absurd hdash (by decide)

theorem isEntryName_staging {c : String} (hc : IsEntryName c.toList) :
    IsEntryName (".staging-" ++ c).toList := by
  have he : (".staging-" ++ c).toList = ".staging-".toList ++ c.toList := String.toList_append
  have hdash : '-' ∈ (".staging-" ++ c).toList := by
    rw [he]
    exact List.mem_append_left _ (by decide)
  refine ⟨?_, fun h => ?_, fun h => ?_, fun h => ?_⟩
  · rw [he, List.mem_append, not_or]
    exact ⟨by decide, hc.1⟩
  · rw [h] at hdash
    cases hdash
  · rw [h] at hdash
    exact absurd hdash (by decide)
  · rw [h] at hdash
    exact absurd hdash (by decide)

/-- The name of an archive that can be unpacked is the name of an entry. -/
theorem isEntryName_fileNameOf {url : String} {kind : Kind}
    (hk : Kind.ofFileName? (fileNameOf url) = some kind) : IsEntryName (fileNameOf url).toList := by
  have hsep : '/' ∉ (fileNameOf url).toList := by
    unfold fileNameOf
    dsimp only
    split
    · decide
    · rw [String.toList_ofList, List.mem_reverse]
      intro hm
      have := List.mem_takeWhile_imp hm
      simp at this
  have hlength : 4 ≤ (fileNameOf url).toList.length := by
    unfold Kind.ofFileName? at hk
    dsimp only at hk
    have hmap : ((fileNameOf url).toList.map Char.toLower).length = (fileNameOf url).toList.length :=
      List.length_map _
    split at hk
    · next h =>
      rcases Bool.or_eq_true _ _ ▸ h with h | h
      · have := (List.isSuffixOf_iff_suffix.mp h).length_le
        rw [hmap] at this
        exact Nat.le_trans (by decide) this
      · have := (List.isSuffixOf_iff_suffix.mp h).length_le
        rw [hmap] at this
        exact this
    · split at hk
      · next h =>
        have := (List.isSuffixOf_iff_suffix.mp h).length_le
        rw [hmap] at this
        exact this
      · cases hk
  refine ⟨hsep, fun h => ?_, fun h => ?_, fun h => ?_⟩
  · rw [h] at hlength
    exact absurd hlength (by decide)
  · rw [h] at hlength
    exact absurd hlength (by decide)
  · rw [h] at hlength
    exact absurd hlength (by decide)

/-- The staging directory stands beside the cached tree. -/
theorem scratchPath_under (root : Path) {c : String} (hc : IsEntryName c.toList) :
    scratchPath (under root ["sources", c]) = under root ["sources", ".staging-" ++ c] := by
  have hs : IsEntryName "sources".toList := by decide
  obtain ⟨init, hp⟩ := root.exists_pieces_child (n := "sources") (by decide)
  show ((root.child "sources").child c).withFileName
    (".staging-" ++ ((root.child "sources").child c).fileName?.getD "") = _
  rw [fileName?_child _ hc, withFileName_child hp hs hc]
  rfl

/-! ## Steps -/

theorem changes_of_bind {α β : Type} {x : Attempt SourceError α} {k : α → Attempt SourceError β}
    {r : Except SourceError β} (hr : Runs (x >>= k).outcome h r h')
    (hx : ∀ {rx h1}, Runs x.outcome h rx h1 → ChangesFiles S h h1)
    (hk : ∀ v h1, Runs x.outcome h (.ok v) h1 → ChangesFiles S h h1 → Runs (k v).outcome h1 r h' →
      ChangesFiles S h1 h') : ChangesFiles S h h' := by
  rcases Attempt.runs_bind.mp hr with ⟨v, h1, h2, h3⟩ | ⟨e, h2, -⟩
  · exact (hx h2).trans (hk v h1 h2 (hx h2) h3)
  · exact hx h2

theorem filesAt_changes {f : FileTree → Key → Except FileError FileTree} {r : Except SourceError Unit}
    (hr : Runs (filesAt p f).outcome h r h')
    (hf : ∀ t', f h.files h.cwd = .ok t' → ChangesOnly S h.files t') : ChangesFiles S h h' := by
  unfold filesAt at hr
  obtain ⟨y, hy, -⟩ := Attempt.runs_inWords.mp hr
  rcases Attempt.runs_change.mp hy with ⟨files, hok, -, rfl⟩ | ⟨e, -, -, rfl⟩
  · exact ⟨rfl, hf files hok⟩
  · exact .refl S _

/-- What an attempt at a directory leaves when it succeeds. -/
theorem leads_of_filesAt (hs : endsWithSeparator p = false) (hp : p.text.toList ≠ [])
    (hr : Runs (filesAt p fun t cwd => t.makeDirectories cwd p).outcome h (.ok ()) h') :
    ∃ k, Leads h'.files h'.cwd p k := by
  unfold filesAt at hr
  obtain ⟨y, hy, he⟩ := Attempt.runs_inWords.mp hr
  rcases Attempt.runs_change.mp hy with ⟨files, hok, rfl, rfl⟩ | ⟨e, -, rfl, -⟩
  · exact leads_of_makeDirectories hs hp hok
  · cases he

/-- The staging directory is made anew, and nothing changes outside of it. -/
theorem resetStaging_changes {ns : List String} (hh : Home root home h)
    (hn : ∀ n ∈ ns, IsEntryName n.toList) (hne : ns ≠ []) {r : Except SourceError Unit}
    (hr : Runs (resetStaging (under root ns)).outcome h r h') :
    ChangesFiles (home ++ ns <+: ·) h h' ∧
      (r = .ok () → ∃ k, Leads h'.files h'.cwd (under root ns) k) := by
  have hmake : ∀ {h1 h2 : Host} {r : Except SourceError Unit},
      Runs (filesAt (under root ns) fun t cwd => t.makeDirectories cwd (under root ns)).outcome h1 r h2 →
      ChangesFiles (home ++ ns <+: ·) h1 h2 ∧
        (r = .ok () → ∃ k, Leads h2.files h2.cwd (under root ns) k) := by
    intro h1 h2 r hr
    refine ⟨filesAt_changes hr fun t' ht => (changesOnly_makeDirectories ht).mono nofun, ?_⟩
    rintro rfl
    exact leads_of_filesAt (endsWithSeparator_under hn hne root) (toList_under_ne_nil hn hne root) hr
  unfold resetStaging at hr
  rw [Attempt.runs_inspect_bind] at hr
  dsimp only at hr
  split at hr
  · rcases Attempt.runs_bind.mp hr with ⟨u, h1, h2, h3⟩ | ⟨e, h2, rfl⟩
    · have hc := filesAt_changes h2 fun t' ht => hh.removeTree hn hne ht
      obtain ⟨hc', hl⟩ := hmake h3
      exact ⟨hc.trans hc', hl⟩
    · exact ⟨filesAt_changes h2 fun t' ht => hh.removeTree hn hne ht, nofun⟩
  · exact hmake hr

/-- Unpacking leaves the tree that the archive's data unpack to. -/
theorem runs_unpackFile {kind : Kind} {r : Except SourceError Unit}
    (hr : Runs (Archive.unpackFile kind archive dest).outcome h r h') :
    h' = h ∨ ∃ key e data, h.files.resolve h.cwd true archive = .ok (.present key e) ∧
      (data = [] ∨ ∃ body x, e = .file body x ∧ data = body.data) ∧
      h' = { h with files := ((Archive.unpack kind h.cwd data dest).run.run h.files).2 } := by
  unfold Archive.unpackFile at hr
  rw [Attempt.runs_get_bind] at hr
  cases ho : h.files.openRead h.cwd archive with
  | error e =>
    rw [ho] at hr
    exact Or.inl (runs_pure.mp hr).2
  | ok e =>
    obtain ⟨key, hres⟩ : ∃ key, h.files.resolve h.cwd true archive = .ok (.present key e) := by
      unfold openRead at ho
      cases hs : h.files.stat h.cwd archive with
      | error e =>
        rw [hs] at ho
        cases ho
      | ok r =>
        rw [hs] at ho
        cases ho
        exact ⟨r.1, stat_eq hs⟩
    rw [ho] at hr
    dsimp only at hr
    split at hr
    next outcome files hout =>
    have hend : h' = { h with files := files } := by
      rcases Attempt.runs_bind.mp hr with ⟨u, h1, h2, h3⟩ | ⟨e, h2, -⟩
      · obtain ⟨-, rfl⟩ := Attempt.runs_set.mp h2
        split at h3
        · exact (runs_pure.mp h3).2
        · exact (runs_pure.mp h3).2
      · obtain ⟨he, -⟩ := Attempt.runs_set.mp h2
        cases he
    have hfiles : _ = files := congrArg Prod.snd hout
    subst hend
    subst hfiles
    cases e with
    | file body x => exact Or.inr ⟨key, _, body.data, hres, Or.inr ⟨body, x, rfl, rfl⟩, rfl⟩
    | directory => exact Or.inr ⟨key, _, [], hres, Or.inl rfl, rfl⟩
    | link target => exact Or.inr ⟨key, _, [], hres, Or.inl rfl, rfl⟩

/-- An archive that stays below its destination changes nothing outside of the staging directory. -/
theorem unpackFile_changes {ns : List String} {k : Key} (hh : Home root home h)
    (hn : ∀ n ∈ ns, IsEntryName n.toList) (hne : ns ≠ [])
    (hl : Leads h.files h.cwd (under root ns) k) {kind : Kind}
    (hdata : ∀ key body x, h.files.resolve h.cwd true archive = .ok (.present key (.file body x)) →
      StaysBelow kind body.data) {r : Except SourceError Unit}
    (hr : Runs (Archive.unpackFile kind archive (under root ns)).outcome h r h') :
    ChangesFiles (home ++ ns <+: ·) h h' := by
  rcases runs_unpackFile hr with rfl | ⟨key, e, data, hres, hd, rfl⟩
  · exact .refl _ _
  · obtain ⟨rfl, -, -⟩ := hh.leads_under hn hne hl
    have hstays : StaysBelow kind data := by
      rcases hd with rfl | ⟨body, x, rfl, rfl⟩
      · exact Archive.staysBelow_nil kind
      · exact hdata key body x hres
    exact ⟨rfl, hstays.changesOnly hl (hh.clearTo_append ns) (hh.clearUnder_append ns)⟩

theorem isEntryName_of_list {names : List String} {n : String} (hh : Home root home h)
    (hl : h.files.list h.cwd p = .ok names) (hn : n ∈ names) : IsEntryName n.toList := by
  unfold list at hl
  cases hs : h.files.stat h.cwd p with
  | error e =>
    rw [hs] at hl
    cases hl
  | ok r =>
    obtain ⟨key, e⟩ := r
    rw [hs] at hl
    cases e with
    | directory =>
      cases hl
      exact hh.named.of_mem_names hn
    | file body x => cases hl
    | link target => cases hl

/-- The staged tree is moved within the directory of the staging and the cached tree. -/
theorem putInPlace_changes (dir : List String) {s c : String} (hh : Home root home h)
    (hd : ∀ n ∈ dir, IsEntryName n.toList) (hs : IsEntryName s.toList) (hc : IsEntryName c.toList)
    {r : Except SourceError Unit}
    (hr : Runs (putInPlace (under root (dir ++ [s])) (under root (dir ++ [c]))).outcome h r h') :
    ChangesFiles (home ++ dir <+: ·) h h' := by
  have hns : ∀ n ∈ dir ++ [s], IsEntryName n.toList := by simpa [or_imp, forall_and] using ⟨hd, hs⟩
  have hms : ∀ n ∈ dir ++ [c], IsEntryName n.toList := by simpa [or_imp, forall_and] using ⟨hd, hc⟩
  have hmove : ∀ {h1 h2 : Host} {ns : List String} {r : Except SourceError Unit}, Home root home h1 →
      (∀ n ∈ dir ++ ns, IsEntryName n.toList) → dir ++ ns ≠ [] →
      Runs (filesAt (under root (dir ++ [c])) fun t cwd =>
        t.rename cwd (under root (dir ++ ns)) (under root (dir ++ [c]))).outcome h1 r h2 →
      ChangesFiles (home ++ dir <+: ·) h1 h2 := by
    intro h1 h2 ns r hh1 hn hne hr
    refine filesAt_changes hr fun t' ht => (hh1.rename hn hne hms (by simp) ht).mono fun k hk => ?_
    exact hk.elim prefix_of_append prefix_of_append
  unfold putInPlace at hr
  rw [Attempt.runs_get_bind] at hr
  split at hr
  · obtain ⟨-, rfl⟩ := runs_pure.mp hr
    exact .refl _ _
  · next single hl =>
    have hsingle : IsEntryName single.toList := isEntryName_of_list hh hl (by simp)
    have hinner : ∀ n ∈ dir ++ [s, single], IsEntryName n.toList := by
      simpa [or_imp, forall_and] using ⟨hd, hs, hsingle⟩
    have he : (under root (dir ++ [s])).child single = under root (dir ++ [s, single]) := by
      rw [← under_concat, List.append_assoc]
      rfl
    dsimp only at hr
    rw [he] at hr
    split at hr
    · rcases Attempt.runs_bind.mp hr with ⟨u, h1, h2, h3⟩ | ⟨e, h2, rfl⟩
      · have hc1 := hmove hh hinner (by simp) h2
        have hc2 := filesAt_changes h3 fun t' ht =>
          (((hh.of_changes hc1).removeDirectory hns (by simp) ht).mono fun _ => prefix_of_append)
        exact hc1.trans hc2
      · exact hmove hh hinner (by simp) h2
    · exact hmove hh hns (by simp) hr
  · exact hmove hh hns (by simp) hr

theorem discard_changes {ns : List String} (hh : Home root home h) (hn : ∀ n ∈ ns, IsEntryName n.toList)
    (hne : ns ≠ []) {r : Except SourceError Unit} (hr : Runs (discard (under root ns)).outcome h r h') :
    ChangesFiles (home ++ ns <+: ·) h h' :=
  filesAt_changes hr fun _ ht => hh.removeFile hn hne ht

/-- Fetching changes only the downloaded archive, which is unpacked below its destination. -/
theorem fetchArchive_changes {dir : List String} {q : Request} (hh : Home root home h)
    (hf : a.fetcher.Delivers) (ha : a.downloads = under root dir) (hne : dir ≠ [])
    (hn : ∀ n ∈ dir ++ [q.fileName], IsEntryName n.toList)
    (hq : q.fileName = fileNameOf q.url ∧ Kind.ofFileName? q.fileName = some q.kind)
    {r : Except SourceError Unit} (hr : Runs (a.fetchArchive q).outcome h r h') :
    ChangesFiles (· = home ++ (dir ++ [q.fileName])) h h' ∧ (r = .ok () →
      (under root (dir ++ [q.fileName])).text.toList.any (·.toNat == 0) = false → LooksUp q.fileName →
      ∀ body x, h'.files.get? (home ++ (dir ++ [q.fileName])) = some (.file body x) →
        StaysBelow q.kind body.data) := by
  have hd : ∀ n ∈ dir, IsEntryName n.toList := fun n hm => hn n (List.mem_append_left _ hm)
  unfold fetchArchive at hr
  rw [ha, ← under_concat] at hr
  rcases Attempt.runs_bind.mp hr with ⟨u, h1, h2, h3⟩ | ⟨e, h2, rfl⟩
  · have hc1 := filesAt_changes (S := fun k => k = home ++ (dir ++ [q.fileName])) h2
      fun t' ht => (changesOnly_makeDirectories ht).mono nofun
    obtain ⟨k, hl⟩ := leads_of_filesAt (endsWithSeparator_under hd hne root)
      (toList_under_ne_nil hd hne root) h2
    rcases Attempt.runs_bind.mp h3 with ⟨u, h4, h5, h6⟩ | ⟨e, h5, -⟩
    · obtain ⟨-, rfl⟩ := Attempt.runs_modify.mp h5
      have hh1 := hh.of_changes hc1
      have hh4 : Home root home { h1 with
          trace := { h1.trace with fetches := h1.trace.fetches ++ [q.url] } } :=
        ⟨hh1.leads, hh1.clearTo, hh1.clearUnder, hh1.named⟩
      have hc6 := hh4.touch hn (by simp) (hf.touches _ _ _ _ _ h6)
      refine ⟨⟨hc6.cwd.trans hc1.cwd, hc1.files.trans hc6.files⟩, ?_⟩
      rintro rfl htext hx body x hg
      obtain ⟨place, hres, hkey⟩ := hh4.resolve_child hn hne hl hx htext
      exact hf.archives _ _ _ _ h6 q.kind (hq.1 ▸ hq.2) place body x hres (hkey ▸ hg)
    · obtain ⟨he, -⟩ := Attempt.runs_modify.mp h5
      cases he
  · exact ⟨filesAt_changes h2 fun t' ht => (changesOnly_makeDirectories ht).mono nofun, nofun⟩

theorem request_eq {name : String} {url : Option String} {q : Request}
    (h : request name url = .ok q) :
    q.fileName = fileNameOf q.url ∧ Kind.ofFileName? q.fileName = some q.kind := by
  unfold request at h
  cases url with
  | none => cases h
  | some url =>
    dsimp only at h
    split at h
    · next kind hk =>
      cases h
      exact ⟨rfl, hk⟩
    · cases h

theorem staging_ne_downloads (c : String) : ".staging-" ++ c ≠ ".downloads" := by
  intro h
  have := congrArg (fun s : String => s.toList.take 2) h
  simp [String.toList_append] at this

/-- The steps that fill the cache, in order. -/
theorem fill_changes {c : String} {q : Request} (hh : Home root home h) (hf : a.fetcher.Delivers)
    (hdown : a.downloads = under root ["sources", ".downloads"]) (hc : IsEntryName c.toList)
    (hq : q.fileName = fileNameOf q.url ∧ Kind.ofFileName? q.fileName = some q.kind) {cached : Path}
    {r : Except SourceError Path} (hr : Runs (do
      a.fetchArchive q
      resetStaging (under root ["sources", ".staging-" ++ c])
      Archive.unpackFile q.kind (under root ["sources", ".downloads", q.fileName])
        (under root ["sources", ".staging-" ++ c])
      putInPlace (under root ["sources", ".staging-" ++ c]) (under root ["sources", c])
      discard (under root ["sources", ".downloads", q.fileName])
      return cached : Attempt SourceError Path).outcome h r h') :
    ChangesFiles (home ++ ["sources"] <+: ·) h h' := by
  have hsrc : IsEntryName "sources".toList := by decide
  have hdot : IsEntryName ".downloads".toList := by decide
  have hfile := isEntryName_fileNameOf (hq.1 ▸ hq.2)
  rw [← hq.1] at hfile
  have hstage := isEntryName_staging hc
  have hsn : ∀ n ∈ ["sources", ".staging-" ++ c], IsEntryName n.toList :=
    List.forall_mem_cons.mpr ⟨hsrc, List.forall_mem_singleton.mpr hstage⟩
  have han : ∀ n ∈ ["sources", ".downloads", q.fileName], IsEntryName n.toList :=
    List.forall_mem_cons.mpr ⟨hsrc, List.forall_mem_cons.mpr ⟨hdot, List.forall_mem_singleton.mpr hfile⟩⟩
  have hin : ∀ {l : List String} {k : Key}, home ++ "sources" :: l <+: k → home ++ ["sources"] <+: k :=
    fun hk => prefix_of_append (d := ["sources"]) hk
  have hfetch : ∀ {r1 h1}, Runs (a.fetchArchive q).outcome h r1 h1 →
      ChangesFiles (home ++ ["sources"] <+: ·) h h1 := fun h1 =>
    (fetchArchive_changes hh hf hdown (by simp) han hq h1).1.mono
      fun k hk => hin (l := [".downloads", q.fileName]) (by rw [hk]; exact List.prefix_refl _)
  refine changes_of_bind hr hfetch fun _ h1 hr1 hc1 hr => ?_
  have hh1 := hh.of_changes hc1
  refine changes_of_bind hr (fun h2 => (resetStaging_changes hh1 hsn (by simp) h2).1.mono
    fun _ => hin) fun _ h2 hr2 hc2 hr => ?_
  have hh2 := hh1.of_changes hc2
  obtain ⟨hframe, hlead⟩ := resetStaging_changes hh1 hsn (by simp) hr2
  obtain ⟨k, hl⟩ := hlead rfl
  refine changes_of_bind hr (fun h3 => (unpackFile_changes hh2 hsn (by simp) hl ?_ h3).mono
    fun _ => hin) fun _ h3 hr3 hc3 hr => ?_
  · -- what is unpacked is what was fetched, as making the staging directory left it
    intro key body x hres
    obtain ⟨htext, -, hscan⟩ := (hh2.resolve_iff han (by simp)).mp hres
    have hkey : key = home ++ ["sources", ".downloads", q.fileName] := hh2.key_eq han (by simp) hres
    have hg : h2.files.get? key = some (.file body x) := (sound_of_resolve hres).resolve_left (by simp)
    subst hkey
    have hx : LooksUp q.fileName := by
      have hlast : Scans h2.files true home (["sources", ".downloads"] ++ [q.fileName]) _ := hscan
      refine hlast.looksUp_last (fun e => ?_) fun e => ?_
      · exact hfile.2.2.1 (by rw [e]; rfl)
      · exact hfile.2.2.2 (by rw [e]; rfl)
    have hout : ¬ home ++ ["sources", ".staging-" ++ c] <+:
        home ++ ["sources", ".downloads", q.fileName] := by
      rw [List.prefix_append_right_inj, List.cons_prefix_cons, List.cons_prefix_cons]
      exact fun hp => staging_ne_downloads c hp.2.1
    refine (fetchArchive_changes hh hf hdown (by simp) han hq hr1).2 rfl htext hx body x ?_
    rcases hframe.files.frame _ hout with e | ⟨-, e⟩
    · exact e.symm.trans hg
    · rw [hg] at e
      cases e
  · have hh3 := hh2.of_changes hc3
    refine changes_of_bind hr (fun h4 => putInPlace_changes ["sources"] hh3
      (List.forall_mem_singleton.mpr hsrc) hstage hc h4) fun _ h4 _ hc4 hr => ?_
    refine changes_of_bind hr (fun h5 => (discard_changes (hh3.of_changes hc4) han (by simp) h5).mono
      fun _ => hin) fun _ h5 _ _ hr => ?_
    obtain ⟨-, rfl⟩ := runs_pure.mp hr
    exact .refl _ _

/-- What an attempt in steps answers is what its last step answers. -/
theorem answer_of_bind {α β : Type} {x : Attempt SourceError α} {k : α → Attempt SourceError β} {v : β}
    (hr : Runs (x >>= k).outcome h (.ok v) h') : ∃ u h1, Runs (k u).outcome h1 (.ok v) h' := by
  rcases Attempt.runs_bind.mp hr with ⟨u, h1, -, h2⟩ | ⟨e, -, he⟩
  · exact ⟨u, h1, h2⟩
  · cases he

/-- A source tree that is had lies at its path in the sources directory. -/
theorem tree_path (hr : Runs (a.tree name version url).outcome h (.ok p) h') :
    p = a.treePath name version := by
  unfold tree at hr
  rw [Attempt.runs_inspect_bind] at hr
  dsimp only at hr
  split at hr
  · cases (runs_pure.mp hr).1
    rfl
  · obtain ⟨q, _, hr⟩ := answer_of_bind hr
    obtain ⟨_, _, hr⟩ := answer_of_bind hr
    obtain ⟨_, _, hr⟩ := answer_of_bind hr
    obtain ⟨_, _, hr⟩ := answer_of_bind hr
    obtain ⟨_, _, hr⟩ := answer_of_bind hr
    obtain ⟨_, _, hr⟩ := answer_of_bind hr
    cases (runs_pure.mp hr).1
    rfl

/-- **Looking for a source tree changes nothing outside of the sources directory**, whatever comes of
it. -/
theorem tree_changes (hh : Home root home h) (hf : a.fetcher.Delivers)
    (ha : a.sources = root.child "sources") (hc : IsEntryName (cacheName name version).toList)
    {r : Except SourceError Path} (hr : Runs (a.tree name version url).outcome h r h') :
    ChangesFiles (home ++ ["sources"] <+: ·) h h' := by
  have hcached : a.treePath name version = under root ["sources", cacheName name version] := by
    unfold treePath
    rw [ha]
    rfl
  have hdown : a.downloads = under root ["sources", ".downloads"] := by
    unfold downloads
    rw [ha]
    rfl
  unfold tree at hr
  rw [Attempt.runs_inspect_bind, hcached] at hr
  dsimp only at hr
  split at hr
  · obtain ⟨-, rfl⟩ := runs_pure.mp hr
    exact .refl _ _
  · rcases Attempt.runs_bind.mp hr with ⟨q, h1, hreq, hk⟩ | ⟨e, hreq, -⟩
    · obtain ⟨hq, rfl⟩ := runs_pure.mp hreq
      rw [scratchPath_under root hc, hdown] at hk
      exact fill_changes hh hf hdown hc (request_eq hq.symm) hk
    · obtain ⟨-, rfl⟩ := runs_pure.mp hreq
      exact .refl _ _

end SourceCache

end CipherCorpus
