import CipherCorpus.Proofs.Compile.TwoMachines
import CipherCorpus.Proofs.Dataset.Accounts
import CipherCorpus.Proofs.Dataset.Verify

/-!
# Libraries whose sources cannot be had

A build in which the sources of one library cannot be had ends like the build without this library
(`failed_library_is_isolated`): with the same error, or with the same manifest and the same summaries of the
other libraries, in the same order.  The manifest that is saved is the same.

From the failed acquisition on, the two builds are run side by side.  What it leaves on the one machine is
never seen by the others (`Beside`): acquiring a library ends the same on both (`Beside.tree`), so does its
matrix (`runMatrix_step`), and both leave the machines beside each other (`buildLibrary_beside`).
-/

namespace CipherCorpus

open FileTree CipherCorpus.Path
open Archive (under)

namespace SourceCache

variable {root : Path} {top k : Key} {gone n : String} {h g h' g' : Host} {Z : Key → Prop}

/-- Machines beside each other are near each other once a cached tree is there. -/
theorem Beside.near (hb : Beside root top gone h g) (hn : IsCacheName n)
    (hthere : h.files.get? (sourcesIn top ++ [n]) ≠ none) : Near root top gone h g := by
  refine ⟨hb.settings, hb.left, hb.right, fun k hk => ?_⟩
  by_cases hhome : k = sourcesIn top
  · have hthere' : g.files.get? (sourcesIn top ++ [n]) ≠ none := by
      rwa [hb.get?_cached hn []]
    rw [hhome, hb.left.tree.parent _ _ hthere, hb.right.tree.parent _ _ hthere']
  · exact (hb.alike k).same (not_or.mpr ⟨hhome, hk⟩)

/-- Changes outside of the sources leave them beside each other. -/
theorem Beside.of_step (hb : Beside root top gone h g) (hZ : ∀ k, Z k → ¬ sourcesIn top <+: k)
    (hs : Step root top gone Z h g h' g') : Beside root top gone h' g' where
  settings := hs.near.settings
  left := hs.near.left
  right := hs.near.right
  alike k := by
    by_cases hk : Z k
    · refine .of_eq (hs.near.get?_outside (hZ k hk)) ?_
      rintro (rfl | rfl)
      · exact absurd (List.prefix_refl _) (hZ _ hk)
      · exact absurd (List.prefix_append _ _) (hZ _ hk)
    · rw [hs.left.off k hk, hs.right.off k hk]
      exact hb.alike k

end SourceCache

namespace DatasetBuilder

open Dataset SourceCache

variable {b : DatasetBuilder} {root : Path} {top : Key} {gone : String} {l x : Library} {m m1 m1' : Manifest}
  {s s' : LibraryReport} {h g h' g' : Host}

/-- The same builder for other libraries. -/
def withLibraries (b : DatasetBuilder) (libraries : List Library) : DatasetBuilder :=
  { b with config := { b.config with libraries := libraries } }

/-- A build under `root` whose tools see no more than they are shown: the fetcher an address, the compiler a
source and an output. -/
structure Discreet (b : DatasetBuilder) (root : Path) (top : Key) (gone : String) : Prop where
  layout : b.layout = Layout.ofRoot root
  sources : b.sources.sources = root.child "sources"
  registry : ∃ accepts, Registry.probe accepts = .ok b.compiler.registry
  levels : ∀ level ∈ b.compiler.options.levels, '/' ∉ level.toList
  saves : b.sources.fetcher.Saves Archive.Portable
  steady : b.sources.fetcher.Steady
  runner : b.compiler.runner.Tame
  overlooks : b.compiler.Overlooks (Leftover (sourcesIn top) gone)

/-- The cached tree of a library has a name of its own in the sources. -/
abbrev IsCached (l : Library) : Prop := IsCacheName (cacheName l.name l.version)

/-- A library that is cached has the name of an entry, or none. -/
theorem isEntryName_of_isCached (hl : IsCached l) : l.name = "" ∨ IsEntryName l.name.toList := by
  obtain ⟨⟨hsep, -⟩, hdot⟩ := hl
  obtain ⟨rest, hrest⟩ : ∃ rest, (cacheName l.name l.version).toList = l.name.toList ++ rest := by
    unfold cacheName
    cases l.version with
    | none => exact ⟨[], by simp⟩
    | some v => exact ⟨'-' :: v.toList, by simp⟩
  rw [hrest] at hsep hdot
  by_cases hne : l.name = ""
  · exact Or.inl hne
  rw [List.head?_append_of_ne_nil _ (fun he => hne (String.toList_eq_nil_iff.mp he))] at hdot
  refine Or.inr ⟨fun hm => hsep (List.mem_append_left _ hm), fun he => hne (String.toList_eq_nil_iff.mp he),
    fun he => ?_, fun he => ?_⟩
  · rw [he] at hdot
    exact hdot rfl
  · rw [he] at hdot
    exact hdot rfl

/-! ## One library -/

section

variable (hd : b.Discreet root top gone)
include hd

/-- Acquiring a library is a call on the sources in the root. -/
theorem Discreet.acquire_eq (l : Library) :
    b.acquire l = (inRoot root b.sources.fetcher).tree l.name l.version l.url := by
  unfold acquire inRoot
  rw [← hd.sources]

/-- Compiling it goes to its directory in the root. -/
theorem Discreet.compile_eq (l : Library) (sources : Path) :
    b.compile l sources = b.compiler.runMatrix l.name sources (functionsOf l) (Compiler.outputIn root l.name) := by
  unfold compile
  rw [hd.layout]
  rfl

/-- What was acquired is the cached tree. -/
theorem Discreet.path_eq {sources : Path} (ha : Runs (b.acquire l).outcome h (.ok sources) h') :
    sources = (root.child "sources").child (cacheName l.name l.version) := by
  rw [tree_path ha]
  unfold treePath
  rw [hd.sources]

variable (hl : IsCached l)
include hl

/-- Its matrix ends the same on machines near each other. -/
theorem Discreet.runMatrix_step {r r' : Except MatrixFailure MatrixResult} (hnear : Near root top gone h g)
    (hthere : h.files.get? (sourcesIn top ++ [cacheName l.name l.version]) ≠ none)
    (hrun : Runs (b.compiler.runMatrix l.name ((root.child "sources").child (cacheName l.name l.version))
      (functionsOf l) (Compiler.outputIn root l.name)).outcome h r h')
    (hrun' : Runs (b.compiler.runMatrix l.name ((root.child "sources").child (cacheName l.name l.version))
      (functionsOf l) (Compiler.outputIn root l.name)).outcome g r' g') :
    r' = r ∧ Step root top gone (binariesIn top <+: ·) h g h' g' := by
  obtain ⟨accepts, hp⟩ := hd.registry
  exact Compiler.runMatrix_step hd.runner hd.overlooks hl hp hd.levels hnear (isEntryName_of_isCached hl) hthere hrun hrun'

/-- **A library is built the same** on machines beside each other, which it leaves so. -/
theorem buildLibrary_beside (hb : Beside root top gone h g) (hrun : Runs (b.buildLibrary l m) h (s, m1) h')
    (hrun' : Runs (b.buildLibrary l m) g (s', m1') g') : s' = s ∧ m1' = m1 ∧ Beside root top gone h' g' := by
  have hacquire : ∀ {x y h1 g1}, Runs (b.acquire l).outcome h x h1 → Runs (b.acquire l).outcome g y g1 →
      y = x ∧ h.SameSettings h1 ∧ Beside root top gone h1 g1 ∧
        ∀ p, x = .ok p → h1.files.get? (sourcesIn top ++ [cacheName l.name l.version]) ≠ none := by
    intro x y h1 g1 ha ha'
    rw [hd.acquire_eq] at ha ha'
    exact hb.tree hd.saves hd.steady hl ha ha'
  rcases runs_buildLibrary.mp hrun with ⟨e, ha, rfl, rfl⟩ | ⟨sources, h1, ha, hcompiled⟩
  · rcases runs_buildLibrary.mp hrun' with ⟨e', ha', rfl, rfl⟩ | ⟨sources', g1, ha', -⟩
    · obtain ⟨he, -, hb', -⟩ := hacquire ha ha'
      cases he
      exact ⟨rfl, rfl, hb'⟩
    · cases (hacquire ha ha').1
  · rcases runs_buildLibrary.mp hrun' with ⟨e', ha', -⟩ | ⟨sources', g1, ha', hcompiled'⟩
    · cases (hacquire ha ha').1
    obtain ⟨he, -, hb1, hthere⟩ := hacquire ha ha'
    cases he
    have hcompile : ∀ {x y h2 g2}, Runs (b.compile l sources).outcome h1 x h2 →
        Runs (b.compile l sources).outcome g1 y g2 → y = x ∧ Beside root top gone h2 g2 := by
      intro x y h2 g2 hc hc'
      obtain rfl := hd.path_eq ha
      rw [hd.compile_eq] at hc hc'
      obtain ⟨he, hstep⟩ := hd.runMatrix_step hl (hb1.near hl (hthere _ rfl)) (hthere _ rfl) hc hc'
      exact ⟨he, hb1.of_step (fun k => Compiler.not_sources_of_binaries) hstep⟩
    rcases hcompiled with ⟨e, hc, rfl, rfl⟩ | ⟨report, hc, rfl, rfl⟩
    · rcases hcompiled' with ⟨e', hc', rfl, rfl⟩ | ⟨report', hc', -⟩
      · obtain ⟨he, hb2⟩ := hcompile hc hc'
        cases he
        exact ⟨rfl, rfl, hb2⟩
      · cases (hcompile hc hc').1
    · rcases hcompiled' with ⟨e', hc', -⟩ | ⟨report', hc', rfl, rfl⟩
      · cases (hcompile hc hc').1
      · obtain ⟨he, hb2⟩ := hcompile hc hc'
        cases he
        exact ⟨rfl, rfl, hb2⟩

/-- The root stays in use. -/
theorem rooted_of_buildLibrary (hr : Rooted root h.cwd top h.files) (hrun : Runs (b.buildLibrary l m) h (s, m1) h') :
    Rooted root h'.cwd top h'.files := by
  have hacquire : ∀ {x h1}, Runs (b.acquire l).outcome h x h1 → Rooted root h1.cwd top h1.files ∧
      ∀ p, x = .ok p → h1.files.get? (sourcesIn top ++ [cacheName l.name l.version]) ≠ none := by
    intro x h1 ha
    rw [hd.acquire_eq] at ha
    obtain ⟨hr1, -, hthere⟩ := hr.of_tree hl ha hd.saves hd.steady
    exact ⟨hr1, hthere⟩
  rcases runs_buildLibrary.mp hrun with ⟨e, ha, -, -⟩ | ⟨sources, h1, ha, hcompiled⟩
  · exact (hacquire ha).1
  · obtain ⟨hr1, hthere⟩ := hacquire ha
    have hcompile : ∀ {x}, Runs (b.compile l sources).outcome h1 x h' → Rooted root h'.cwd top h'.files := by
      intro x hc
      obtain rfl := hd.path_eq ha
      rw [hd.compile_eq] at hc
      have hnear : Near root top gone h1 h1 := .refl hr1
      exact (hd.runMatrix_step hl hnear (hthere _ rfl) hc hc).2.near.left
    rcases hcompiled with ⟨e, hc, -, -⟩ | ⟨report, hc, -, -⟩
    · exact hcompile hc
    · exact hcompile hc

omit hl

/-- Libraries are built the same, one after the other. -/
theorem buildLibraries_beside (libraries : List Library) (hl : ∀ l ∈ libraries, IsCached l) :
    ∀ {m m1 m1' : Manifest} {ss ss' : List LibraryReport} {h g : Host}, Beside root top gone h g →
      Runs (b.buildLibraries m libraries) h (ss, m1) h' → Runs (b.buildLibraries m libraries) g (ss', m1') g' →
      ss' = ss ∧ m1' = m1 ∧ Beside root top gone h' g' := by
  induction libraries with
  | nil =>
    intro m m1 m1' ss ss' h g hb hrun hrun'
    obtain ⟨rfl, rfl, rfl⟩ := runs_buildLibraries_nil.mp hrun
    obtain ⟨rfl, rfl, rfl⟩ := runs_buildLibraries_nil.mp hrun'
    exact ⟨rfl, rfl, hb⟩
  | cons l rest ih =>
    intro m m1 m1' ss ss' h g hb hrun hrun'
    obtain ⟨s, m2, h1, more, hfirst, hrest, rfl⟩ := runs_buildLibraries_cons.mp hrun
    obtain ⟨s', m2', g1, more', hfirst', hrest', rfl⟩ := runs_buildLibraries_cons.mp hrun'
    obtain ⟨hl, hmore⟩ := List.forall_mem_cons.mp hl
    obtain ⟨rfl, rfl, hb1⟩ := buildLibrary_beside hd hl hb hfirst hfirst'
    obtain ⟨rfl, rfl, hb2⟩ := ih hmore hb1 hrest hrest'
    exact ⟨rfl, rfl, hb2⟩

theorem rooted_of_buildLibraries (libraries : List Library) (hl : ∀ l ∈ libraries, IsCached l) :
    ∀ {m m1 : Manifest} {ss : List LibraryReport} {h : Host}, Rooted root h.cwd top h.files →
      Runs (b.buildLibraries m libraries) h (ss, m1) h' → Rooted root h'.cwd top h'.files := by
  induction libraries with
  | nil =>
    intro m m1 ss h hr hrun
    obtain ⟨-, -, rfl⟩ := runs_buildLibraries_nil.mp hrun
    exact hr
  | cons l rest ih =>
    intro m m1 ss h hr hrun
    obtain ⟨s, m2, h1, more, hfirst, hrest, rfl⟩ := runs_buildLibraries_cons.mp hrun
    obtain ⟨hl, hmore⟩ := List.forall_mem_cons.mp hl
    exact ih hmore (rooted_of_buildLibrary hd hl hr hfirst) hrest

end

/-! ## Saving the manifest -/

/-- The path of the manifest in a root. -/
abbrev manifestIn (root : Path) : Path := root.child manifestFileName

theorem isEntryName_manifest : IsEntryName manifestFileName.toList := by decide

/-- In a root that is in use, saving is one write. -/
theorem runs_save_inRoot {r : Except ManifestError Unit} (hr : Rooted root h.cwd top h.files) :
    Runs (m.save (manifestIn root)).outcome h r h' ↔
      (∃ t, h.files.write h.cwd (manifestIn root) (.bytes (Text.bytesOf m.fileText)) = .ok t ∧ r = .ok () ∧
        h' = { h with files := t }) ∨
      ∃ e, h.files.write h.cwd (manifestIn root) (.bytes (Text.bytesOf m.fileText)) = .error e ∧
        r = .error (.files (manifestIn root) e) ∧ h' = h := by
  obtain ⟨q, hq, habs, hsteps, hzero⟩ := exists_parent?_child root isEntryName_manifest
  have hq0 : ZeroFree q.text := hzero ((zeroFree_child isEntryName_manifest).mpr ⟨hr.zeroFree, by decide⟩)
  have hmake : h.files.makeDirectories h.cwd q = .ok h.files := makeDirectories_of_leads hq0
    ((Leads.congr (startOf_eq_of_isAbsolute habs _) hsteps).mpr hr.leads.toLeads)
  have hwrite : Runs (m.save (manifestIn root)).outcome h r h' ↔ Runs ((change fun t cwd =>
      t.writeBytes cwd (manifestIn root) (Text.bytesOf m.fileText)).inWords
        (ManifestError.files (manifestIn root))).outcome h r h' := by
    unfold Manifest.save
    rw [hq]
    refine Attempt.runs_change_bind.trans ?_
    rw [hmake]
    simp
  rw [hwrite, Attempt.runs_inWords]
  simp only [Attempt.runs_change]
  constructor
  · rintro ⟨_, ⟨t, ht, rfl, rfl⟩ | ⟨e, he, rfl, rfl⟩, rfl⟩
    · exact Or.inl ⟨t, ht, rfl, rfl⟩
    · exact Or.inr ⟨e, he, rfl, rfl⟩
  · rintro (⟨t, ht, rfl, rfl⟩ | ⟨e, he, rfl, rfl⟩)
    · exact ⟨.ok (), Or.inl ⟨t, ht, rfl, rfl⟩, rfl⟩
    · exact ⟨.error e, Or.inr ⟨e, he, rfl, rfl⟩, rfl⟩

/-- What is read at a name in the root is the entry of this name. -/
theorem read_inRoot {n : String} (hr : Rooted root h.cwd top h.files)
    (hr' : Rooted root g.cwd top g.files) (hc : g.cwd = h.cwd) (hn : IsEntryName n.toList)
    (hg : g.files.get? (top ++ [n]) = h.files.get? (top ++ [n])) : g.read (root.child n) = h.read (root.child n) := by
  have hl' := hr'.leads.toLeads
  rw [hc] at hl'
  have hstat := stat_child_congr hr.leads.toLeads hl' hn (hr.noLink _ (.entry n)) hg
  unfold Host.read FileTree.read openRead
  rw [hc, hstat]

/-- The root stays in use when the manifest is written. -/
theorem rooted_of_written {body : Body} {e : Entry} (hr : Rooted root h.cwd top h.files)
    (he : ∀ target, e ≠ .link target)
    (hw : h.files.write h.cwd (manifestIn root) body = .ok (h.files.put (top ++ [manifestFileName]) e)) :
    Rooted root h.cwd top (h.files.put (top ++ [manifestFileName]) e) := by
  have hself := get?_put_self h.files e (show top ++ [manifestFileName] ≠ [] by simp)
  refine hr.of_entry (by decide) (hr.tree.write ?_ hw) (fun k hk => get?_put_ne _ _ hk) fun target hg =>
    he target (Option.some.inj (hself.symm.trans hg))
  rw [startOf_child _ _ (isStep_of_isEntryName isEntryName_manifest)]
  exact hr.leads.start'

/-- A manifest is saved the same in both roots. -/
theorem save_beside {r r' : Except ManifestError Unit} (hb : Beside root top gone h g)
    (hrun : Runs (m.save (manifestIn root)).outcome h r h') (hrun' : Runs (m.save (manifestIn root)).outcome g r' g') :
    r' = r ∧ g'.read (manifestIn root) = h'.read (manifestIn root) := by
  have hkey : g.files.get? (top ++ [manifestFileName]) = h.files.get? (top ++ [manifestFileName]) :=
    hb.get?_outside fun hp => absurd (prefix_below.mp hp) (by decide)
  have hl' := hb.right.leads.toLeads
  rw [hb.settings.cwd] at hl'
  have hwrite := @write_child_inStep _ _ _ _ _ _ hb.left.leads.toLeads hl' isEntryName_manifest
    (hb.left.noLink _ (.entry _)) hkey (.bytes (Text.bytesOf m.fileText))
  rcases (runs_save_inRoot hb.left).mp hrun with ⟨s, hs, rfl, rfl⟩ | ⟨e, he, rfl, rfl⟩
  · rcases (runs_save_inRoot hb.right).mp hrun' with ⟨t, ht, rfl, rfl⟩ | ⟨e', he', -⟩
    · have ht' := ht
      rw [hb.settings.cwd] at ht'
      rw [hs, ht'] at hwrite
      cases hwrite with | ok hput =>
      rcases hput with ⟨rfl, rfl⟩ | ⟨e, he, rfl, rfl⟩
      · exact ⟨rfl, read_inRoot hb.left hb.right hb.settings.cwd isEntryName_manifest hkey⟩
      · have hself := fun u => get?_put_self u e (show top ++ [manifestFileName] ≠ [] by simp)
        exact ⟨rfl, read_inRoot (rooted_of_written hb.left he hs) (rooted_of_written hb.right he ht) hb.settings.cwd
          isEntryName_manifest ((hself _).trans (hself _).symm)⟩
    · rw [hb.settings.cwd] at he'
      rw [hs, he'] at hwrite
      cases hwrite
  · rcases (runs_save_inRoot hb.right).mp hrun' with ⟨t, ht, -⟩ | ⟨e', he', rfl, rfl⟩
    · rw [hb.settings.cwd] at ht
      rw [he, ht] at hwrite
      cases hwrite
    · rw [hb.settings.cwd] at he'
      rw [he, he'] at hwrite
      cases hwrite
      exact ⟨rfl, read_inRoot hb.left hb.right hb.settings.cwd isEntryName_manifest hkey⟩

/-! ## Two builds -/

/-- What is told of a library whose sources cannot be had. -/
def unavailable (x : Library) (e : SourceError) : LibraryReport :=
  .withoutBinaries x.name (functionsOf x).length (.sourceUnavailable e.message)

/-- Two builds cannot save their manifest, for the same reason, or both have no binaries, or both end with the
same manifest and the same accounts of the libraries, but for the account of `x` after the first `n`, which only
the first build gives. -/
inductive LeftOut (x : Library) (e : SourceError) (n : ℕ) :
    Except BuildError (Manifest × Summary) → Except BuildError (Manifest × Summary) → Prop where
  | unsaved (error : ManifestError) : LeftOut x e n (.error (.manifest error)) (.error (.manifest error))
  | noBinaries : LeftOut x e n (.error .noLibrariesBuilt) (.error .noLibrariesBuilt)
  | built {m s s' first rest} : first.length = n → s.libraries = first ++ unavailable x e :: rest →
      s'.libraries = first ++ rest → LeftOut x e n (.ok (m, s)) (.ok (m, s'))

theorem buildLibraries_withLibraries (ls libraries : List Library) : ∀ m : Manifest,
    (b.withLibraries ls).buildLibraries m libraries = b.buildLibraries m libraries := by
  induction libraries with
  | nil => exact fun _ => rfl
  | cons l rest ih =>
    intro m
    unfold buildLibraries
    simp only [ih]
    rfl

variable {before after : List Library} {e : SourceError} {t : FileTree} {ss : List LibraryReport} {h1 h2 : Host}
  {r r' : Except BuildError (Manifest × Summary)}

theorem length_of_buildLibraries (libraries : List Library) : ∀ {m m1 : Manifest} {ss : List LibraryReport} {h : Host},
    Runs (b.buildLibraries m libraries) h (ss, m1) h' → ss.length = libraries.length := by
  induction libraries with
  | nil =>
    intro m m1 ss h hrun
    obtain ⟨rfl, -, -⟩ := runs_buildLibraries_nil.mp hrun
    rfl
  | cons l rest ih =>
    intro m m1 ss h hrun
    obtain ⟨s, m2, h1, more, -, hrest, rfl⟩ := runs_buildLibraries_cons.mp hrun
    rw [List.length_cons, ih hrest, List.length_cons]

/-- After the acquisition of a library has failed, the others are built the same as without it. -/
theorem buildLibraries_leftOut (hd : b.Discreet root top (cacheName x.name x.version))
    (hnames : ∀ l ∈ before ++ x :: after, IsCached l) (hr : Rooted root h.cwd top h.files)
    (hbefore : Runs (b.buildLibraries .empty before) h (ss, m) h1)
    (hx : Runs (b.acquire x).outcome h1 (.error e) h2) (he : OutsideFiles e)
    {all all' : List LibraryReport} {m1 m1' : Manifest}
    (hrun : Runs (b.buildLibraries .empty (before ++ x :: after)) h (all, m1) h')
    (hrun' : Runs (b.buildLibraries .empty (before ++ after)) h (all', m1') g') :
    (∃ rest, all = ss ++ unavailable x e :: rest ∧ all' = ss ++ rest) ∧ m1' = m1 ∧
      (g' = h' ∨ Beside root top (cacheName x.name x.version) g' h') := by
  obtain ⟨hbeforeCached, hrestCached⟩ := List.forall_mem_append.mp hnames
  obtain ⟨hxCached, hafterCached⟩ := List.forall_mem_cons.mp hrestCached
  -- both go through the libraries before it in the same way
  obtain ⟨s1, m2, h3, s2, hfirst, hrest, rfl⟩ := runs_buildLibraries_append.mp hrun
  obtain ⟨he1, rfl⟩ := hbefore.unique hfirst
  cases he1
  obtain ⟨s1', m2', h3', s2', hfirst', hafter', rfl⟩ := runs_buildLibraries_append.mp hrun'
  obtain ⟨he1, rfl⟩ := hbefore.unique hfirst'
  cases he1
  have hr1 := rooted_of_buildLibraries hd before hbeforeCached hr hbefore
  -- its acquisition fails, and adds nothing to the manifest
  obtain ⟨s, m3, h4, more, hlibrary, hafter, rfl⟩ := runs_buildLibraries_cons.mp hrest
  obtain ⟨rfl, rfl, rfl⟩ : s = unavailable x e ∧ m3 = m ∧ h4 = h2 := by
    rcases runs_buildLibrary.mp hlibrary with ⟨e', ha, rfl, rfl⟩ | ⟨sources, h5, ha, -⟩
    · obtain ⟨he1, rfl⟩ := hx.unique ha
      cases he1
      exact ⟨rfl, rfl, rfl⟩
    · cases (hx.unique ha).1
  rw [hd.acquire_eq] at hx
  rcases hr1.beside_of_failed hxCached hx hd.saves hd.steady rfl he with rfl | hb
  · obtain ⟨he1, rfl⟩ := hafter.unique hafter'
    cases he1
    exact ⟨⟨s2', rfl, rfl⟩, rfl, Or.inl rfl⟩
  · obtain ⟨rfl, rfl, hb'⟩ := buildLibraries_beside hd after hafterCached hb hafter' hafter
    exact ⟨⟨_, rfl, rfl⟩, rfl, Or.inr hb'⟩

/-- The account of a library that cannot be had counts for nothing. -/
theorem countP_built_unavailable (first rest : List LibraryReport) :
    (first ++ unavailable x e :: rest).countP (·.status = .built) = (first ++ rest).countP (·.status = .built) := by
  rw [List.countP_append, List.countP_append, List.countP_cons_of_neg (by simp [unavailable, LibraryReport.withoutBinaries])]

section

variable (hd : b.Discreet root top (cacheName x.name x.version)) (hnames : ∀ l ∈ before ++ x :: after, IsCached l)
  (hw : h.files.WellFormed) (hstart : h.files.get? (startOf h.cwd root.text.toList) = some .directory)
  (hlinks : ∀ k target, isBelow top k = true → h.files.get? k ≠ some (.link target))
  (hm : h.files.makeDirectories h.cwd b.layout.binaries = .ok t) (hout : t.LeadsFromOutside h.cwd root top)
  (hbefore : Runs (b.buildLibraries .empty before) { h with files := t } (ss, m) h1)
  (hx : Runs (b.acquire x).outcome h1 (.error e) h2) (he : OutsideFiles e)
include hd hnames hw hstart hlinks hm hout hbefore hx he

/-- However the two builds end, they agree but for the library. -/
theorem leftOut_of_runs (hrun : Runs (b.withLibraries (before ++ x :: after)).build.outcome h r h')
    (hrun' : Runs (b.withLibraries (before ++ after)).build.outcome h r' g') :
    LeftOut x e before.length r r' ∧ g'.read b.layout.manifest = h'.read b.layout.manifest := by
  have hbinaries : b.layout.binaries = root.child "binaries" := by rw [hd.layout]; rfl
  have hmanifest : b.layout.manifest = manifestIn root := by rw [hd.layout]; rfl
  have hr : Rooted root h.cwd top t := rooted_of_made hw hstart (hbinaries ▸ hm) hout hlinks
  rcases runs_build.mp hrun with ⟨e', hfail, -⟩ | ⟨t', all, m1, h3, hm1, hb, hend⟩
  · cases hm.symm.trans hfail
  rcases runs_build.mp hrun' with ⟨e', hfail, -⟩ | ⟨t'', all', m1', g3, hm1', hb', hend'⟩
  · cases hm.symm.trans hfail
  cases hm.symm.trans hm1
  cases hm.symm.trans hm1'
  rw [buildLibraries_withLibraries] at hb hb'
  have hlength := length_of_buildLibraries before hbefore
  obtain ⟨⟨rest, rfl, rfl⟩, rfl, hsame⟩ := buildLibraries_leftOut hd hnames hr hbefore hx he hb hb'
  have hsave : ∀ {u v}, Runs (m1'.save b.layout.manifest).outcome h3 u h' →
      Runs (m1'.save b.layout.manifest).outcome g3 v g' →
      v = u ∧ g'.read b.layout.manifest = h'.read b.layout.manifest := by
    intro u v hu hv
    rw [hmanifest] at hu hv ⊢
    rcases hsame with rfl | hb2
    · obtain ⟨rfl, rfl⟩ := hu.unique hv
      exact ⟨rfl, rfl⟩
    · obtain ⟨he, hread⟩ := save_beside hb2 hv hu
      exact ⟨he.symm, hread.symm⟩
  have hbuilt : ((b.withLibraries (before ++ x :: after)).summaryOf h h' (ss ++ unavailable x e :: rest)).builtLibraries =
      ((b.withLibraries (before ++ after)).summaryOf h g' (ss ++ rest)).builtLibraries :=
    countP_built_unavailable ss rest
  rcases hend with ⟨error, hsaved, rfl⟩ | ⟨hsaved, rfl⟩
  · rcases hend' with ⟨error', hsaved', rfl⟩ | ⟨hsaved', -⟩
    · obtain ⟨he, hread⟩ := hsave hsaved hsaved'
      cases he
      exact ⟨.unsaved _, hread⟩
    · cases (hsave hsaved hsaved').1
  · rcases hend' with ⟨error', hsaved', -⟩ | ⟨hsaved', rfl⟩
    · cases (hsave hsaved hsaved').1
    · refine ⟨?_, (hsave hsaved hsaved').2⟩
      rw [hbuilt]
      split
      · exact .noBinaries
      · exact .built hlength rfl rfl

/-- **A library whose sources cannot be had is left out.**  When the sources of `x` cannot be had at its turn,
the build ends as the build without `x` does, and saves the same manifest. -/
theorem failed_library_is_isolated (hanswers : b.compiler.runner.Answers)
    (hfetches : ∀ url p, (b.sources.fetcher url p).Finishes) :
    ∃ r r' h' g', Runs (b.withLibraries (before ++ x :: after)).build.outcome h r h' ∧
      Runs (b.withLibraries (before ++ after)).build.outcome h r' g' ∧ LeftOut x e before.length r r' ∧
      g'.read b.layout.manifest = h'.read b.layout.manifest := by
  obtain ⟨r, h', hrun⟩ := finishes_build (b := b.withLibraries (before ++ x :: after)) hanswers hfetches h
  obtain ⟨r', g', hrun'⟩ := finishes_build (b := b.withLibraries (before ++ after)) hanswers hfetches h
  exact ⟨r, r', h', g', hrun, hrun', leftOut_of_runs hd hnames hw hstart hlinks hm hout hbefore hx he hrun hrun'⟩

end

/-! ## Examples -/

/-- A builder for x86, which finds an archive at every address but one. -/
def fetching (levels : List String) (libraries : List Library) : DatasetBuilder :=
  let b := withTools levels libraries
  { b with sources := ⟨b.layout.sources, mended.fetcher⟩ }

theorem fetching_discreet (gone : String) : (fetching ["-O2"] []).Discreet ⟨"/d"⟩ ["d"] gone where
  layout := rfl
  sources := by decide +kernel
  registry := ⟨(·.id == "x86"), by show _ = Except.ok (⟨Architecture.catalog.take 1⟩ : Registry); decide⟩
  levels := by decide
  saves := saves_mended.mono fun _ _ => Archive.portable_of_isPlain
  steady := Fetcher.steady_serving _
  runner := Compiler.tame_writes _
  overlooks := Compiler.overlooks_writes rfl _

/-- Whether a build fails with an error. -/
def failsWith (b : DatasetBuilder) (h : Host) (p : BuildError → Bool) : Bool :=
  match b.build.outcome.run h with
  | .ok (.error e, _) => p e
  | _ => false

theorem exists_of_failsWith {p : BuildError → Bool} (hy : b.failsWith h p = true) :
    ∃ e h', Runs b.build.outcome h (.error e) h' ∧ p e = true := by
  unfold failsWith at hy
  split at hy
  · next e h' hr => exact ⟨e, h', hr, hy⟩
  · cases hy

/-- The root of this host is reached from outside. -/
theorem leadsFromOutside_root : (hostWithCached []).files.LeadsFromOutside [] ⟨"/d"⟩ ["d"] := by
  have hd : ((hostWithCached []).files.emptied ["d"]).get? ["d"] = some .directory := by decide +kernel
  have hnames : pathNames "/d".toList = ["d"] := by decide +kernel
  have hstart : startOf [] "/d".toList = [] := by decide +kernel
  refine ⟨by rw [hstart]; rfl, 0, by decide, ?_⟩
  rw [hnames, hstart]
  exact .place (.directory ⟨by decide, by decide, by decide⟩ hd (.done _))

/-- The archive of a library cannot be unpacked, and it is listed again with another address: this time it is
built, as if it had been listed once. -/
theorem library_is_listed_again :
    let x : Library := ⟨"x", none, some "http://h/bad.zip", some ["f"]⟩
    let again : Library := ⟨"x", none, some "http://h/x.zip", some ["f"]⟩
    let b := fetching ["-O2"] []
    ∃ e m s s' h' g', Runs (b.withLibraries [x, again]).build.outcome (hostWithCached []) (.ok (m, s)) h' ∧
      Runs (b.withLibraries [again]).build.outcome (hostWithCached []) (.ok (m, s')) g' ∧ m.size = 1 ∧
      s.libraries = unavailable x e :: s'.libraries ∧
      g'.read b.layout.manifest = h'.read b.layout.manifest := by
  intro x again b
  let h := hostWithCached []
  obtain ⟨m, s, h', hrun, hsize⟩ := exists_of_yields (b := b.withLibraries [x, again]) (h := h)
    (p := fun m _ _ => m.size == 1) (by decide +kernel)
  have hlinks : ∀ k target, h.files.get? k ≠ some (.link target) := get?_ne_link (by decide)
  have hmade : h.files.makeDirectories [] b.layout.binaries = .ok (h.files.put ["d", "binaries"] .directory) :=
    (makeDirectories_child_iff (n := "binaries") leadsFromOutside_root.toLeads (by decide) (hlinks _)).mpr
      ⟨⟨by decide +kernel, by decide⟩, Or.inl ⟨by decide +kernel, rfl⟩⟩
  have hfails : b.sources.failsUnpacking "x" none (some "http://h/bad.zip")
      { h with files := h.files.put ["d", "binaries"] .directory } (fun _ => true) = true := by decide +kernel
  obtain ⟨archive, h2, hx, -⟩ := exists_of_failsUnpacking hfails
  have hnames : ∀ l ∈ [] ++ x :: [again], IsCached l := by decide
  obtain ⟨r, r', h1, g', hr, hr', hleft, hread⟩ := failed_library_is_isolated
    (fetching_discreet (cacheName x.name x.version)) hnames
    (wellFormed_of_entries (by decide) (by decide +kernel)) (by decide +kernel) (fun k target _ => hlinks k target)
    hmade (leadsFromOutside_root.of_changesOnly (changesOnly_makeDirectories hmade))
    (runs_buildLibraries_nil.mpr ⟨rfl, rfl, rfl⟩) hx nofun (fun call h => Runner.writing_answers _ call h)
    fun url p => SourceCache.finishes_filesAt _ _
  obtain ⟨rfl, rfl⟩ := hr.unique hrun
  cases hleft with | @built _ _ s' first rest hfirst hs hs' =>
  obtain rfl := List.length_eq_zero_iff.mp hfirst
  exact ⟨_, m, s, s', h1, g', hr, hr', eq_of_beq hsize, by rw [hs, hs']; rfl, hread⟩

/-- A level with a separator leads to the downloads, which are there when an archive could not be unpacked:
with this library the build succeeds, without it there are no binaries.  And where the manifest cannot be
written, both fail for this reason. -/
theorem separator_leads_to_downloads :
    let x : Library := ⟨"x", none, some "http://h/bad.zip", some ["f"]⟩
    let y : Library := ⟨"y", none, none, some ["f"]⟩
    (let b := fetching ["-O/../../../sources/.downloads/z"] []
      let h := hostWithDirectories ["y"] [["d", "binaries"], ["d", "binaries", "y"], ["d", "binaries", "y", "y_f_x86_o"]]
      (b.withLibraries [x, y]).config.validate = .ok () ∧ IsCached x ∧ IsCached y ∧ h.Plain ⟨"/d"⟩ ∧
        (∃ archive h1, Runs (b.acquire x).outcome h (.error (.unpacking archive)) h1) ∧
        (∃ m s h', Runs (b.withLibraries [x, y]).build.outcome h (.ok (m, s)) h') ∧
        ∃ g', Runs (b.withLibraries [y]).build.outcome h (.error .noLibrariesBuilt) g') ∧
    (let b := fetching ["-O2"] []
      let h := hostWithDirectories ["y"] [["d", "binaries"], ["d", manifestFileName]]
      (∃ archive h1, Runs (b.acquire x).outcome h (.error (.unpacking archive)) h1) ∧
        ∃ e h', Runs (b.withLibraries [x, y]).build.outcome h (.error e) h' ∧ e ≠ .noLibrariesBuilt) := by
  intro x y
  have hvalid : ∀ c : Config, c.fault? = none → c.validate = .ok () := by
    intro c hc
    unfold Config.validate
    rw [hc]
  constructor
  · intro b h
    obtain ⟨archive, h1, hx, -⟩ := exists_of_failsUnpacking
      (show b.sources.failsUnpacking "x" none (some "http://h/bad.zip") h (fun _ => true) = true by decide +kernel)
    obtain ⟨m, s, h', hrun, -⟩ := exists_of_yields
      (show (b.withLibraries [x, y]).yields h (fun _ _ _ => true) = true by decide +kernel)
    obtain ⟨e, g', hrun', he⟩ := exists_of_failsWith
      (show (b.withLibraries [y]).failsWith h (· == .noLibrariesBuilt) = true by decide +kernel)
    rw [beq_iff_eq.mp he] at hrun'
    exact ⟨hvalid _ (by decide +kernel), by decide, by decide, Host.plain_of_no_links _ (by decide),
      ⟨archive, h1, hx⟩, ⟨m, s, h', hrun⟩, g', hrun'⟩
  · intro b h
    obtain ⟨archive, h1, hx, -⟩ := exists_of_failsUnpacking
      (show b.sources.failsUnpacking "x" none (some "http://h/bad.zip") h (fun _ => true) = true by decide +kernel)
    obtain ⟨e, h', hrun, he⟩ := exists_of_failsWith
      (show (b.withLibraries [x, y]).failsWith h (· != .noLibrariesBuilt) = true by decide +kernel)
    exact ⟨⟨archive, h1, hx⟩, e, h', hrun, bne_iff_ne.mp he⟩

end DatasetBuilder

end CipherCorpus
