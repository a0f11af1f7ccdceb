import CipherCorpus.Proofs.Sources.Filling

/-!
# Calls one after another

How a call ends (`Ends`): the tree is there, nothing can be fetched, or the cache is filled.  Whatever
comes of a call, the next one may follow it, and the trees of other names are as they were (`Kept`).  So
a tree that is there stays as it is through all later calls (`Calls.kept`).
-/

namespace CipherCorpus

open FileTree CipherCorpus.Path
open Archive (Kind fileNameOf isPlain)

/-- The fetcher that delivers what lies at each address. -/
def Fetcher.serving (bodies : String → List UInt8) : Fetcher := fun url dest =>
  (change fun t cwd => t.writeBytes cwd dest (bodies url)).inWords (.files dest)

theorem Fetcher.saves_serving {bodies : String → List UInt8} {Good : Kind → List UInt8 → Prop}
    (hg : ∀ url kind, Kind.ofFileName? (fileNameOf url) = some kind → Good kind (bodies url)) :
    (Fetcher.serving bodies).Saves Good where
  host hr := by
    rcases SourceCache.runs_filesAt_iff.mp hr with ⟨t, ht, -, rfl⟩ | ⟨e, -, -, rfl⟩
    · exact ⟨rfl, rfl, Or.inr ⟨_, ht⟩⟩
    · exact ⟨rfl, rfl, Or.inl rfl⟩
  saved {url _ _ _} hr := by
    rcases SourceCache.runs_filesAt_iff.mp hr with ⟨t, ht, -, rfl⟩ | ⟨e, -, he, -⟩
    · exact ⟨_, ht, fun kind hk => hg url kind hk⟩
    · cases he
  failed hr := by
    rcases SourceCache.runs_filesAt_iff.mp hr with ⟨t, -, he, -⟩ | ⟨e, -, he, -⟩
    · cases he
    · cases he
      exact Or.inr ⟨_, rfl⟩

namespace SourceCache

variable {a : SourceCache} {home : Key} {c c' : String} {d : Call} {r : Request} {h h' g : Host}
  {Good : Kind → List UInt8 → Prop} {x : Except SourceError Path} {data : List UInt8}
  {calls later : List (Call × Except SourceError Path)}

/-- What is asked of the archives: they hold files and directories only. -/
def Plain (kind : Kind) (data : List UInt8) : Prop := isPlain kind data = true

/-- The name of the cached tree that a caller asks for. -/
def Call.cacheName (d : Call) : String := SourceCache.cacheName d.name d.version

/-- Calls one after another, each with its answer, lead from `h` to a host. -/
inductive Calls (a : SourceCache) (h : Host) : List (Call × Except SourceError Path) → Host → Prop where
  | nil : Calls a h [] h
  | snoc {before g answer next} (d : Call) : Calls a h before g →
      Runs (a.tree d.name d.version d.url).outcome g answer next → Calls a h (before ++ [(d, answer)]) next

/-- The last call follows the others. -/
theorem Calls.of_concat (hcalls : a.Calls h (calls ++ [(d, x)]) h') :
    ∃ g, a.Calls h calls g ∧ Runs (a.tree d.name d.version d.url).outcome g x h' := by
  generalize hlist : calls ++ [(d, x)] = list at hcalls
  cases hcalls with
  | nil => simp at hlist
  | snoc d' hbefore hrun =>
    obtain ⟨rfl, hlast⟩ := List.append_inj' hlist rfl
    cases hlast
    exact ⟨_, hbefore, hrun⟩

theorem Calls.eq_of_nil (hcalls : a.Calls h [] h') : h' = h := by
  generalize hlist : ([] : List (Call × Except SourceError Path)) = list at hcalls
  cases hcalls with
  | nil => rfl
  | snoc d _ _ => simp at hlist

/-! ## One call -/

/-- How a call can end. -/
inductive Ends (a : SourceCache) (Good : Kind → List UInt8 → Prop) (home : Key) (d : Call) (h : Host) :
    Except SourceError Path → Host → Prop where
  | hit : h.isThere (a.treePath d.name d.version) = true →
      Ends a Good home d h (.ok (a.treePath d.name d.version)) h
  | refused {e} : h.isThere (a.treePath d.name d.version) = false → request d.name d.url = .error e →
      Ends a Good home d h (.error e) h
  | worked {q answer next} : h.isThere (a.treePath d.name d.version) = false →
      request d.name d.url = .ok q → Fills a Good home d.cacheName q h answer next →
      Ends a Good home d h answer next

theorem ends (hat : LiesAt a.sources home h) (hf : a.fetcher.Saves Good) (hc : IsCacheName d.cacheName)
    (hrun : Runs (a.tree d.name d.version d.url).outcome h x h') : Ends a Good home d h x h' := by
  by_cases hit : h.isThere (a.treePath d.name d.version) = true
  · obtain ⟨rfl, rfl⟩ := (runs_tree_of_hit hit).mp hrun
    exact .hit hit
  · have hmiss := Bool.eq_false_of_not_eq_true hit
    rcases (runs_tree_of_miss hmiss).mp hrun with ⟨e, he, rfl, rfl⟩ | ⟨r, hr, hrun⟩
    · exact .refused hmiss he
    · exact .worked hmiss hr (fills hat hf (request_eq hr) hc hrun)

/-- What every call keeps, whatever comes of it. -/
structure Kept (a : SourceCache) (home : Key) (c : String) (h h' : Host) : Prop where
  liesAt : LiesAt a.sources home h'
  ready : Ready a.sources h.cwd home h.files → Ready a.sources h'.cwd home h'.files
  directory : h.files.get? home ≠ none → h'.files.get? home ≠ none
  others : ∀ c', IsCacheName c' → c' ≠ c → treeAt home c' h'.files = treeAt home c' h.files
  fetches : h'.trace.fetches.length ≤ h.trace.fetches.length + 1

/-- A key of a cached tree lies in the sources, and is none that changes on the way to another tree. -/
theorem cachedKey_ne (hc : IsCacheName c) (home x : Key) : isBelow home (home ++ c :: x) = true ∧
    home ++ c :: x ≠ home ++ [".downloads"] ∧ (∀ n, home ++ c :: x ≠ archiveKey home n) ∧
    ∀ c', ¬ AtEntries home [".staging-" ++ c'] (home ++ c :: x) := by
  refine ⟨isBelow_append (by simp), fun he => ?_, fun n he => ?_, fun c' hk => ?_⟩
  · rw [List.append_cancel_left_eq] at he
    exact hc.ne_downloads (List.cons.inj he).1
  · rw [archiveKey_eq, List.append_cancel_left_eq] at he
    exact hc.ne_downloads (List.cons.inj he).1
  · rw [atEntries_iff, List.mem_singleton] at hk
    exact hc.ne_staging c' hk

theorem Kept.refl (hat : LiesAt a.sources home h) : a.Kept home c h h :=
  ⟨hat, id, id, fun _ _ _ => rfl, Nat.le_succ _⟩

theorem Ready.home_ne_none {t : FileTree} {cwd : Key} {sources : Path} (hr : Ready sources cwd home t) :
    t.get? home ≠ none := by
  rw [hr.leads.get?_home hr.tree]
  exact nofun

/-- A call that failed leaves every cached tree as it was. -/
theorem Spared.treeAt_eq (hs : a.Spared home c r h h') (hc' : IsCacheName c') :
    treeAt home c' h'.files = treeAt home c' h.files := by
  funext x
  obtain ⟨hbelow, hdown, harch, hstage⟩ := cachedKey_ne hc' home x
  exact hs.frame _ hbelow hdown (harch _) (hstage c)

theorem Spared.kept (hs : a.Spared home c r h h') : a.Kept home c h h' :=
  ⟨hs.ready.liesAt, fun _ => hs.ready, fun _ => hs.ready.home_ne_none, fun _ hc' _ => hs.treeAt_eq hc',
    by simp [hs.fetches]⟩

/-- Filling the cache leaves every other cached tree as it was. -/
theorem Filled.treeAt_eq (hs : a.Filled home c r data h h') (hc' : IsCacheName c') (hne : c' ≠ c) :
    treeAt home c' h'.files = treeAt home c' h.files := by
  funext x
  obtain ⟨hbelow, hdown, harch, hstage⟩ := cachedKey_ne hc' home x
  refine hs.frame _ hbelow hdown (harch _) fun hk => ?_
  rw [atEntries_iff, List.mem_cons, List.mem_singleton] at hk
  rcases hk with hk | hk
  · exact hc'.ne_staging c hk
  · exact hne hk

theorem Filled.kept (hs : a.Filled home c r data h h') : a.Kept home c h h' :=
  ⟨hs.ready.liesAt, fun _ => hs.ready, fun _ => hs.ready.home_ne_none,
    fun _ hc' hne => hs.treeAt_eq hc' hne, by simp [hs.fetches]⟩

/-- What an archive holds has a directory at its top. -/
theorem stripped_nil {s : FileTree} (hs : s.WellFormed) : Archive.stripped s [] = some .directory := by
  unfold Archive.stripped
  rw [List.append_nil]
  cases hd : Archive.singleTop s with
  | nil => rfl
  | cons n rest =>
    have hrest : rest = [] := by
      unfold Archive.singleTop at hd
      split at hd
      · split at hd
        · exact (List.cons.inj hd).2.symm
        · cases hd
      · cases hd
    subst hrest
    exact ((Archive.singleTop_eq_singleton_iff hs).mp hd).1

/-- A tree that was put in its place is there. -/
theorem Filled.treeAt_nil (hs : a.Filled home c r data h h') : treeAt home c h'.files [] = some .directory := by
  rw [hs.tree, stripped_nil (Archive.wellFormed_extraction _ _)]

theorem Ends.kept (he : Ends a Plain home d h x h')
    (hat : LiesAt a.sources home h) (hc : IsCacheName d.cacheName) : a.Kept home d.cacheName h h' := by
  cases he with
  | hit _ => exact .refl hat
  | refused _ _ => exact .refl hat
  | worked _ _ hw =>
    cases x with
    | ok p =>
      obtain ⟨-, data, h1, -, hfilled⟩ := hw.of_ok hc fun _ _ => id
      exact hfilled.kept
    | error e =>
      rcases hw.of_error hc (fun _ _ => Archive.confined_of_isPlain) (Or.inr fun _ _ => id) with
        ⟨-, rfl⟩ | hs
      · exact .refl hat
      · exact hs.kept

/-! ## Later calls -/

variable (hf : a.fetcher.Saves Plain)
include hf

/-- A call leaves a tree that is there as it is. -/
theorem Ready.kept_of_there (hready : Ready a.sources h.cwd home h.files) (hc : IsCacheName c)
    (hthere : treeAt home c h.files [] ≠ none) (hd : IsCacheName d.cacheName)
    (hrun : Runs (a.tree d.name d.version d.url).outcome h x h') :
    Ready a.sources h'.cwd home h'.files ∧ treeAt home c h'.files = treeAt home c h.files := by
  by_cases hdc : d.cacheName = c
  · subst hdc
    obtain ⟨-, rfl⟩ := (runs_tree_of_hit ((hready.isThere_iff hc.1).mpr hthere)).mp hrun
    exact ⟨hready, rfl⟩
  · have hkept := (ends hready.liesAt hf hd hrun).kept hready.liesAt hd
    exact ⟨hkept.ready hready, hkept.others c hc fun he => hdc he.symm⟩

/-- **A tree that is there stays as it is**, whatever is asked for later. -/
theorem Calls.kept (hcalls : a.Calls h later g) (hready : Ready a.sources h.cwd home h.files)
    (hc : IsCacheName c) (hthere : treeAt home c h.files [] ≠ none)
    (hnames : ∀ call ∈ later, IsCacheName call.1.cacheName) :
    Ready a.sources g.cwd home g.files ∧ treeAt home c g.files = treeAt home c h.files := by
  induction hcalls with
  | nil => exact ⟨hready, rfl⟩
  | snoc d _ hrun ih =>
    rw [List.forall_mem_append] at hnames
    obtain ⟨hready1, hsame⟩ := ih hnames.1
    obtain ⟨hready2, hsame2⟩ := hready1.kept_of_there hf hc (hsame ▸ hthere) (hnames.2 _ List.mem_cons_self) hrun
    exact ⟨hready2, hsame2.trans hsame⟩

/-- After any calls the next one may follow. -/
theorem Calls.liesAt (hcalls : a.Calls h calls g) (hat : LiesAt a.sources home h)
    (hnames : ∀ call ∈ calls, IsCacheName call.1.cacheName) :
    LiesAt a.sources home g ∧ (h.files.get? home ≠ none → g.files.get? home ≠ none) := by
  induction hcalls with
  | nil => exact ⟨hat, id⟩
  | snoc d _ hrun ih =>
    rw [List.forall_mem_append] at hnames
    obtain ⟨hat1, hhome⟩ := ih hnames.1
    have hd := hnames.2 _ List.mem_cons_self
    have hkept := (ends hat1 hf hd hrun).kept hat1 hd
    exact ⟨hkept.liesAt, fun hh => hkept.directory (hhome hh)⟩

end SourceCache

end CipherCorpus
