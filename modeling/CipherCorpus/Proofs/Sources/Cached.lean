import CipherCorpus.Proofs.Sources.Callers
import CipherCorpus.Proofs.Sources.Calls

/-!
# What is cached

The first call for a library that gets a tree leaves what the archive is unpacked to, and nothing else.
From then on every call for it gets that tree and fetches nothing, whatever is asked for in between, so
the calls for one library fetch at most once more than they fail (`miss_caches_archive`).

Starting from empty sources, every tree that is had comes from an archive that was fetched for the same
library (`Calls.own_archive`), if no two libraries have one cache name.  Names and versions do not make
sure of that: `a-1` without a version has the cache name of `a` in version `1`
(`one_tree_for_two_libraries`).
-/

namespace CipherCorpus.SourceCache

open FileTree CipherCorpus.Path
open Archive (Kind isPlain extraction singleTop stripped)

variable {a : SourceCache} {home : Key} {name c : String} {version url : Option String} {h h' g : Host}
  {p : Path} {x : Except SourceError Path} {calls : List (Call × Except SourceError Path)}

/-! ## One library -/

/-- One of the calls for a library filled the cache with a tree, from an archive fetched in this call. -/
def FilledBy (a : SourceCache) (home : Key) (h : Host) (calls : List (Call × Except SourceError Path))
    (name : String) (version : Option String) (tree : Key → Option Entry) : Prop :=
  ∃ before after url p h0 h1 r data h2, calls = before ++ (⟨name, version, url⟩, .ok p) :: after ∧
    a.Calls h before h0 ∧ Runs (a.tree name version url).outcome h0 (.ok p) h1 ∧
    request name url = .ok r ∧ h1.trace.fetches = h0.trace.fetches ++ [r.url] ∧
    a.Fetched Plain home r data h0 h2 ∧ tree = stripped (extraction r.kind data).2

theorem FilledBy.concat {tree : Key → Option Entry} (hby : a.FilledBy home h calls name version tree)
    (d : Call) (x : Except SourceError Path) : a.FilledBy home h (calls ++ [(d, x)]) name version tree := by
  obtain ⟨before, after, url, p, h0, h1, r, data, h2, rfl, hrest⟩ := hby
  exact ⟨before, after ++ [(d, x)], url, p, h0, h1, r, data, h2, by simp, hrest⟩

/-- A library whose cache name no other one of the calls has. -/
def KeepsApart (calls : List (Call × Except SourceError Path)) (name : String) (version : Option String) :
    Prop :=
  ∀ call ∈ calls, call.1.cacheName = cacheName name version → call.1.name = name ∧ call.1.version = version

/-- What calls that start without a tree keep of it: it is not there, or its own calls filled the cache
with it. -/
theorem Calls.filledBy (hf : a.fetcher.Saves Plain) (hcalls : a.Calls h calls g)
    (hat : LiesAt a.sources home h) (hempty : treeAt home (cacheName name version) h.files [] = none)
    (hnames : ∀ call ∈ calls, IsCacheName call.1.cacheName) (hc : IsCacheName (cacheName name version))
    (hapart : KeepsApart calls name version) :
    treeAt home (cacheName name version) g.files [] = none ∨
      a.FilledBy home h calls name version (treeAt home (cacheName name version) g.files) := by
  induction hcalls with
  | nil => exact Or.inl hempty
  | @snoc calls g x h' d hcalls hrun ih =>
    unfold KeepsApart at hapart
    rw [List.forall_mem_append] at hnames hapart
    have hd : IsCacheName d.cacheName := hnames.2 _ List.mem_cons_self
    obtain ⟨hat1, -⟩ := hcalls.liesAt hf hat hnames.1
    have hends := ends hat1 hf hd hrun
    have hbefore := (ih hnames.1 hapart.1).imp_right fun hby => hby.concat d x
    by_cases hdc : d.cacheName = cacheName name version
    · obtain ⟨rfl, rfl⟩ : d.name = name ∧ d.version = version := hapart.2 _ List.mem_cons_self hdc
      cases hends with
      | hit _ => exact hbefore
      | refused _ _ => exact hbefore
      | worked _ hr hw =>
        cases x with
        | ok p =>
          obtain ⟨-, data, h2, hfetched, hfilled⟩ := hw.of_ok hc fun _ _ => id
          exact Or.inr ⟨calls, [], d.url, p, g, h', _, data, h2, rfl, hcalls, hrun, hr,
            hfilled.fetches, hfetched, hfilled.tree⟩
        | error e =>
          rcases hw.of_error hc (fun _ _ => Archive.confined_of_isPlain) (Or.inr fun _ _ => id) with
            ⟨-, rfl⟩ | hs
          · exact hbefore
          · rwa [hs.treeAt_eq hc]
    · rwa [(hends.kept hat1 hd).others _ hc fun he => hdc he.symm]

/-- **A tree comes from an archive that was fetched for its library**, when the calls start from empty
sources and no other library of the calls has its cache name. -/
theorem Calls.own_archive (hf : a.fetcher.Saves Plain) (hat : LiesAt a.sources home h)
    (hhome : h.files.get? home = some .directory) (hempty : ∀ k, isBelow home k = true → h.files.get? k = none)
    (hcalls : a.Calls h (calls ++ [(⟨name, version, url⟩, .ok p)]) g)
    (hnames : ∀ call ∈ calls, IsCacheName call.1.cacheName) (hc : IsCacheName (cacheName name version))
    (hapart : KeepsApart calls name version) :
    p = a.treePath name version ∧ a.FilledBy home h (calls ++ [(⟨name, version, url⟩, .ok p)]) name version
      (treeAt home (cacheName name version) g.files) := by
  have hnames' : ∀ call ∈ calls ++ [(⟨name, version, url⟩, .ok p)], IsCacheName call.1.cacheName := by
    rw [List.forall_mem_append]
    exact ⟨hnames, fun call hm => by rw [List.mem_singleton.mp hm]; exact hc⟩
  have hapart' : KeepsApart (calls ++ [(⟨name, version, url⟩, .ok p)]) name version := by
    unfold KeepsApart
    rw [List.forall_mem_append]
    exact ⟨hapart, fun call hm _ => by rw [List.mem_singleton.mp hm]; exact ⟨rfl, rfl⟩⟩
  obtain ⟨g1, hbefore, hrun⟩ := hcalls.of_concat
  have hnone : treeAt home (cacheName name version) h.files [] = none := hempty _ (isBelow_append (by simp))
  refine ⟨tree_path hrun, (hcalls.filledBy hf hat hnone hnames' hc hapart').resolve_left fun hno => ?_⟩
  -- the last call answers with a path, so a tree is there
  obtain ⟨hat1, hhome1⟩ := hbefore.liesAt hf hat hnames
  cases ends (d := ⟨name, version, url⟩) hat1 hf hc hrun with
  | hit hit => exact hat1.get?_of_hit hc.1 (hhome1 (by rw [hhome]; exact nofun)) hit hno
  | worked _ _ hw =>
    obtain ⟨-, data, h2, -, hfilled⟩ := hw.of_ok hc fun _ _ => id
    cases hno.symm.trans hfilled.treeAt_nil

/-! ## Examples -/

/-- A machine with an empty sources directory. -/
def bareSources : Host := { bareHost with files := FileTree.empty.put ["s"] .directory }

theorem get?_bareSources {n : String} {x : Key} : bareSources.files.get? ("s" :: n :: x) = none :=
  (get?_put_ne _ _ (by simp)).trans rfl

/-- A directory at the top is led to from outside. -/
theorem leadsFromOutside_top {t : FileTree} {cwd : Key} (hd : (t.emptied ["s"]).get? ["s"] = some .directory) :
    t.LeadsFromOutside cwd ⟨"/s"⟩ ["s"] := by
  have hnames : pathNames "/s".toList = ["s"] := by decide +kernel
  have hstart : startOf cwd "/s".toList = [] := rfl
  refine ⟨by rw [hstart]; rfl, 0, by decide, ?_⟩
  rw [hnames, hstart]
  exact .place (.directory ⟨by decide, by decide, by decide⟩ hd (.done _))

theorem leadsFromOutside_bareSources : bareSources.files.LeadsFromOutside bareSources.cwd ⟨"/s"⟩ ["s"] :=
  leadsFromOutside_top (by decide +kernel)

theorem liesAt_bareSources : LiesAt ⟨"/s"⟩ ["s"] bareSources := by
  refine liesAt_of_leads ?_ leadsFromOutside_bareSources (fun n target => ?_) fun n target => ?_
  · exact wellFormed_empty.put (d := []) (n := "s") (by decide) rfl (fun _ => rfl) nofun
  · exact fun he => nomatch get?_bareSources.symm.trans he
  · exact fun he => nomatch get?_bareSources.symm.trans he

/-- A zip archive of one file `g.c`. -/
def zipOfOther : List UInt8 :=
  [80, 75, 3, 4, 20, 0, 0, 0, 0, 0, 0, 0, 33, 0, 114, 83, 156, 255, 6, 0, 0, 0, 6, 0, 0, 0, 3, 0, 0, 0,
  103, 46, 99, 105, 110, 116, 32, 103, 59, 80, 75, 1, 2, 20, 3, 20, 0, 0, 0, 0, 0, 0, 0, 33, 0, 114, 83,
  156, 255, 6, 0, 0, 0, 6, 0, 0, 0, 3, 0, 0, 0, 0, 0, 0, 0, 0, 0, 0, 0, 128, 1, 0, 0, 0, 0, 103, 46, 99,
  80, 75, 5, 6, 0, 0, 0, 0, 1, 0, 1, 0, 49, 0, 0, 0, 39, 0, 0, 0, 0, 0]

/-- The other archive lies at one address, the first one everywhere else. -/
def twoBodies (url : String) : List UInt8 := if url = "http://h/a.zip" then zipOfOther else zipOfFile

/-- A cache that is filled from one of two archives. -/
def filledFromTwo : SourceCache := ⟨⟨"/s"⟩, .serving twoBodies⟩

theorem saves_filledFromTwo : filledFromTwo.fetcher.Saves Plain := by
  refine Fetcher.saves_serving fun url kind _ => ?_
  unfold Plain twoBodies
  have hplain : isPlain kind zipOfOther = true ∧ isPlain kind zipOfFile = true := by
    cases kind <;> decide +kernel
  split
  · exact hplain.1
  · exact hplain.2

theorem exists_tree_x : ∃ h', Runs (filledFromTwo.tree "x" none (some "http://h/x.zip")).outcome bareSources
    (.ok ⟨"/s/x"⟩) h' ∧ treeAt ["s"] "x" h'.files ["f.c"] ≠ none := by
  have hplace : filledFromTwo.treePath "x" none = ⟨"/s/x"⟩ := by decide +kernel
  have hy : filledFromTwo.yieldsTree "x" none (some "http://h/x.zip") bareSources
      (fun h => decide (treeAt ["s"] "x" h.files ["f.c"] ≠ none)) = true := by decide +kernel
  obtain ⟨h', hrun, hfile⟩ := exists_of_yieldsTree hy
  rw [hplace] at hrun
  exact ⟨h', hrun, of_decide_eq_true hfile⟩

/-- A library gets the tree of the archive that was fetched for it. -/
theorem own_archive_of_one : ∃ g, filledFromTwo.Calls bareSources
      [(⟨"x", none, some "http://h/x.zip"⟩, .ok ⟨"/s/x"⟩)] g ∧
    filledFromTwo.FilledBy ["s"] bareSources [(⟨"x", none, some "http://h/x.zip"⟩, .ok ⟨"/s/x"⟩)] "x" none
      (treeAt ["s"] "x" g.files) := by
  obtain ⟨g, hrun, -⟩ := exists_tree_x
  have hcalls := Calls.nil.snoc ⟨"x", none, some "http://h/x.zip"⟩ hrun
  refine ⟨g, hcalls, (Calls.own_archive saves_filledFromTwo liesAt_bareSources rfl ?_ hcalls nofun
    (by decide) nofun).2⟩
  intro k hk
  obtain ⟨x, hx, rfl⟩ := isBelow_iff.mp hk
  cases x with
  | nil => exact absurd rfl hx
  | cons n x => exact get?_bareSources

/-- **One tree for two libraries.**  The cache name of `a-1` without a version is that of `a` in version
`1`.  Asked for after the other, `a` gets the tree of `a-1`, and its own archive is not fetched. -/
theorem one_tree_for_two_libraries :
    let calls : List (Call × Except SourceError Path) := [(⟨"a-1", none, some "http://h/a-1.zip"⟩, .ok ⟨"/s/a-1"⟩),
      (⟨"a", some "1", some "http://h/a.zip"⟩, .ok ⟨"/s/a-1"⟩)]
    filledFromTwo.treePath "a-1" none = filledFromTwo.treePath "a" (some "1") ∧
    ∃ g, filledFromTwo.Calls bareSources calls g ∧ g.trace.fetches = ["http://h/a-1.zip"] ∧
      treeAt ["s"] "a-1" g.files ["f.c"] ≠ none ∧ stripped (extraction .zip zipOfOther).2 ["f.c"] = none ∧
      ¬ filledFromTwo.FilledBy ["s"] bareSources calls "a" (some "1")
        (treeAt ["s"] (cacheName "a" (some "1")) g.files) := by
  intro calls
  have hplace : filledFromTwo.treePath "a-1" none = ⟨"/s/a-1"⟩ := by decide +kernel
  have hplace' : filledFromTwo.treePath "a" (some "1") = ⟨"/s/a-1"⟩ := by decide +kernel
  have hy : filledFromTwo.yieldsTree "a-1" none (some "http://h/a-1.zip") bareSources
      (fun h => h.isThere ⟨"/s/a-1"⟩ && decide (h.trace.fetches = ["http://h/a-1.zip"]) &&
        decide (treeAt ["s"] "a-1" h.files ["f.c"] ≠ none)) = true := by decide +kernel
  obtain ⟨g, hrun, htest⟩ := exists_of_yieldsTree hy
  simp only [Bool.and_eq_true, decide_eq_true_eq] at htest
  obtain ⟨⟨hthere, hfetches⟩, hfile⟩ := htest
  rw [hplace] at hrun
  have hit : g.isThere (filledFromTwo.treePath "a" (some "1")) = true := by
    rw [hplace']
    exact hthere
  have hagain : Runs (filledFromTwo.tree "a" (some "1") (some "http://h/a.zip")).outcome g
      (.ok (filledFromTwo.treePath "a" (some "1"))) g := (runs_tree_of_hit hit).mpr ⟨rfl, rfl⟩
  rw [hplace'] at hagain
  have hfirst := Calls.nil.snoc ⟨"a-1", none, some "http://h/a-1.zip"⟩ hrun
  refine ⟨hplace.trans hplace'.symm, g, hfirst.snoc ⟨"a", some "1", some "http://h/a.zip"⟩ hagain, hfetches,
    hfile, by decide +kernel, ?_⟩
  rintro ⟨before, after, url, p, h0, h1, r, data, h2, hlist, hbefore, hcall, -, htrace, -⟩
  -- the only call for `a` is the second one, which finds a tree
  match before, hlist with
  | [], hlist => simp [calls] at hlist
  | [b], hlist =>
    obtain ⟨rfl, hlist⟩ := List.cons.inj hlist
    have hbefore : filledFromTwo.Calls bareSources
        ([] ++ [(⟨"a-1", none, some "http://h/a-1.zip"⟩, .ok ⟨"/s/a-1"⟩)]) h0 := hbefore
    obtain ⟨g0, hnil, hfirst⟩ := hbefore.of_concat
    obtain rfl := hnil.eq_of_nil
    obtain ⟨-, rfl⟩ := hfirst.unique hrun
    obtain ⟨-, rfl⟩ := (runs_tree_of_hit hit).mp hcall
    exact absurd (congrArg List.length htrace) (by simp)
  | b :: b' :: before, hlist => simp [calls] at hlist

end CipherCorpus.SourceCache
