import CipherCorpus.Proofs.FileTree.Place
import CipherCorpus.Proofs.Sources.Crew

/-!
# The archive of an address

The file name of an archive is the last segment of the path of its address: neither separators behind it
nor a query or a fragment change it (`fileNameOf_append`).

A fetcher is asked to write such a name into the downloads directory and is asked nothing else
(`tree_asks`): a call does the same with every fetcher, or it is what one question to the fetcher and the
steps after it do.
-/

namespace CipherCorpus

open FileTree CipherCorpus.Path

/-! ## The last segment of an address -/

namespace Archive

variable {u s seg : List Char} {url : String} {n : Nat}

/-- A character behind the path of an address. -/
def EndsPath (c : Char) : Prop := c = '?' ∨ c = '#'

/-- An address that is all path. -/
def IsBarePath (u : List Char) : Prop := ∀ c ∈ u, ¬ EndsPath c

/-- What may stand behind the path of an address: nothing, or a query or a fragment. -/
def IsPathTail (s : List Char) : Prop := ∀ c ∈ s.head?, EndsPath c

instance : DecidablePred EndsPath := fun c => inferInstanceAs (Decidable (c = '?' ∨ c = '#'))

-- over the characters of the address, not over all characters
instance (u : List Char) : Decidable (IsBarePath u) := List.decidableBAll (fun c => ¬ EndsPath c) u

instance (s : List Char) : Decidable (IsPathTail s) := Option.decidableForallMem (p := EndsPath) s.head?

/-- Separators in a row. -/
def separators (n : Nat) : List Char := List.replicate n '/'

/-- An address with separators and a query or a fragment behind it. -/
def withTail (u : String) (n : Nat) (s : String) : String := u ++ String.ofList (separators n) ++ s

/-- The last segment of a path, without the separators behind it. -/
def lastSegment (path : List Char) : List Char :=
  ((path.reverse.dropWhile (· == '/')).takeWhile (· != '/')).reverse

theorem keeps_iff {c : Char} : (c != '?' && c != '#') = true ↔ ¬ EndsPath c := by
  simp [EndsPath, not_or]

theorem isBarePath_addressPath (u : List Char) : IsBarePath (addressPath u) := by
  intro c hc
  have hkeeps := List.mem_takeWhile_imp hc
  exact keeps_iff.mp hkeeps

theorem isPathTail_dropWhile (u : List Char) : IsPathTail (u.dropWhile fun c => c != '?' && c != '#') := by
  intro c hc
  have hnot := List.head?_dropWhile_not (fun c => c != '?' && c != '#') u
  rw [Option.mem_def.mp hc] at hnot
  by_contra hends
  exact Bool.false_ne_true (hnot.symm.trans (keeps_iff.mpr hends))

/-- Every address is a path and what stands behind it. -/
theorem exists_tail (u : List Char) : ∃ s, IsPathTail s ∧ u = addressPath u ++ s :=
  ⟨_, isPathTail_dropWhile u, List.takeWhile_append_dropWhile.symm⟩

theorem addressPath_append (hu : IsBarePath u) (hs : IsPathTail s) : addressPath (u ++ s) = u := by
  unfold addressPath
  rw [List.takeWhile_append_of_pos fun c hc => keeps_iff.mpr (hu c hc)]
  cases s with
  | nil => exact List.append_nil u
  | cons c rest =>
    have hc : EndsPath c := hs c rfl
    rw [List.takeWhile_cons_of_neg (by rw [keeps_iff]; exact not_not_intro hc), List.append_nil]

theorem isBarePath_append : IsBarePath (u ++ s) ↔ IsBarePath u ∧ IsBarePath s := by
  unfold IsBarePath
  simp only [List.mem_append, or_imp, forall_and]

theorem isBarePath_separators (n : Nat) : IsBarePath (separators n) := by
  intro c hc
  rw [List.eq_of_mem_replicate hc]
  decide

theorem lastSegment_append_separators (u : List Char) (n : Nat) :
    lastSegment (u ++ separators n) = lastSegment u := by
  unfold lastSegment separators
  rw [List.reverse_append, List.reverse_replicate, List.dropWhile_append_of_pos]
  intro c hc
  rw [List.eq_of_mem_replicate hc]
  rfl

theorem notMem_lastSegment (u : List Char) : '/' ∉ lastSegment u := by
  intro h
  have := List.mem_takeWhile_imp (List.mem_reverse.mp h)
  simp at this

theorem mem_of_mem_lastSegment {c : Char} (h : c ∈ lastSegment u) : c ∈ u := by
  have hdrop := (List.takeWhile_sublist _).subset (List.mem_reverse.mp h)
  exact List.mem_reverse.mp ((List.dropWhile_sublist _).subset hdrop)

theorem fileNameOf_eq (url : String) : fileNameOf url =
    if (lastSegment (addressPath url.toList)).isEmpty then "download"
    else String.ofList (lastSegment (addressPath url.toList)) := rfl

theorem fileNameOf_congr {url' : String}
    (h : lastSegment (addressPath url.toList) = lastSegment (addressPath url'.toList)) :
    fileNameOf url = fileNameOf url' := by
  rw [fileNameOf_eq, fileNameOf_eq, h]

/-- Separators, a query and a fragment at the end of an address do not change the name. -/
theorem fileNameOf_append {u s : String} (hu : IsBarePath u.toList) (hs : IsPathTail s.toList) (n : Nat) :
    fileNameOf (withTail u n s) = fileNameOf u := by
  unfold withTail
  refine fileNameOf_congr ?_
  have hbare : IsBarePath (u.toList ++ separators n) := isBarePath_append.mpr ⟨hu, isBarePath_separators n⟩
  rw [String.toList_append, String.toList_append, String.toList_ofList, addressPath_append hbare hs,
    lastSegment_append_separators]
  rw [show addressPath u.toList = u.toList by
    simpa using addressPath_append (s := []) hu (fun c hc => by cases hc)]

/-- The name has at least one character, and none that ends a segment or the path. -/
theorem fileNameOf_spec (url : String) : fileNameOf url ≠ "" ∧ '/' ∉ (fileNameOf url).toList ∧
    '?' ∉ (fileNameOf url).toList ∧ '#' ∉ (fileNameOf url).toList := by
  rw [fileNameOf_eq]
  split
  · decide
  · next h =>
    have hne : lastSegment (addressPath url.toList) ≠ [] := by simpa using h
    have hbare : IsBarePath (lastSegment (addressPath url.toList)) := fun c hc =>
      isBarePath_addressPath _ c (mem_of_mem_lastSegment hc)
    rw [String.toList_ofList]
    exact ⟨fun he => hne (by simpa using congrArg String.toList he), notMem_lastSegment _,
      fun hc => hbare _ hc (Or.inl rfl), fun hc => hbare _ hc (Or.inr rfl)⟩

end Archive

/-! ## What a fetcher is asked -/

/-- A trace with one more address in it. -/
def Trace.fetching (t : Trace) (url : String) : Trace :=
  { t with fetches := t.fetches ++ [url] }

/-- A path of an entry of a directory: the name leads neither back to the directory nor out of it. -/
structure Path.IsChildOf (p dir : Path) (n : String) : Prop where
  path : p = dir.child n
  name : IsEntryName n.toList
  parent : p.parent? = some dir
  last : p.fileName? = some n

namespace SourceCache

open Archive (Kind fileNameOf IsBarePath IsPathTail withTail)

variable {a : SourceCache} {name : String} {version url : Option String} {h : Host} {q : Request}

theorem isChildOf_downloads (a : SourceCache) {n : String} (hn : IsEntryName n.toList) :
    (a.downloads.child n).IsChildOf a.downloads n := by
  have hdot : IsEntryName ".downloads".toList := by decide
  obtain ⟨init, hp⟩ := a.sources.exists_pieces_child hdot.1
  exact ⟨rfl, hn, parent?_child hp hdot hn, fileName?_child _ hn⟩

/-- What a fetcher is asked for: an archive of a known kind, to be written into the downloads directory
under the last name of the address.  The directory is there. -/
structure Asked (a : SourceCache) (url : String) (dest : Path) (h : Host) : Prop where
  kind : Kind.ofFileName? (fileNameOf url) ≠ none
  child : dest.IsChildOf a.downloads (fileNameOf url)
  place : ∃ d, Leads h.files h.cwd a.downloads d ∧ ∀ pl,
    h.files.resolve h.cwd false dest = .ok pl → pl = h.files.placeAt (d ++ [fileNameOf url])

/-- The path of an address alone decides the file name and the kind of the archive. -/
theorem request_append {u s : String} (hu : IsBarePath u.toList) (hs : IsPathTail s.toList) (n : Nat)
    (name : String) : request name (some (withTail u n s)) =
      (request name (some u)).map fun q => { q with url := withTail u n s } := by
  unfold request
  dsimp only
  rw [Archive.fileNameOf_append hu hs]
  cases Kind.ofFileName? (fileNameOf u) with
  | none => rfl
  | some kind => rfl

theorem exists_url (hq : request name url = .ok q) : ∃ u, url = some u ∧ q.url = u := by
  unfold request at hq
  cases url with
  | none => cases hq
  | some u =>
    dsimp only at hq
    split at hq
    · cases hq
      exact ⟨u, rfl, rfl⟩
    · cases hq

/-- Once the downloads directory is made the fetcher is asked, and only then. -/
theorem asked_of_makeDirectories {u : String} {t : FileTree} {trace : Trace}
    (hq : request name (some u) = .ok q)
    (ht : h.files.makeDirectories h.cwd a.downloads = .ok t) :
    a.Asked u (a.downloads.child q.fileName) { h with files := t, trace := trace } := by
  have hdot : IsEntryName ".downloads".toList := by decide
  obtain ⟨hfile, hkind⟩ := request_eq hq
  obtain ⟨_, hu, hurl⟩ := exists_url hq
  cases hu
  rw [hurl] at hfile
  rw [hfile] at hkind ⊢
  have hname := isEntryName_fileNameOf hkind
  have hsep : endsWithSeparator a.downloads = false := endsWithSeparator_child a.sources hdot
  have hne : a.downloads.text.toList ≠ [] := toList_child_ne_nil a.sources hdot
  obtain ⟨d, hd⟩ := leads_of_makeDirectories hsep hne ht
  exact {
    kind := by rw [hkind]; simp
    child := a.isChildOf_downloads hname
    place := ⟨d, hd, fun pl hpl => ((resolve_entry_iff hd hname).mp hpl).2⟩ }

/-- The fetcher is asked on the host with the downloads directory made and the address noted. -/
theorem run_fetchArchive {t : FileTree} (ht : h.files.makeDirectories h.cwd a.downloads = .ok t) :
    (a.fetchArchive q).outcome.run h = (a.fetcher q.url (a.downloads.child q.fileName)).outcome.run
      { h with files := t, trace := h.trace.fetching q.url } := by
  have hmade : Runs (filesAt a.downloads fun t cwd => t.makeDirectories cwd a.downloads).outcome h (.ok ())
      { h with files := t } :=
    Attempt.runs_inWords.mpr ⟨.ok (), Attempt.runs_change.mpr (Or.inl ⟨t, ht, rfl, rfl⟩), rfl⟩
  have hnoted : Runs (modify fun h => { h with trace := h.trace.fetching q.url } :
      Attempt SourceError PUnit).outcome { h with files := t } (.ok ⟨⟩)
      { h with files := t, trace := h.trace.fetching q.url } := Attempt.runs_modify.mpr ⟨rfl, rfl⟩
  unfold fetchArchive
  rw [Attempt.run_bind_of_runs hmade]
  exact Attempt.run_bind_of_runs hnoted

theorem runs_fetchArchive_of_error {e : FileError}
    (he : h.files.makeDirectories h.cwd a.downloads = .error e) :
    Runs (a.fetchArchive q).outcome h (.error (.files a.downloads e)) h := by
  unfold fetchArchive
  exact Attempt.runs_bind.mpr (Or.inr ⟨_, Attempt.runs_inWords.mpr
    ⟨.error e, Attempt.runs_change.mpr (Or.inr ⟨e, he, rfl, rfl⟩), rfl⟩, rfl⟩)

/-- A call on a tree that is missing goes on with the steps that fill the cache. -/
theorem run_tree_of_miss (hmiss : h.isThere (a.treePath name version) = false)
    (hq : request name url = .ok q) : (a.tree name version url).outcome.run h =
      (a.fetchArchive q >>= fun _ => a.performAll (a.treePath name version) q filling.tail).outcome.run h := by
  have hrequest : Runs (Attempt.ofOutcome (request name url)).outcome h (.ok q) h := by
    rw [Attempt.outcome_ofOutcome, hq]
    exact runs_pure.mpr ⟨rfl, rfl⟩
  have hfill : a.performAll (a.treePath name version) q filling =
      (a.fetchArchive q >>= fun _ => a.performAll (a.treePath name version) q filling.tail) := rfl
  rw [tree_eq, Attempt.run_inspect_bind, if_neg (by rw [hmiss]; decide),
    Attempt.run_bind_of_runs hrequest, hfill]

/-- A call does the same with every fetcher, or the fetcher is asked once and then the archive is
unpacked. -/
theorem tree_asks (a : SourceCache) (name : String) (version url : Option String) (h : Host) :
    (∃ answer h', ∀ f, Runs ({ a with fetcher := f }.tree name version url).outcome h answer h') ∨
      ∃ u q h1, url = some u ∧ request name (some u) = .ok q ∧
        a.Asked u (a.downloads.child q.fileName) h1 ∧
        ∀ f, ({ a with fetcher := f }.tree name version url).outcome.run h =
          (f u (a.downloads.child q.fileName) >>= fun _ =>
            a.performAll (a.treePath name version) q filling.tail).outcome.run h1 := by
  -- the paths of a cache do not depend on its fetcher
  have hpath : ∀ f, ({ a with fetcher := f } : SourceCache).treePath name version =
      a.treePath name version := fun _ => rfl
  cases hthere : h.isThere (a.treePath name version) with
  | true =>
    refine Or.inl ⟨.ok (a.treePath name version), h, fun f => ?_⟩
    rw [← hpath f] at hthere ⊢
    exact (runs_tree_of_hit hthere).mpr ⟨rfl, rfl⟩
  | false =>
    cases hq : request name url with
    | error e =>
      refine Or.inl ⟨.error e, h, fun f => ?_⟩
      rw [← hpath f] at hthere
      exact (runs_tree_of_miss hthere).mpr (Or.inl ⟨e, hq, rfl, rfl⟩)
    | ok q =>
      obtain ⟨u, rfl, hurl⟩ : ∃ u, url = some u ∧ q.url = u := exists_url hq
      have hrun := fun f => run_tree_of_miss (a := { a with fetcher := f }) (hpath f ▸ hthere) hq
      cases ht : h.files.makeDirectories h.cwd a.downloads with
      | error e =>
        refine Or.inl ⟨.error (.files a.downloads e), h, fun f => ?_⟩
        show _ = _
        rw [hrun f]
        exact Attempt.runs_bind.mpr (Or.inr ⟨_, runs_fetchArchive_of_error ht, rfl⟩)
      | ok t =>
        refine Or.inr ⟨u, q, { h with files := t, trace := h.trace.fetching u }, rfl, hq,
          asked_of_makeDirectories hq ht, fun f => ?_⟩
        have hfetch := run_fetchArchive (a := { a with fetcher := f }) (q := q) ht
        rw [hurl] at hfetch
        rw [hrun f, Attempt.run_bind, Attempt.run_bind, hfetch]
        rfl

/-- **The archive of an address is named by its path and written into the downloads directory.**
Separators, a query and a fragment behind the path change neither name nor kind, the name can stand for an
entry of a directory, and the fetcher of a cache is asked at most once, to write the entry of that name in
the downloads directory. -/
theorem archive_lies_in_downloads :
    (∀ u s : String, IsBarePath u.toList → IsPathTail s.toList → ∀ n,
      fileNameOf (withTail u n s) = fileNameOf u ∧ ∀ name,
        request name (some (withTail u n s)) =
          (request name (some u)).map fun q => { q with url := withTail u n s }) ∧
    (∀ url, fileNameOf url ≠ "" ∧ '/' ∉ (fileNameOf url).toList ∧ '?' ∉ (fileNameOf url).toList ∧
      '#' ∉ (fileNameOf url).toList) ∧
    (∀ url : String, ∃ u s : String, IsBarePath u.toList ∧ IsPathTail s.toList ∧ url = withTail u 0 s) ∧
    ∀ (a : SourceCache) (name : String) (version url : Option String) (h : Host),
      (∃ answer h', ∀ f, Runs ({ a with fetcher := f }.tree name version url).outcome h answer h') ∨
      ∃ u q h1, url = some u ∧ request name (some u) = .ok q ∧
        a.Asked u (a.downloads.child q.fileName) h1 ∧
        ∀ f, ({ a with fetcher := f }.tree name version url).outcome.run h =
          (f u (a.downloads.child q.fileName) >>= fun _ =>
            a.performAll (a.treePath name version) q filling.tail).outcome.run h1 := by
  refine ⟨fun u s hu hs n => ⟨Archive.fileNameOf_append hu hs n, request_append hu hs n⟩,
    Archive.fileNameOf_spec, fun url => ?_, tree_asks⟩
  obtain ⟨s, hs, hurl⟩ := Archive.exists_tail url.toList
  refine ⟨String.ofList (Archive.addressPath url.toList), String.ofList s, ?_, ?_, ?_⟩
  · rw [String.toList_ofList]
    exact Archive.isBarePath_addressPath _
  · rwa [String.toList_ofList]
  · refine String.toList_injective (hurl.trans ?_)
    simp [withTail, Archive.separators]

/-- A fetcher that gets nothing. -/
def refusing (message : String) : Fetcher := fun url _ => throw (.download url message)

/-- A release behind a redirect, looked for on an empty machine. -/
theorem release_lies_in_downloads :
    IsBarePath "https://h/x/a-3.0.TGZ".toList ∧ IsPathTail "?x=1#y".toList ∧
    fileNameOf (withTail "https://h/x/a-3.0.TGZ" 2 "?x=1#y") = "a-3.0.TGZ" ∧
    ∃ h1, (SourceCache.mk ⟨"/s"⟩ (refusing "")).Asked (withTail "https://h/x/a-3.0.TGZ" 2 "?x=1#y")
      ⟨"/s/.downloads/a-3.0.TGZ"⟩ h1 := by
  let h : Host := ⟨.empty, [], [], ⟨0, 0⟩, "", 1, .empty⟩
  let url := withTail "https://h/x/a-3.0.TGZ" 2 "?x=1#y"
  obtain ⟨hname, -, -, htree⟩ := archive_lies_in_downloads
  have hbare : IsBarePath "https://h/x/a-3.0.TGZ".toList := by decide +kernel
  have htail : IsPathTail "?x=1#y".toList := by decide +kernel
  refine ⟨hbare, htail, ((hname _ _ hbare htail 2).1).trans (by decide +kernel), ?_⟩
  -- what is answered by two fetchers differs, so they were asked
  have hanswer : ∀ message ∈ ["x", "y"], (({ sources := ⟨"/s"⟩, fetcher := refusing message : SourceCache }.tree
      "a" none (some url)).outcome.run h).toOption.map (·.1) = some (.error (.download url message)) := by
    decide +kernel
  rcases htree ⟨⟨"/s"⟩, refusing ""⟩ "a" none (some url) h with
    ⟨answer, h', hsame⟩ | ⟨u, q, h1, hu, hq, hasked, -⟩
  · have hx := hanswer "x" (by simp)
    have hy := hanswer "y" (by simp)
    rw [hsame] at hx hy
    have hsame := hx.symm.trans hy
    simp at hsame
  · cases hu
    obtain ⟨_, hu, hurl⟩ := exists_url hq
    cases hu
    have hfile : q.fileName = "a-3.0.TGZ" := by
      rw [(request_eq hq).1, hurl]
      decide +kernel
    have hdest : (SourceCache.mk ⟨"/s"⟩ (refusing "")).downloads.child "a-3.0.TGZ" =
        ⟨"/s/.downloads/a-3.0.TGZ"⟩ := by decide +kernel
    rw [hfile, hdest] at hasked
    exact ⟨h1, hasked⟩

end SourceCache

end CipherCorpus
