import CipherCorpus.Command.Place
import CipherCorpus.Proofs.FileTree.Reached

/-!
# The root that an argument names

An argument settles on a directory when it is spelled as its canonical path, or leads there from outside
already.  Then its absolute path is the canonical one, and stays so whatever happens in the directory,
whether that is there or not (`absolutePath_of_settles`).

Once an argument leads to a directory, its absolute path stands for this directory
(`standsFor_absolutePath`).
-/

namespace CipherCorpus.Command

open FileTree CipherCorpus.Path

/-- The argument is spelled as the canonical path of `home`, or leads to that directory without going
through what lies in it. -/
def Settles (h : Host) (output : String) (home : Key) : Prop :=
  h.cwdPath.join ⟨output⟩ = pathOf home ∨
    (h.files.emptied home).stat h.cwd ⟨output⟩ = .ok (home, .directory)

variable {start h : Host} {output : String} {home : Key} {p : Path}

/-! ## The path of the working directory -/

theorem partOf_ne_here (piece : List Char) : partOf piece ≠ .here := by
  unfold partOf
  split <;> nofun

/-- A path that is the same as `.` is made of dots. -/
theorem dots_of_same (hp : p.same ⟨"."⟩ = true) : p.isAbsolute = false ∧
    "." ∈ pathNames p.text.toList ∧ ∀ n ∈ pathNames p.text.toList, n = "." := by
  have hparts : p.parts = [.here] := eq_of_beq hp
  obtain ⟨first, rest, hpieces⟩ : ∃ first rest, p.pieces = first :: rest :=
    List.exists_cons_of_ne_nil (Text.splitOn_ne_nil '/' p.text.toList)
  unfold parts at hparts
  rw [hpieces] at hparts
  dsimp only at hparts
  have htail : (rest.filter (!isFiller ·)).map partOf ≠ [.here] := by
    intro he
    have hm : PathPart.here ∈ (rest.filter (!isFiller ·)).map partOf := he ▸ List.mem_singleton_self _
    obtain ⟨piece, -, hpiece⟩ := List.mem_map.mp hm
    exact partOf_ne_here piece hpiece
  have hnames : pathNames p.text.toList =
      ((first :: rest).filter (· != [])).map String.ofList := by
    unfold pathNames
    rw [show Text.splitOn '/' p.text.toList = first :: rest from hpieces]
  split at hparts
  · cases hparts
  · next habs =>
    split at hparts
    · exact absurd hparts htail
    · split at hparts
      · next hdot =>
        obtain rfl := eq_of_beq hdot
        have hrest : ∀ piece ∈ rest, isFiller piece = true := by
          have hnil := List.map_eq_nil_iff.mp (List.cons.inj hparts).2
          intro piece hm
          simpa using List.filter_eq_nil_iff.mp hnil piece hm
        refine ⟨by simpa using habs, ?_, ?_⟩
        · rw [hnames]
          exact List.mem_map.mpr ⟨['.'], List.mem_filter.mpr ⟨List.mem_cons_self, rfl⟩, rfl⟩
        · intro n hn
          rw [hnames] at hn
          obtain ⟨piece, hm, rfl⟩ := List.mem_map.mp hn
          obtain ⟨hm, hne⟩ := List.mem_filter.mp hm
          rcases List.mem_cons.mp hm with rfl | hm
          · rfl
          · have hfill := hrest piece hm
            rw [isFiller, Bool.or_eq_true] at hfill
            rcases hfill with he | he
            · rw [eq_of_beq he] at hne
              cases hne
            · rw [eq_of_beq he]
      · exact absurd (List.cons.inj hparts).1 (partOf_ne_here first)

/-- Dots lead to where they start. -/
theorem place_of_walks_dots {t : FileTree} {place : Key} {pl : FileTree.Place} {n : Nat} {ns : List String}
    (hn : ∀ n ∈ ns, n = ".") (h : Walks t true n place ns pl) : pl = .present place .directory := by
  have hscan : ∀ {ns : List String} {s : Stop}, (∀ n ∈ ns, n = ".") → Scans t true place ns s →
      s = .place (.present place .directory) := by
    intro ns s hn h
    induction ns with
    | nil =>
      cases h
      rfl
    | cons x rest ih =>
      obtain ⟨rfl, hrest⟩ := List.forall_mem_cons.mp hn
      exact ih hrest (scans_here.mp h)
  cases h with
  | place h =>
    cases hscan hn h
    rfl
  | link h => cases hscan hn h

/-! ## Settled roots -/

theorem names_of_join {cwd : Key} (hcwd : ∀ n ∈ cwd, IsEntryName n.toList)
    (hj : (pathOf cwd).join p = pathOf home) (hh : ∀ n ∈ home, IsEntryName n.toList) :
    startOf cwd p.text.toList ++ pathNames p.text.toList = home := by
  have hstep : ∀ {k : Key}, (∀ n ∈ k, IsEntryName n.toList) → pathNames (pathOf k).text.toList = k :=
    fun hk => pathNames_pathOf fun n hn => isStep_of_isEntryName (hk n hn)
  by_cases ha : p.isAbsolute = true
  · rw [join, if_pos ha] at hj
    rw [show startOf cwd p.text.toList = [] from if_pos ha, hj, hstep hh]
    rfl
  · rw [show startOf cwd p.text.toList = cwd from if_neg ha, ← hstep hh, ← hj,
      pathNames_join _ (by simpa using ha), hstep hcwd]

theorem absolutePath_of_stat (hs : h.files.stat h.cwd ⟨output⟩ = .ok (home, .directory)) :
    absolutePath h output = pathOf home := by
  unfold absolutePath
  dsimp only
  split
  · next hdots =>
    obtain ⟨hrel, -, hall⟩ := dots_of_same hdots
    obtain ⟨-, n, -, hw⟩ := stat_directory_iff.mp hs
    cases place_of_walks_dots hall hw
    exact congrArg pathOf (if_neg (Bool.not_eq_true _ ▸ hrel)).symm
  · unfold canonical
    rw [hs]
    rfl

/-- The absolute path of a file that is there is its canonical path. -/
theorem absolutePath_of_file {text : String} {key : Key} {body : Body} {x : Bool}
    (hs : h.files.stat h.cwd ⟨text⟩ = .ok (key, .file body x)) : absolutePath h text = pathOf key := by
  unfold absolutePath
  dsimp only
  split
  · next hdots =>
    obtain ⟨-, -, hall⟩ := dots_of_same hdots
    obtain ⟨-, n, -, hw⟩ := resolve_iff.mp (stat_eq hs)
    have hwalk : ∀ m ∈ walkNames text.toList, m = "." := by
      intro m hm
      rcases walkNames_eq text.toList with he | he
      · exact hall m (he ▸ hm)
      · rw [he] at hm
        rcases List.mem_append.mp hm with hm | hm
        · exact hall m hm
        · exact List.mem_singleton.mp hm
    cases place_of_walks_dots hwalk hw
  · unfold canonical
    rw [hs]
    rfl

theorem absolutePath_of_join (hcwd : ∀ n ∈ h.cwd, IsEntryName n.toList)
    (hh : ∀ n ∈ home, IsEntryName n.toList) (hc : h.files.ClearTo home)
    (hj : h.cwdPath.join ⟨output⟩ = pathOf home) : absolutePath h output = pathOf home := by
  have hnames := names_of_join hcwd hj hh
  have hentry : ∀ n ∈ pathNames output.toList, IsEntryName n.toList :=
    fun n hn => hh n (hnames ▸ List.mem_append_right _ hn)
  unfold absolutePath
  dsimp only
  split
  · next hdots => exact absurd rfl (hentry "." (dots_of_same hdots).2.1).2.2.1
  · unfold canonical
    cases hs : h.files.stat h.cwd ⟨output⟩ with
    | error e => exact hj
    | ok found =>
      obtain ⟨key, e⟩ := found
      have hkey := key_of_resolve (hnames.symm ▸ hc) hentry (stat_eq hs)
      exact congrArg pathOf (hkey.trans hnames)

/-- **A settled root keeps its path.**  While only what lies in the directory changes, the absolute path
of the argument is the canonical path of the directory, also before that is made. -/
theorem absolutePath_of_settles (hcwd : ∀ n ∈ start.cwd, IsEntryName n.toList)
    (hc : start.ClearAt home) (hs : Settles start output home)
    (hch : ChangesFiles (isBelow home · = true) start h) : absolutePath h output = pathOf home := by
  rcases hs with hj | hs
  · rw [Host.cwdPath, ← hch.cwd] at hj
    exact absolutePath_of_join (hch.cwd ▸ hcwd) hc.names (hc.clearTo.of_sameLinks hch.files.links) hj
  · refine absolutePath_of_stat ?_
    rw [hch.cwd]
    exact stat_of_emptied hch.files hs

/-- A settled argument leads to the directory once that is there. -/
theorem leads_of_settles (hcwd : ∀ n ∈ start.cwd, IsEntryName n.toList) (hs : Settles start output home)
    (hch : ChangesFiles (isBelow home · = true) start h) (hk : h.files.Reached home) :
    Leads h.files h.cwd ⟨output⟩ home := by
  rcases hs with hj | hs
  · have hnames := names_of_join hcwd hj fun n hn => (hk.names n hn).entry
    have hscans := Reached.scans (f := true) (hnames.symm ▸ hk)
    rw [hnames] at hscans
    rw [hch.cwd]
    exact ⟨0, Nat.zero_le _, .place hscans⟩
  · rw [hch.cwd]
    exact (stat_directory_iff.mp (stat_of_emptied hch.files hs)).2

/-! ## Roots that are there -/

/-- A path stands for a directory: it leads there, and goes on as the path of its key does. -/
structure StandsFor (t : FileTree) (cwd : Key) (root : Path) (home : Key) : Prop where
  leads : Leads t cwd root home
  zeroFree : ZeroFree root.text
  child : ∀ n, IsStep n → root.child n = pathOf (home ++ [n])

theorem standsFor_pathOf {t : FileTree} (hk : t.Reached home) (cwd : Key) : StandsFor t cwd (pathOf home) home where
  leads := hk.leads cwd
  zeroFree := zeroFree_pathOf.mpr fun n hn => (hk.names n hn).zeroFree
  child _ hn := child_pathOf hk.isStep hn

/-- **The absolute path of an argument that leads to a directory stands for this directory.** -/
theorem standsFor_absolutePath (hz : Path.same ⟨output⟩ ⟨"."⟩ = false → ZeroFree output)
    (hhome : h.files.Reached home) (hl : Leads h.files h.cwd ⟨output⟩ home) :
    StandsFor h.files h.cwd (absolutePath h output) home := by
  have hstands := standsFor_pathOf hhome h.cwd
  by_cases hempty : output = ""
  · -- no name at all: the working directory with a separator behind it
    subst hempty
    obtain ⟨m, -, hw⟩ := hl
    obtain rfl : home = h.cwd := by
      cases place_of_walks_dots (List.forall_mem_nil _) hw
      rfl
    have hpath : absolutePath h "" = (pathOf h.cwd).child "" := rfl
    rw [hpath]
    refine ⟨Leads.child_empty.mpr hstands.leads, ?_, fun n hn => ?_⟩
    · obtain ⟨seps, hseps, htext, -⟩ := toList_child_empty (pathOf h.cwd)
      unfold ZeroFree
      rw [htext]
      exact zeroFree_append.mpr ⟨hstands.zeroFree, List.any_eq_false.mpr fun c hc => by rw [hseps c hc]; decide⟩
    · rw [child_child_empty _ hn, hstands.child n hn]
  · by_cases hdots : Path.same ⟨output⟩ ⟨"."⟩ = true
    · obtain ⟨hrel, -, hall⟩ := dots_of_same hdots
      obtain ⟨m, -, hw⟩ := hl
      have hcwd' : startOf h.cwd output.toList = h.cwd := if_neg (Bool.not_eq_true _ ▸ hrel)
      have hkey := place_of_walks_dots hall hw
      rw [hcwd'] at hkey
      cases hkey
      have hpath : absolutePath h output = pathOf h.cwd := by
        unfold absolutePath
        dsimp only
        rw [if_pos hdots]
        rfl
      rw [hpath]
      exact hstands
    · rw [absolutePath_of_stat (stat_directory_iff.mpr
        ⟨⟨hz (by simpa using hdots), fun hnil => hempty (String.toList_eq_nil_iff.mp hnil)⟩, hl⟩)]
      exact hstands

/-- An argument whose absolute path can be one is free of zeros, unless it is made of dots. -/
theorem zeroFree_of_absolutePath (hz : ZeroFree (absolutePath h output).text)
    (hdots : Path.same ⟨output⟩ ⟨"."⟩ = false) : ZeroFree output := by
  unfold absolutePath at hz
  dsimp only at hz
  rw [hdots] at hz
  cases hs : h.files.stat h.cwd ⟨output⟩ with
  | ok found => exact (resolve_iff.mp (stat_eq hs)).1.1
  | error e =>
    have hjoin : ZeroFree (h.cwdPath.join ⟨output⟩).text := by
      unfold canonical at hz
      rw [hs] at hz
      exact hz
    have hlast : ∀ text : String, ZeroFree (text ++ output) → ZeroFree output := fun text h => by
      unfold ZeroFree at h
      rw [String.toList_append] at h
      exact (zeroFree_append.mp h).2
    unfold join at hjoin
    split at hjoin
    · exact hjoin
    · split at hjoin
      · exact hlast _ hjoin
      · exact hlast _ hjoin

end CipherCorpus.Command
