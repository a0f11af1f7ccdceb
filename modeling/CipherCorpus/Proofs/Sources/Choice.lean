import CipherCorpus.Proofs.FileTree.Outside
import CipherCorpus.Proofs.Sources.Search
import Mathlib.Data.List.Lex
import Mathlib.Data.Prod.Lex
import Mathlib.Data.String.Basic

/-!
# The source of a function in two trees

The order of paths is a linear order of their parts (`before_iff`), so the first of some files is said by
which files there are, and not by the order in which they are listed (`least_eq_some_iff`).  The source of a
function therefore depends on what lies below the directory alone:

    (∀ x, t.get? (k ++ x) = s.get? (k ++ x)) → find? t cwd p f = find? s cwd p f       (find?_congr)
-/

namespace CipherCorpus

open CipherCorpus.Path

/-! ## The order of paths -/

/-- A part as a rank and a name. -/
def PathPart.place : PathPart → ℕ ×ₗ String
  | root => toLex (0, "")
  | here => toLex (1, "")
  | up => toLex (2, "")
  | name s => toLex (3, s)

theorem PathPart.place_injective : Function.Injective PathPart.place := by
  intro a b h
  cases a <;> cases b <;> simp_all [place]

theorem PathPart.before_iff (a b : PathPart) : a.before b = true ↔ a.place < b.place := by
  cases a <;> cases b <;> simp [before, rank, place, Prod.Lex.toLex_lt_toLex]

namespace Path

/-- The parts of a path by rank and name. -/
def places (p : Path) : List (ℕ ×ₗ String) := p.parts.map PathPart.place

theorem partsBefore_iff : ∀ as bs : List PathPart,
    partsBefore as bs = true ↔ as.map PathPart.place < bs.map PathPart.place := by
  intro as
  induction as with
  | nil => intro bs; cases bs <;> simp [partsBefore]
  | cons a as ih =>
    intro bs
    cases bs with
    | nil => simp [partsBefore]
    | cons b bs =>
      rw [partsBefore, Bool.or_eq_true, Bool.and_eq_true, beq_iff_eq, PathPart.before_iff, ih,
        List.map_cons, List.map_cons, List.cons_lt_cons_iff, PathPart.place_injective.eq_iff]

/-- The order of paths is that of their parts. -/
theorem before_iff (p q : Path) : p.before q = true ↔ p.places < q.places := partsBefore_iff _ _

theorem places_eq_iff {p q : Path} : p.places = q.places ↔ p.parts = q.parts :=
  PathPart.place_injective.list_map.eq_iff

end Path

namespace Sources

/-! ## The first of some files -/

theorem least_le {ps : List Path} {p q : Path} (h : least ps = some p) (hq : q ∈ ps) :
    p.places ≤ q.places := by
  have hfold : ∀ (rest : List Path) (best : Path),
      (rest.foldl (fun best q => if q.before best then q else best) best).places ≤ best.places ∧
      ∀ q ∈ rest, (rest.foldl (fun best q => if q.before best then q else best) best).places ≤ q.places := by
    intro rest
    induction rest with
    | nil => exact fun best => ⟨le_refl _, fun _ hq => nomatch hq⟩
    | cons r rest ih =>
      intro best
      rw [List.foldl_cons]
      obtain ⟨hbest, hrest⟩ := ih (if r.before best then r else best)
      by_cases hr : r.before best = true
      · rw [if_pos hr] at hbest hrest ⊢
        exact ⟨hbest.trans ((before_iff _ _).mp hr).le, List.forall_mem_cons.mpr ⟨hbest, hrest⟩⟩
      · rw [if_neg hr] at hbest hrest ⊢
        exact ⟨hbest, List.forall_mem_cons.mpr
          ⟨hbest.trans (not_lt.mp fun hlt => hr ((before_iff _ _).mpr hlt)), hrest⟩⟩
  cases ps with
  | nil => cases hq
  | cons r rest =>
    obtain rfl := Option.some.inj h
    rcases List.mem_cons.mp hq with rfl | hq
    · exact (hfold rest q).1
    · exact (hfold rest r).2 q hq

/-- The first of some files with different parts is the one before all others. -/
theorem least_eq_some_iff {ps : List Path} {p : Path}
    (hparts : ∀ p ∈ ps, ∀ q ∈ ps, p.parts = q.parts → p = q) :
    least ps = some p ↔ p ∈ ps ∧ ∀ q ∈ ps, p.places ≤ q.places := by
  refine ⟨fun h => ⟨least_mem h, fun q => least_le h⟩, fun ⟨hp, hmin⟩ => ?_⟩
  cases hl : least ps with
  | none =>
    cases ps with
    | nil => cases hp
    | cons q rest => cases hl
  | some b =>
    have he := le_antisymm (least_le hl hp) (hmin b (least_mem hl))
    rw [hparts b (least_mem hl) p hp (places_eq_iff.mp he)]

/-- Which file is chosen does not depend on the order in which the files are listed. -/
theorem choose_congr {ps qs : List Path} (hmem : ∀ p, p ∈ qs ↔ p ∈ ps)
    (hparts : ∀ p ∈ ps, ∀ q ∈ ps, p.parts = q.parts → p = q) (function : String) :
    choose qs function = choose ps function := by
  unfold choose
  congr 1
  funext accepts
  have hps : ∀ p ∈ ps.filter (nameMatches accepts), ∀ q ∈ ps.filter (nameMatches accepts),
      p.parts = q.parts → p = q := fun p hp q hq =>
    hparts p (List.mem_filter.mp hp).1 q (List.mem_filter.mp hq).1
  have hmem' : ∀ p, p ∈ qs.filter (nameMatches accepts) ↔ p ∈ ps.filter (nameMatches accepts) := fun p => by
    rw [List.mem_filter, List.mem_filter, hmem]
  ext p
  rw [least_eq_some_iff hps, least_eq_some_iff fun p hp q hq => hps p ((hmem' p).mp hp) q ((hmem' q).mp hq)]
  simp only [hmem']

end Sources

/-! ## The files below a directory -/

namespace FileTree

open Archive (under)

variable {s t : FileTree} {cwd k : Key} {root : Path}

/-- An entry of the list is found under its key. -/
theorem WellFormed.get?_of_mem (h : t.WellFormed) {e : Key × Entry} (he : e ∈ t.entries) (hne : e.1 ≠ []) :
    t.get? e.1 = some e.2 := by
  unfold get?
  rw [if_neg hne, List.lookup_eq_some_iff]
  obtain ⟨before, after, hlist⟩ := List.append_of_mem he
  refine ⟨before, after, hlist, fun x hx => ?_⟩
  have hnodup := h.nodup
  rw [hlist, List.map_append, List.map_cons] at hnodup
  have hnot := (List.nodup_append.mp hnodup).2.2 x.1 (List.mem_map_of_mem hx) e.1 List.mem_cons_self
  simpa using Ne.symm hnot

theorem mem_below_iff (h : t.WellFormed) {x : Key} {e : Entry} (hx : x ≠ []) :
    (k ++ x, e) ∈ t.below k ↔ t.get? (k ++ x) = some e := by
  have hne : k ++ x ≠ [] := by simp [hx]
  unfold below
  rw [List.mem_filter, and_iff_left (isBelow_append hx)]
  exact ⟨fun hm => h.get?_of_mem hm hne, fun hg => mem_entries_of_get? hg hne⟩

/-- The paths of the files below a key, by the names that lead to them. -/
theorem mem_filesBelow_iff (h : t.WellFormed) {p : Path} :
    p ∈ ((t.below k).filter (·.2.isFile)).map (fun e => (e.1.drop k.length).foldl Path.child root) ↔
      ∃ x, x ≠ [] ∧ (∃ body mode, t.get? (k ++ x) = some (.file body mode)) ∧ p = under root x := by
  rw [List.mem_map]
  constructor
  · rintro ⟨⟨key, e⟩, he, rfl⟩
    obtain ⟨hbelow, hfile⟩ := List.mem_filter.mp he
    obtain ⟨x, hx, rfl⟩ := isBelow_iff.mp (List.mem_filter.mp hbelow).2
    cases e with
    | file body mode =>
      exact ⟨x, hx, ⟨body, mode, (mem_below_iff h hx).mp hbelow⟩, by rw [List.drop_left]; rfl⟩
    | directory => cases hfile
    | link target => cases hfile
  · rintro ⟨x, hne, ⟨body, mode, hx⟩, rfl⟩
    refine ⟨(k ++ x, .file body mode), List.mem_filter.mpr ⟨(mem_below_iff h hne).mpr hx, rfl⟩, ?_⟩
    dsimp only
    rw [List.drop_left]
    rfl

/-- The regular files at or below a path that is no link, by their names from there. -/
theorem mem_regularFiles_iff (h : t.WellFormed) {top : Entry} (hk : t.linkStat cwd root = .ok (k, top))
    (hg : t.get? k = some top) (htop : ∀ target, top ≠ .link target) {p : Path} :
    p ∈ t.regularFiles cwd root ↔
      ∃ x body mode, t.get? (k ++ x) = some (.file body mode) ∧ p = under root x := by
  unfold regularFiles
  rw [hk]
  cases top with
  | directory =>
    dsimp only
    rw [mem_filesBelow_iff h]
    constructor
    · rintro ⟨x, -, ⟨body, mode, hx⟩, rfl⟩
      exact ⟨x, body, mode, hx, rfl⟩
    · rintro ⟨x, body, mode, hx, rfl⟩
      refine ⟨x, ?_, ⟨body, mode, hx⟩, rfl⟩
      rintro rfl
      rw [List.append_nil] at hx
      cases hg.symm.trans hx
  | file body mode =>
    rw [List.mem_singleton]
    constructor
    · rintro rfl
      exact ⟨[], body, mode, by rw [List.append_nil]; exact hg, rfl⟩
    · rintro ⟨x, body', mode', hx, rfl⟩
      have hnil : x = [] := by
        by_contra hne
        cases hx.symm.trans (h.get?_append (by rw [hg]; simp) hne)
      rw [hnil]
      rfl
  | link target => exact absurd rfl (htop target)

/-- A file below a name in a directory is found by its names. -/
theorem WellFormed.stat_under (h : t.WellFormed) {x : Key} {body : Body} {mode : Bool} :
    ∀ {root : Path} {d : Key} {n : String}, ZeroFree root.text → Leads t cwd root d →
      t.get? (d ++ n :: x) = some (.file body mode) →
      t.stat cwd (under (root.child n) x) = .ok (d ++ n :: x, .file body mode) := by
  induction x with
  | nil =>
    intro root d n hzero hl hg
    have hfit : IsFileName n := h.name d n (by rw [hg]; simp)
    exact (stat_child_iff hl hfit.entry (by rw [hg]; exact nofun)).mpr ⟨⟨hzero, hfit⟩, rfl, hg⟩
  | cons m rest ih =>
    intro root d n hzero hl hg
    rw [List.append_cons] at hg ⊢
    have hd : t.get? (d ++ [n]) = some .directory := by
      by_contra hd
      cases hg.symm.trans (h.get?_append hd (by simp))
    have hfit : IsFileName n := h.name d n (by rw [hd]; simp)
    exact ih ((zeroFree_child hfit.entry).mpr ⟨hzero, hfit.zeroFree⟩) (hl.child hfit hd) hg

end FileTree

namespace Path

open Archive (under)

theorem lead_child (p : Path) {n : String} (hn : IsEntryName n.toList) :
    (p.child n).lead = (p.child n).text.toList ++ ['/'] := by
  have htext := p.toList_child (head?_ne_of_notMem hn.1)
  unfold lead
  rw [if_neg]
  rw [Bool.or_eq_true, not_or]
  refine ⟨fun he => ?_, fun he => ?_⟩
  · rw [String.isEmpty_iff.mp he] at htext
    exact hn.2.1 (List.append_eq_nil_iff.mp htext.symm).2
  · rw [htext, List.getLast?_append_of_ne_nil _ hn.2.1, beq_iff_eq] at he
    exact hn.1 (List.mem_of_mem_getLast? he)

/-- The parts of a path go on with a name behind a separator. -/
theorem parts_append_sep {l n : List Char} (hl : l ≠ []) (hn : IsEntryName n) :
    parts ⟨String.ofList (l ++ '/' :: n)⟩ = parts ⟨String.ofList l⟩ ++ [.name (String.ofList n)] := by
  obtain ⟨hsep, h0, h1, h2⟩ := hn
  obtain ⟨first, rest, hs⟩ := List.exists_cons_of_ne_nil (Text.splitOn_ne_nil '/' l)
  have hpart : partOf n = .name (String.ofList n) := by simp [partOf, h2]
  have hhead : (l ++ '/' :: n).head? = l.head? := List.head?_append_of_ne_nil _ hl
  have htail : ((rest ++ [n]).filter (!isFiller ·)).map partOf =
      (rest.filter (!isFiller ·)).map partOf ++ [.name (String.ofList n)] := by
    rw [List.filter_append, List.map_append]
    simp [isFiller, h0, h1, hpart]
  unfold parts pieces isAbsolute
  rw [String.toList_ofList, String.toList_ofList, Text.splitOn_append_sep, Text.splitOn_of_notMem hsep, hs, hhead,
    List.cons_append]
  simp only [htail]
  split
  · rfl
  · split
    · rfl
    · split <;> rfl

/-- The parts of a child of a child go on with its name. -/
theorem parts_child_child (p : Path) {m n : String} (hm : IsEntryName m.toList) (hn : IsEntryName n.toList) :
    ((p.child m).child n).parts = (p.child m).parts ++ [.name n] := by
  have hne : (p.child m).text.toList ≠ [] := FileTree.toList_child_ne_nil p hm
  have htext := (p.child m).toList_child (head?_ne_of_notMem hn.1)
  rw [lead_child p hm, List.append_assoc, List.singleton_append] at htext
  have hparts := parts_append_sep hne hn
  rw [← htext, String.ofList_toList, String.ofList_toList, String.ofList_toList] at hparts
  exact hparts

theorem parts_under {x : List String} : ∀ {p : Path} {m : String}, IsEntryName m.toList →
    (∀ n ∈ x, IsEntryName n.toList) → (under (p.child m) x).parts = (p.child m).parts ++ x.map .name := by
  induction x with
  | nil => simp
  | cons n rest ih =>
    intro p m hm hx
    obtain ⟨hn, hrest⟩ := List.forall_mem_cons.mp hx
    rw [FileTree.under_cons, ih hn hrest, parts_child_child p hm hn, List.map_cons, List.append_assoc]
    rfl

/-- Paths under a path go on from the same parts. -/
theorem exists_parts_under (p : Path) : ∃ ps, ∀ {x : List String}, x ≠ [] →
    (∀ n ∈ x, IsEntryName n.toList) → (under p x).parts = ps ++ x.map .name := by
  obtain ⟨ps, hps⟩ := parts_of_lead p.lead_eq_nil_or
  refine ⟨ps, fun {x} hne hx => ?_⟩
  obtain ⟨n, rest, rfl⟩ := List.exists_cons_of_ne_nil hne
  obtain ⟨hn, hrest⟩ := List.forall_mem_cons.mp hx
  have hchild : (p.child n).parts = ps ++ [.name n] := by
    have htext := p.toList_child (head?_ne_of_notMem hn.1)
    have hpart := hps n.toList hn.1 (by simp [isFiller, hn.2.1, hn.2.2.1])
    rw [← htext, String.ofList_toList] at hpart
    refine hpart.trans ?_
    simp [partOf, hn.2.2.2]
  rw [FileTree.under_cons, parts_under hn hrest, hchild, List.append_assoc]
  rfl

/-- Paths under a path of different names have different parts. -/
theorem eq_of_parts_under {p : Path} {x y : List String} (hx : ∀ n ∈ x, IsEntryName n.toList)
    (hy : ∀ n ∈ y, IsEntryName n.toList) (hx0 : x ≠ []) (hy0 : y ≠ [])
    (h : (under p x).parts = (under p y).parts) : x = y := by
  obtain ⟨ps, hps⟩ := exists_parts_under p
  rw [hps hx0 hx, hps hy0 hy, List.append_cancel_left_eq] at h
  exact (List.map_injective_iff.mpr fun a b hab => PathPart.name.inj hab) h

end Path

/-! ## Main result -/

section

open FileTree

/-- **The source of a function depends on what lies at and below the directory.** -/
theorem Sources.find?_congr {s t : FileTree} {cwd cwd' k : Key} {p : Path} {top : Entry} (hs : s.WellFormed)
    (ht : t.WellFormed) (hk : s.linkStat cwd p = .ok (k, top)) (hk' : t.linkStat cwd' p = .ok (k, top))
    (htop : ∀ target, top ≠ .link target) (hg : s.get? k = some top)
    (hsame : ∀ x, t.get? (k ++ x) = s.get? (k ++ x)) (function : String) :
    find? t cwd' p function = find? s cwd p function := by
  have hgt : t.get? k = some top := by
    have hk := hsame []
    rw [List.append_nil] at hk
    exact hk.trans hg
  refine choose_congr (fun q => ?_) (fun q hq q' hq' he => ?_) function
  · rw [mem_regularFiles_iff ht hk' hgt htop, mem_regularFiles_iff hs hk hg htop]
    simp only [hsame]
  · obtain ⟨x, body, mode, hx, rfl⟩ := (mem_regularFiles_iff hs hk hg htop).mp hq
    obtain ⟨y, body', mode', hy, rfl⟩ := (mem_regularFiles_iff hs hk hg htop).mp hq'
    have hnames : ∀ {z : Key} {e : Entry}, s.get? (k ++ z) = some e → ∀ n ∈ z, IsEntryName n.toList :=
      fun hz n hn => (hs.isFileName_of_mem (by rw [hz]; simp) n (List.mem_append_right _ hn)).entry
    -- a file has nothing below it
    have hempty : ∀ {z z' : Key} {b m e}, s.get? (k ++ z) = some (.file b m) → s.get? (k ++ z') = some e →
        z = [] → z' = [] := by
      rintro z z' b m e hz hz' rfl
      by_contra hne
      rw [List.append_nil] at hz
      cases hz'.symm.trans (hs.get?_append (by rw [hz]; simp) hne)
    by_cases hnil : x = []
    · rw [hnil, hempty hx hy hnil]
    · rw [eq_of_parts_under (hnames hx) (hnames hy) hnil (fun h => hnil (hempty hy hx h)) he]

end

end CipherCorpus
