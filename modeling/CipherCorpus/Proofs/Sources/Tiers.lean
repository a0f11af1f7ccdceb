import CipherCorpus.Proofs.FileTree.Answers
import CipherCorpus.Proofs.Sources.Choice

/-!
# The source of a function, tier by tier

A file below a directory is in a tier by its own name, the last of the names that lead to it.  The source
of a function is the first file of the first tier that has one, compared name by name, and there is none
when no tier has a file (`find?_eq_first_of_tiers`).  So neither the order in which the files are listed
nor a file that is in no tier changes the answer.
-/

namespace CipherCorpus

open FileTree CipherCorpus.Path
open Archive (under)

variable {t : FileTree} {cwd top : Key} {root : Path}

/-! ## The order of paths under one path -/

namespace Path

/-- Paths under a path are in the order of the names that lead to them. -/
theorem places_under_le_iff {p : Path} {x y : List String} (hx0 : x ≠ []) (hy0 : y ≠ [])
    (hx : ∀ n ∈ x, IsEntryName n.toList) (hy : ∀ n ∈ y, IsEntryName n.toList) :
    (under p x).places ≤ (under p y).places ↔ x ≤ y := by
  obtain ⟨ps, hps⟩ := exists_parts_under p
  have hmono : StrictMono fun z : List String => (ps ++ z.map PathPart.name).map PathPart.place := by
    intro z w h
    dsimp only
    rw [List.map_append, List.map_append, List.map_map, List.map_map]
    refine List.append_left_lt (List.map_lt (fun a b hab => ?_) h)
    simpa [PathPart.place, Prod.Lex.toLex_lt_toLex] using hab
  unfold places
  rw [hps hx0 hx, hps hy0 hy]
  exact hmono.le_iff_le

end Path

/-! ## The files below a directory -/

namespace FileTree

/-- What a path leads to when its last link is not followed: the same entry, or a link. -/
theorem linkStat_of_stat {key : Key} {e : Entry} (h : t.stat cwd root = .ok (key, e)) :
    t.linkStat cwd root = .ok (key, e) ∨ ∃ j target, t.linkStat cwd root = .ok (j, .link target) := by
  have hwalks : ∀ {m : Nat} {place : Key} {xs : List String} {pl : Place}, Walks t true m place xs pl →
      Walks t false m place xs pl ∨
        ∃ m' ≤ m, ∃ j target, Walks t false m' place xs (.present j (.link target)) := by
    intro m place xs pl hw
    induction hw with
    | place hs =>
      rcases hs.unfollow with hs | ⟨j, target, hs⟩
      · exact Or.inl (.place hs)
      · exact Or.inr ⟨0, Nat.le_refl 0, j, target, .place hs⟩
    | link hs _ ih =>
      rcases hs.unfollow with hs | ⟨j, target, hs⟩
      · exact ih.imp (.link hs) fun ⟨m', hm, j, target, hw⟩ =>
          ⟨m' + 1, Nat.succ_le_succ hm, j, target, .link hs hw⟩
      · exact Or.inr ⟨0, Nat.zero_le _, j, target, .place hs⟩
  obtain ⟨htext, m, hm, hw⟩ := resolve_iff.mp (stat_iff.mp h)
  rcases hwalks hw with hw | ⟨m', hm', j, target, hw⟩
  · exact Or.inl (linkStat_iff.mpr (resolve_iff.mpr ⟨htext, m, hm, hw⟩))
  · exact Or.inr ⟨j, target, linkStat_iff.mpr (resolve_iff.mpr ⟨htext, m', hm'.trans hm, hw⟩)⟩

/-- The regular files below a directory, by the names that lead to them. -/
theorem mem_regularFiles_of_stat (h : t.WellFormed) (hd : t.stat cwd root = .ok (top, .directory))
    {p : Path} : p ∈ t.regularFiles cwd root ↔
      ∃ x, x ≠ [] ∧ (∃ body mode, t.get? (top ++ x) = some (.file body mode)) ∧ p = under root x := by
  have hfiles : t.regularFiles cwd root = ((t.below top).filter (·.2.isFile)).map fun e =>
      (e.1.drop top.length).foldl Path.child root := by
    unfold regularFiles
    rcases linkStat_of_stat hd with hl | ⟨j, target, hl⟩
    · rw [hl]
    · rw [hl]
      dsimp only
      rw [hd]
  rw [hfiles, mem_filesBelow_iff h]

/-- The names that lead to a file are names of entries. -/
theorem WellFormed.entryNames_of_file (h : t.WellFormed) {x : List String}
    (hx : ∃ body mode, t.get? (top ++ x) = some (.file body mode)) : ∀ n ∈ x, IsEntryName n.toList := by
  obtain ⟨body, mode, hx⟩ := hx
  exact fun n hn => (h.isFileName_of_mem (by rw [hx]; simp) n (List.mem_append_right _ hn)).entry

end FileTree

/-! ## The tiers -/

namespace Sources

/-- The tiers of the search. -/
inductive Tier where
  /-- Named as the function, with `.c`. -/
  | exactC
  /-- Named as the function, with `.cpp`. -/
  | exactCpp
  /-- A `.c` file whose name holds that of the function. -/
  | anyC
  /-- A `.cpp` file whose name holds that of the function. -/
  | anyCpp

namespace Tier

/-- A tier of a lower rank is searched first. -/
def rank : Tier → ℕ
  | exactC => 0
  | exactCpp => 1
  | anyC => 2
  | anyCpp => 3

/-- The name of a file is in the tier. -/
def Holds (function name : List Char) : Tier → Prop
  | exactC => name = function ++ ".c".toList
  | exactCpp => name = function ++ ".cpp".toList
  | anyC => function <:+: name ∧ ".c".toList <:+ name
  | anyCpp => function <:+: name ∧ ".cpp".toList <:+ name

/-- All tiers, as they are searched. -/
def all : List Tier := [exactC, exactCpp, anyC, anyCpp]

/-- What a file name is tested for. -/
def test (function : List Char) (tier : Tier) : List Char → Bool :=
  match tier with
  | exactC => fun name => name == function ++ ".c".toList
  | exactCpp => fun name => name == function ++ ".cpp".toList
  | anyC => fun name => Text.occursIn function name && ".c".toList.isSuffixOf name
  | anyCpp => fun name => Text.occursIn function name && ".cpp".toList.isSuffixOf name

theorem test_iff {function name : List Char} {tier : Tier} :
    tier.test function name = true ↔ tier.Holds function name := by
  have hocc : Text.occursIn function name = true ↔ function <:+: name := by
    rw [Text.occursIn_iff]
    exact ⟨fun ⟨a, b, h⟩ => ⟨a, b, by rw [h, List.append_assoc]⟩, fun ⟨a, b, h⟩ => ⟨a, b, by rw [← h, List.append_assoc]⟩⟩
  cases tier <;> simp [test, Holds, hocc]

theorem tiers_eq (function : List Char) : tiers function = all.map (test function) := rfl

theorem mem_all (tier : Tier) : tier ∈ all := by
  cases tier <;> simp [all]

/-- The tiers in front of one are those of a lower rank. -/
theorem mem_of_all_eq {before after : List Tier} {tier other : Tier} (h : all = before ++ tier :: after) :
    other ∈ before ↔ other.rank < tier.rank := by
  have hsorted : all.Pairwise fun a b => a.rank < b.rank := by simp [all, rank]
  rw [h, List.pairwise_append, List.pairwise_cons] at hsorted
  obtain ⟨-, ⟨hafter, -⟩, hbefore⟩ := hsorted
  refine ⟨fun hm => hbefore other hm tier List.mem_cons_self, fun hlt => ?_⟩
  have hall := h ▸ mem_all other
  rcases List.mem_append.mp hall with hm | hm
  · exact hm
  · rcases List.mem_cons.mp hm with rfl | hm
    · exact absurd hlt (Nat.lt_irrefl _)
    · exact absurd (hafter other hm) (Nat.not_lt.mpr hlt.le)

end Tier

theorem least_eq_none_iff {ps : List Path} : least ps = none ↔ ps = [] := by
  cases ps <;> simp [least]

/-- No file is chosen when none is in a tier. -/
theorem choose_eq_none_iff {files : List Path} {function : String} : choose files function = none ↔
    ∀ tier : Tier, ∀ p ∈ files, nameMatches (tier.test function.toList) p = false := by
  unfold choose
  rw [Tier.tiers_eq, List.findSome?_map, List.findSome?_eq_none_iff]
  simp only [Function.comp_apply, least_eq_none_iff, List.filter_eq_nil_iff, Bool.not_eq_true, Tier.mem_all,
    true_implies]

/-- The file that is chosen is the least one in the first tier that has a file. -/
theorem choose_eq_some_iff_tier {files : List Path} {function : String} {p : Path} :
    choose files function = some p ↔ ∃ tier : Tier,
      least (files.filter (nameMatches (tier.test function.toList))) = some p ∧
      ∀ earlier : Tier, earlier.rank < tier.rank → ∀ q ∈ files,
        nameMatches (earlier.test function.toList) q = false := by
  unfold choose
  rw [Tier.tiers_eq, List.findSome?_map, List.findSome?_eq_some_iff]
  simp only [Function.comp_apply, least_eq_none_iff, List.filter_eq_nil_iff, Bool.not_eq_true]
  constructor
  · rintro ⟨before, tier, after, hall, hleast, hnone⟩
    exact ⟨tier, hleast, fun earlier hlt => hnone earlier ((Tier.mem_of_all_eq hall).mpr hlt)⟩
  · rintro ⟨tier, hleast, hnone⟩
    obtain ⟨before, after, hall⟩ := List.append_of_mem tier.mem_all
    exact ⟨before, tier, after, hall, hleast, fun earlier hm => hnone earlier ((Tier.mem_of_all_eq hall).mp hm)⟩

/-! ## Main result -/

/-- The names from a directory to a regular file whose own name is in a tier. -/
def Candidate (t : FileTree) (top : Key) (function : String) (tier : Tier) (x : List String) : Prop :=
  (∃ body mode, t.get? (top ++ x) = some (.file body mode)) ∧
    ∃ name, x.getLast? = some name ∧ tier.Holds function.toList name.toList

theorem Candidate.ne_nil {function : String} {tier : Tier} {x : List String}
    (h : Candidate t top function tier x) : x ≠ [] := by
  obtain ⟨-, name, hname, -⟩ := h
  rintro rfl
  cases hname

theorem nameMatches_under {x : List String} {function : String} {tier : Tier} (hx0 : x ≠ [])
    (hx : ∀ n ∈ x, IsEntryName n.toList) : nameMatches (tier.test function.toList) (under root x) = true ↔
      ∃ name, x.getLast? = some name ∧ tier.Holds function.toList name.toList := by
  obtain ⟨y, n, rfl⟩ := (List.eq_nil_or_concat' x).resolve_left hx0
  have hunder : under root (y ++ [n]) = (under root y).child n := List.foldl_append
  unfold nameMatches
  rw [hunder, fileName?_child _ (hx n (by simp)), Option.any_some, Tier.test_iff, List.getLast?_concat]
  simp

/-- The files of a tier are the paths under the directory of the candidates. -/
theorem mem_filter_regularFiles (h : t.WellFormed) (hd : t.stat cwd root = .ok (top, .directory))
    {function : String} {tier : Tier} {p : Path} :
    p ∈ (t.regularFiles cwd root).filter (nameMatches (tier.test function.toList)) ↔
      ∃ x, Candidate t top function tier x ∧ p = under root x := by
  rw [List.mem_filter, mem_regularFiles_of_stat h hd]
  constructor
  · rintro ⟨⟨x, hx0, hfile, rfl⟩, hm⟩
    exact ⟨x, ⟨hfile, (nameMatches_under hx0 (h.entryNames_of_file hfile)).mp hm⟩, rfl⟩
  · rintro ⟨x, hx, rfl⟩
    exact ⟨⟨x, hx.ne_nil, hx.1, rfl⟩, (nameMatches_under hx.ne_nil (h.entryNames_of_file hx.1)).mpr hx.2⟩

variable {function : String}

/-- Files of one directory are compared by the names that lead to them. -/
theorem eq_of_parts_regularFiles (h : t.WellFormed) (hd : t.stat cwd root = .ok (top, .directory)) :
    ∀ p ∈ t.regularFiles cwd root, ∀ q ∈ t.regularFiles cwd root, p.parts = q.parts → p = q := by
  intro p hp q hq he
  obtain ⟨x, hx0, hx, rfl⟩ := (mem_regularFiles_of_stat h hd).mp hp
  obtain ⟨y, hy0, hy, rfl⟩ := (mem_regularFiles_of_stat h hd).mp hq
  rw [eq_of_parts_under (h.entryNames_of_file hx) (h.entryNames_of_file hy) hx0 hy0 he]

/-- No file passes the test of a tier without candidates. -/
theorem nameMatches_eq_false_iff (h : t.WellFormed) (hd : t.stat cwd root = .ok (top, .directory)) {tier : Tier} :
    (∀ p ∈ t.regularFiles cwd root, nameMatches (tier.test function.toList) p = false) ↔
      ∀ x, ¬ Candidate t top function tier x := by
  constructor
  · intro hnone x hx
    obtain ⟨hp, hm⟩ := List.mem_filter.mp ((mem_filter_regularFiles h hd).mpr ⟨x, hx, rfl⟩)
    rw [hnone _ hp] at hm
    cases hm
  · intro hnone p hp
    rw [← Bool.not_eq_true]
    intro hm
    obtain ⟨x, hx, -⟩ := (mem_filter_regularFiles h hd).mp (List.mem_filter.mpr ⟨hp, hm⟩)
    exact hnone x hx

/-- The first file of a tier is the first of its candidates. -/
theorem least_tier_eq_some_iff (h : t.WellFormed) (hd : t.stat cwd root = .ok (top, .directory)) {tier : Tier}
    {p : Path} : least ((t.regularFiles cwd root).filter (nameMatches (tier.test function.toList))) = some p ↔
      ∃ x, p = under root x ∧ Candidate t top function tier x ∧ ∀ y, Candidate t top function tier y → x ≤ y := by
  have hparts : ∀ q ∈ (t.regularFiles cwd root).filter (nameMatches (tier.test function.toList)),
      ∀ r ∈ (t.regularFiles cwd root).filter (nameMatches (tier.test function.toList)),
        q.parts = r.parts → q = r := fun q hq r hr =>
    eq_of_parts_regularFiles h hd q (List.mem_filter.mp hq).1 r (List.mem_filter.mp hr).1
  have hle : ∀ {x y : List String}, Candidate t top function tier x → Candidate t top function tier y →
      ((under root x).places ≤ (under root y).places ↔ x ≤ y) := fun hx hy =>
    places_under_le_iff hx.ne_nil hy.ne_nil (h.entryNames_of_file hx.1) (h.entryNames_of_file hy.1)
  rw [least_eq_some_iff hparts, mem_filter_regularFiles h hd]
  constructor
  · rintro ⟨⟨x, hx, rfl⟩, hmin⟩
    exact ⟨x, rfl, hx, fun y hy => (hle hx hy).mp (hmin _ ((mem_filter_regularFiles h hd).mpr ⟨y, hy, rfl⟩))⟩
  · rintro ⟨x, rfl, hx, hmin⟩
    refine ⟨⟨x, hx, rfl⟩, fun q hq => ?_⟩
    obtain ⟨y, hy, rfl⟩ := (mem_filter_regularFiles h hd).mp hq
    exact (hle hx hy).mpr (hmin y hy)

/-- No source is found when no file below the directory is in a tier. -/
theorem find?_eq_none_iff (h : t.WellFormed) (hd : t.stat cwd root = .ok (top, .directory)) :
    find? t cwd root function = none ↔ ∀ tier x, ¬ Candidate t top function tier x := by
  unfold find?
  rw [choose_eq_none_iff]
  exact forall_congr' fun tier => nameMatches_eq_false_iff h hd

/-- The source is the first candidate of the first tier that has one. -/
theorem find?_eq_some_iff (h : t.WellFormed) (hd : t.stat cwd root = .ok (top, .directory)) {p : Path} :
    find? t cwd root function = some p ↔ ∃ tier x, p = under root x ∧ Candidate t top function tier x ∧
      (∀ earlier : Tier, earlier.rank < tier.rank → ∀ y, ¬ Candidate t top function earlier y) ∧
      ∀ y, Candidate t top function tier y → x ≤ y := by
  unfold find?
  rw [choose_eq_some_iff_tier]
  simp only [nameMatches_eq_false_iff h hd, least_tier_eq_some_iff h hd]
  constructor
  · rintro ⟨tier, ⟨x, hp, hx, hmin⟩, hearlier⟩
    exact ⟨tier, x, hp, hx, hearlier, hmin⟩
  · rintro ⟨tier, x, hp, hx, hearlier, hmin⟩
    exact ⟨tier, ⟨x, hp, hx, hmin⟩, hearlier⟩

/-- **The source of a function is the first file of the first tier that has one.**  It does not depend on
how the files are listed, nor on files that are in no tier. -/
theorem find?_eq_first_of_tiers (h : t.WellFormed) (hd : t.stat cwd root = .ok (top, .directory))
    (function : String) :
    (find? t cwd root function = none ↔ ∀ tier x, ¬ Candidate t top function tier x) ∧
    (∀ p, find? t cwd root function = some p ↔
      ∃ tier x, p = under root x ∧ Candidate t top function tier x ∧
        (∀ earlier : Tier, earlier.rank < tier.rank → ∀ y, ¬ Candidate t top function earlier y) ∧
        ∀ y, Candidate t top function tier y → x ≤ y) ∧
    (∀ files : List Path, (∀ p, p ∈ files ↔ p ∈ t.regularFiles cwd root) →
      choose files function = find? t cwd root function) ∧
    ∀ s : FileTree, s.WellFormed → s.stat cwd root = .ok (top, .directory) →
      (∀ tier x, Candidate s top function tier x ↔ Candidate t top function tier x) →
      find? s cwd root function = find? t cwd root function := by
  refine ⟨find?_eq_none_iff h hd, fun p => find?_eq_some_iff h hd, fun files hfiles => ?_, ?_⟩
  · exact choose_congr hfiles (eq_of_parts_regularFiles h hd) function
  · intro s hs hds hsame
    ext p
    rw [find?_eq_some_iff hs hds, find?_eq_some_iff h hd]
    simp only [hsame]

/-- A tree with files in the last three tiers, a directory that is named like a source, and a file that
is in no tier. -/
def aesTree : FileTree where
  entries := [(["s"], .directory), (["s", "b"], .directory), (["s", "b", "AES_impl.c"], .file (.bytes []) false),
    (["s", "deep"], .directory), (["s", "deep", "AES.cpp"], .file (.bytes []) false),
    (["s", "AES.c"], .directory), (["s", "AES.c", "notes"], .file (.bytes []) false),
    (["s", "AES_alt.cpp"], .file (.bytes []) false), (["s", "z"], .directory),
    (["s", "z", "AES.cpp"], .file (.bytes []) false)]

theorem find?_aesTree : aesTree.WellFormed ∧ aesTree.stat [] ⟨"s"⟩ = .ok (["s"], .directory) ∧
    (find? aesTree [] ⟨"s"⟩ "AES" = some ⟨"s/deep/AES.cpp"⟩ ↔
      ∃ tier x, (⟨"s/deep/AES.cpp"⟩ : Path) = under ⟨"s"⟩ x ∧ Candidate aesTree ["s"] "AES" tier x ∧
        (∀ earlier : Tier, earlier.rank < tier.rank → ∀ y, ¬ Candidate aesTree ["s"] "AES" earlier y) ∧
        ∀ y, Candidate aesTree ["s"] "AES" tier y → x ≤ y) ∧
    find? aesTree [] ⟨"s"⟩ "AES" = some ⟨"s/deep/AES.cpp"⟩ ∧ find? aesTree [] ⟨"s"⟩ "DES" = none := by
  have h : aesTree.WellFormed := wellFormed_of_entries (by decide) (by decide +kernel)
  have hd : aesTree.stat [] ⟨"s"⟩ = .ok (["s"], .directory) := by decide +kernel
  exact ⟨h, hd, (find?_eq_first_of_tiers h hd "AES").2.1 _, by decide +kernel, by decide +kernel⟩

end Sources

end CipherCorpus
