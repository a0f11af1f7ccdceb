import CipherCorpus.FileTree.Resolve
import CipherCorpus.Proofs.Path

/-!
# Walking a tree of files

`Scans` and `Walks` are the relations beside the functions that follow a path: a scan stops at a place or
at a link, a walk goes through links to a place (`scan_iff`, `walk_iff`, `resolve_iff`).

* A walk over `xs ++ ys` is one over `xs` to a directory and one over `ys` from there (`Walks.append`,
  `Walks.split`).
* Where a walk ends depends on the links of the tree alone, not on its files and directories
  (`Walks.unique`).
* A walk to a directory stays one when directories are added (`Walks.grow`).
* Under a directory without links the names that are walked are the key (`Scans.key_eq`).
-/

namespace CipherCorpus.FileTree

open Text CipherCorpus.Path

variable {t t' : FileTree} {f : Bool} {cwd place home : Key} {ns xs ys : List String} {p : Path}

/-- A name as it is cut out of a path. -/
def IsStep (n : String) : Prop := '/' ∉ n.toList ∧ n.toList ≠ []

/-- What is said of a place is so in the tree.  A directory may also be the start of the walk, which is
not looked up. -/
def Place.Sound (t : FileTree) : Place → Prop
  | .present key e => e = .directory ∨ t.get? key = some e
  | .absent key => t.get? key = none ∧ ∃ d n, key = d ++ [n] ∧ IsEntryName n.toList

/-- Two trees have the same links. -/
def SameLinks (t t' : FileTree) : Prop :=
  ∀ k target, t'.get? k = some (.link target) ↔ t.get? k = some (.link target)

/-- The names of a path, without a mark for a separator at its end. -/
def pathNames (text : List Char) : List String :=
  ((splitOn '/' text).filter (· != [])).map String.ofList

/-- A name that is looked up in a directory. -/
structure LooksUp (name : String) : Prop where
  notHere : name ≠ "."
  notUp : name ≠ ".."
  size : name.utf8ByteSize ≤ nameLimit

/-- The scan of names from a directory stops at `s`. -/
inductive Scans (t : FileTree) (f : Bool) : Key → List String → Stop → Prop where
  | done (place : Key) : Scans t f place [] (.place (.present place .directory))
  | here {place rest s} : Scans t f place rest s → Scans t f place ("." :: rest) s
  | up {place rest s} : Scans t f place.dropLast rest s → Scans t f place (".." :: rest) s
  | free {place name} : LooksUp name → t.get? (place ++ [name]) = none →
      Scans t f place [name] (.place (.absent (place ++ [name])))
  | file {place name body executable} : LooksUp name →
      t.get? (place ++ [name]) = some (.file body executable) →
      Scans t f place [name] (.place (.present (place ++ [name]) (.file body executable)))
  | directory {place name rest s} : LooksUp name → t.get? (place ++ [name]) = some .directory →
      Scans t f (place ++ [name]) rest s → Scans t f place (name :: rest) s
  | lastLink {place name target} : LooksUp name → t.get? (place ++ [name]) = some (.link target) →
      f = false → Scans t f place [name] (.place (.present (place ++ [name]) (.link target)))
  | link {place name target rest} : LooksUp name → t.get? (place ++ [name]) = some (.link target) →
      (rest = [] → f = true) → Scans t f place (name :: rest) (.link place target rest)

/-- The walk of names from a directory goes through `n` links and ends at a place. -/
inductive Walks (t : FileTree) (f : Bool) : Nat → Key → List String → Place → Prop where
  | place {place ns pl} : Scans t f place ns (.place pl) → Walks t f 0 place ns pl
  | link {n place ns base target rest pl} : Scans t f place ns (.link base target rest) →
      Walks t f n (startOf base target.toList) (walkNames target.toList ++ rest) pl →
      Walks t f (n + 1) place ns pl

/-- A path leads to a directory. -/
def Leads (t : FileTree) (cwd : Key) (p : Path) (k : Key) : Prop :=
  ∃ n ≤ linkLimit, Walks t true n (startOf cwd p.text.toList) (pathNames p.text.toList)
    (.present k .directory)

theorem SameLinks.refl (t : FileTree) : SameLinks t t := fun _ _ => Iff.rfl

theorem SameLinks.symm (h : SameLinks t t') : SameLinks t' t := fun k target => (h k target).symm

theorem SameLinks.trans {t'' : FileTree} (h : SameLinks t t') (h' : SameLinks t' t'') :
    SameLinks t t'' :=
  fun k target => (h' k target).trans (h k target)

/-! ## Names -/

theorem isStep_of_mem_pathNames {text : List Char} {n : String} (h : n ∈ pathNames text) : IsStep n := by
  obtain ⟨piece, hp, rfl⟩ := List.mem_map.mp h
  obtain ⟨hp, hne⟩ := List.mem_filter.mp hp
  refine ⟨?_, ?_⟩
  · rw [String.toList_ofList]
    exact notMem_of_mem_splitOn hp
  · rw [String.toList_ofList]
    simpa using hne

theorem walkNames_eq (text : List Char) : walkNames text = pathNames text ∨
    walkNames text = pathNames text ++ ["."] := by
  unfold walkNames pathNames
  dsimp only
  split
  · exact Or.inr (by rw [List.map_append]; rfl)
  · exact Or.inl (by rw [List.append_nil])

theorem isStep_of_mem_walkNames {text : List Char} {n : String} (h : n ∈ walkNames text) : IsStep n := by
  rcases walkNames_eq text with he | he
  · exact isStep_of_mem_pathNames (he ▸ h)
  · rcases List.mem_append.mp (he ▸ h) with h | h
    · exact isStep_of_mem_pathNames h
    · rw [List.mem_singleton.mp h]
      exact ⟨by decide, by decide⟩

/-! ## Scans and walks as relations -/

theorem scan_iff (ns : List String) : ∀ {place s}, t.scan f place ns = .ok s ↔ Scans t f place ns s := by
  induction ns with
  | nil =>
    intro place s
    constructor
    · intro h
      cases h
      exact .done place
    · intro h
      cases h
      rfl
  | cons x rest ih =>
    intro place s
    constructor
    · intro h
      unfold scan at h
      by_cases h1 : x = "."
      · rw [if_pos h1] at h
        exact h1 ▸ .here (ih.mp h)
      · rw [if_neg h1] at h
        by_cases h2 : x = ".."
        · rw [if_pos h2] at h
          exact h2 ▸ .up (ih.mp h)
        · rw [if_neg h2] at h
          by_cases h3 : nameLimit < x.utf8ByteSize
          · rw [if_pos h3] at h
            cases h
          · rw [if_neg h3] at h
            have hx : LooksUp x := ⟨h1, h2, Nat.le_of_not_lt h3⟩
            dsimp only at h
            split at h
            · next hg =>
              split at h
              · next hr =>
                cases h
                subst hr
                exact .free hx hg
              · cases h
            · next hg => exact .directory hx hg (ih.mp h)
            · next target hg =>
              split at h
              · next hr =>
                obtain ⟨hr, hf⟩ : rest = [] ∧ f = false := by simpa using hr
                cases h
                subst hr
                exact .lastLink hx hg hf
              · next hr =>
                cases h
                exact .link hx hg fun he => by simpa [he] using hr
            · next hg =>
              split at h
              · next hr =>
                cases h
                subst hr
                exact .file hx hg
              · cases h
    · intro h
      cases h with
      | here h => exact ih.mpr h
      | up h => exact ih.mpr h
      | free hx hg =>
        rw [scan, if_neg hx.notHere, if_neg hx.notUp, if_neg (Nat.not_lt.mpr hx.size)]
        simp [hg]
      | file hx hg =>
        rw [scan, if_neg hx.notHere, if_neg hx.notUp, if_neg (Nat.not_lt.mpr hx.size)]
        simp [hg]
      | directory hx hg h =>
        rw [scan, if_neg hx.notHere, if_neg hx.notUp, if_neg (Nat.not_lt.mpr hx.size)]
        simpa [hg] using ih.mpr h
      | lastLink hx hg hf =>
        rw [scan, if_neg hx.notHere, if_neg hx.notUp, if_neg (Nat.not_lt.mpr hx.size)]
        simp [hg, hf]
      | link hx hg hf =>
        rw [scan, if_neg hx.notHere, if_neg hx.notUp, if_neg (Nat.not_lt.mpr hx.size)]
        simpa [hg] using hf

theorem walk_iff (links : Nat) : ∀ {place ns pl}, t.walk f links place ns = .ok pl ↔
    ∃ n ≤ links, Walks t f n place ns pl := by
  induction links with
  | zero =>
    intro place ns pl
    constructor
    · intro h
      unfold walk at h
      cases hs : t.scan f place ns with
      | error e =>
        rw [hs] at h
        cases h
      | ok s =>
        rw [hs] at h
        cases s with
        | place p =>
          cases h
          exact ⟨0, Nat.le_refl 0, .place ((scan_iff ns).mp hs)⟩
        | link base target rest => cases h
    · rintro ⟨n, hn, h⟩
      cases h with
      | place h =>
        unfold walk
        rw [(scan_iff ns).mpr h]
        rfl
      | link h => omega
  | succ links ih =>
    intro place ns pl
    constructor
    · intro h
      unfold walk at h
      cases hs : t.scan f place ns with
      | error e =>
        rw [hs] at h
        cases h
      | ok s =>
        rw [hs] at h
        cases s with
        | place p =>
          cases h
          exact ⟨0, Nat.zero_le _, .place ((scan_iff ns).mp hs)⟩
        | link base target rest =>
          obtain ⟨n, hn, hw⟩ := ih.mp h
          exact ⟨n + 1, by omega, .link ((scan_iff ns).mp hs) hw⟩
    · rintro ⟨n, hn, h⟩
      unfold walk
      cases h with
      | place h =>
        rw [(scan_iff ns).mpr h]
        rfl
      | link h hw =>
        rw [(scan_iff ns).mpr h]
        exact ih.mpr ⟨_, by omega, hw⟩

/-- A path that is resolved holds no zero character and is walked from its start. -/
theorem resolve_iff {pl : Place} : t.resolve cwd f p = .ok pl ↔
    (p.text.toList.any (·.toNat == 0) = false ∧ p.text.toList ≠ []) ∧
      ∃ n ≤ linkLimit, Walks t f n (startOf cwd p.text.toList) (walkNames p.text.toList) pl := by
  rw [← walk_iff]
  unfold resolve
  dsimp only
  by_cases hz : p.text.toList.any (·.toNat == 0) = true
  · rw [if_pos hz]
    simp [hz]
  · rw [if_neg hz]
    by_cases he : p.text.toList.isEmpty = true
    · rw [if_pos he]
      simp [List.isEmpty_iff.mp he]
    · rw [if_neg he]
      simp only [Bool.not_eq_true] at hz
      simp only [List.isEmpty_iff] at he
      simp [hz, he]

/-! ## Walks in two parts -/

theorem Scans.append {k : Key} {s : Stop} (h : Scans t true place xs (.place (.present k .directory)))
    (hs : Scans t f k ys s) : Scans t f place (xs ++ ys) s := by
  generalize he : Stop.place (.present k .directory) = e at h
  induction h with
  | done place =>
    cases he
    exact hs
  | here _ ih => exact .here (ih he)
  | up _ ih => exact .up (ih he)
  | directory hx hg _ ih => exact .directory hx hg (ih he)
  | free => cases he
  | file => cases he
  | lastLink => cases he
  | link => cases he

theorem Scans.append_link {base : Key} {target : String} {rest : List String}
    (h : Scans t true place xs (.link base target rest)) (hy : ys ≠ []) :
    Scans t f place (xs ++ ys) (.link base target (rest ++ ys)) := by
  generalize he : Stop.link base target rest = e at h
  induction h with
  | here _ ih => exact .here (ih he)
  | up _ ih => exact .up (ih he)
  | directory hx hg _ ih => exact .directory hx hg (ih he)
  | link hx hg _ =>
    cases he
    exact .link hx hg fun e => absurd (List.append_eq_nil_iff.mp e).2 hy
  | done => cases he
  | free => cases he
  | file => cases he
  | lastLink => cases he

/-- A scan of more names goes through a directory, or stops at a link before. -/
theorem Scans.split {s : Stop} (hy : ys ≠ []) : ∀ {place xs}, Scans t f place (xs ++ ys) s →
    (∃ k, Scans t true place xs (.place (.present k .directory)) ∧ Scans t f k ys s) ∨
    ∃ base target rest, Scans t true place xs (.link base target rest) ∧
      s = .link base target (rest ++ ys) := by
  intro place xs h
  induction xs generalizing place with
  | nil => exact Or.inl ⟨place, .done place, h⟩
  | cons x xs ih =>
    rw [List.cons_append] at h
    generalize hz : xs ++ ys = zs at h
    have hne : zs ≠ [] := by simp [← hz, hy]
    cases h with
    | here h =>
      rcases ih (hz ▸ h) with ⟨k, hk, hs⟩ | ⟨base, target, rest, hl, hs⟩
      · exact Or.inl ⟨k, .here hk, hs⟩
      · exact Or.inr ⟨base, target, rest, .here hl, hs⟩
    | up h =>
      rcases ih (hz ▸ h) with ⟨k, hk, hs⟩ | ⟨base, target, rest, hl, hs⟩
      · exact Or.inl ⟨k, .up hk, hs⟩
      · exact Or.inr ⟨base, target, rest, .up hl, hs⟩
    | directory hx hg h =>
      rcases ih (hz ▸ h) with ⟨k, hk, hs⟩ | ⟨base, target, rest, hl, hs⟩
      · exact Or.inl ⟨k, .directory hx hg hk, hs⟩
      · exact Or.inr ⟨base, target, rest, .directory hx hg hl, hs⟩
    | link hx hg _ => exact Or.inr ⟨_, _, xs, .link hx hg fun _ => rfl, by rw [hz]⟩
    | free => exact absurd rfl hne
    | file => exact absurd rfl hne
    | lastLink => exact absurd rfl hne

theorem Walks.append {n : Nat} {k : Key} {pl : Place} (hy : ys ≠ [])
    (h : Walks t true n place xs (.present k .directory)) (hs : Scans t f k ys (.place pl)) :
    Walks t f n place (xs ++ ys) pl := by
  generalize he : Place.present k .directory = e at h
  induction h with
  | place h =>
    cases he
    exact .place (h.append hs)
  | link h _ ih =>
    refine .link (h.append_link hy) ?_
    rw [← List.append_assoc]
    exact ih he

/-- A walk over more names goes through a directory. -/
theorem Walks.split {n : Nat} {pl : Place} (hy : ys ≠ []) (h : Walks t f n place (xs ++ ys) pl) :
    ∃ k m more, m + more = n ∧ Walks t true m place xs (.present k .directory) ∧ Walks t f more k ys pl := by
  generalize hz : xs ++ ys = zs at h
  induction h generalizing xs with
  | place h =>
    subst hz
    rcases h.split hy with ⟨k, hk, hs⟩ | ⟨base, target, rest, -, hs⟩
    · exact ⟨k, 0, 0, rfl, .place hk, .place hs⟩
    · cases hs
  | link h hw ih =>
    subst hz
    rcases h.split hy with ⟨k, hk, hs⟩ | ⟨base, target, rest, hl, hs⟩
    · exact ⟨k, 0, _, Nat.zero_add _, .place hk, .link hs hw⟩
    · cases hs
      obtain ⟨k, m, more, hm, hk, hys⟩ := ih (List.append_assoc ..)
      exact ⟨k, m + 1, more, by omega, .link hl hk, hys⟩

/-! ## What a walk depends on -/

/-- A stop without what is at its place. -/
def Stop.outline : Stop → Stop
  | .place pl => .place (.absent pl.key)
  | .link base target rest => .link base target rest

theorem scans_here {rest : List String} {s : Stop} :
    Scans t f place ("." :: rest) s ↔ Scans t f place rest s := by
  rw [← scan_iff, ← scan_iff, scan, if_pos rfl]

theorem scans_up {rest : List String} {s : Stop} :
    Scans t f place (".." :: rest) s ↔ Scans t f place.dropLast rest s := by
  rw [← scan_iff, ← scan_iff, scan, if_neg (by decide), if_pos rfl]

/-- A name that is looked up is the last one, a directory to go on from, or a link to follow. -/
theorem Scans.looksUp {x : String} {rest : List String} {s : Stop} (h1 : x ≠ ".") (h2 : x ≠ "..")
    (h : Scans t f place (x :: rest) s) :
    (rest = [] ∧ s.outline = .place (.absent (place ++ [x])) ∧
      ∀ target, t.get? (place ++ [x]) = some (.link target) → f = false) ∨
    (t.get? (place ++ [x]) = some .directory ∧ Scans t f (place ++ [x]) rest s) ∨
    ∃ target, t.get? (place ++ [x]) = some (.link target) ∧ (rest = [] → f = true) ∧
      s = .link place target rest := by
  cases h with
  | here => exact absurd rfl h1
  | up => exact absurd rfl h2
  | free _ hg => exact Or.inl ⟨rfl, rfl, fun _ h => by simp [hg] at h⟩
  | file _ hg => exact Or.inl ⟨rfl, rfl, fun _ h => by simp [hg] at h⟩
  | directory _ hg h => exact Or.inr (Or.inl ⟨hg, h⟩)
  | lastLink _ hg hf => exact Or.inl ⟨rfl, rfl, fun _ _ => hf⟩
  | link _ hg hf => exact Or.inr (Or.inr ⟨_, hg, hf, rfl⟩)

theorem Scans.unique (hl : SameLinks t t') (ns : List String) : ∀ {place s s'},
    Scans t f place ns s → Scans t' f place ns s' → s.outline = s'.outline := by
  induction ns with
  | nil =>
    intro place s s' h h'
    cases h
    cases h'
    rfl
  | cons x rest ih =>
    intro place s s' h h'
    by_cases h1 : x = "."
    · subst h1
      exact ih (scans_here.mp h) (scans_here.mp h')
    · by_cases h2 : x = ".."
      · subst h2
        exact ih (scans_up.mp h) (scans_up.mp h')
      · rcases h.looksUp h1 h2 with ⟨rfl, ho, hf⟩ | ⟨hd, h⟩ | ⟨target, hg, hf, rfl⟩
        · rcases h'.looksUp h1 h2 with ⟨-, ho', -⟩ | ⟨hd', h'⟩ | ⟨target', hg', hf', rfl⟩
          · rw [ho, ho']
          · cases h'
            exact ho
          · have := hf target' ((hl _ _).mp hg')
            rw [hf' rfl] at this
            cases this
        · rcases h'.looksUp h1 h2 with ⟨rfl, ho', -⟩ | ⟨hd', h'⟩ | ⟨target', hg', -, rfl⟩
          · cases h
            exact ho'.symm
          · exact ih h h'
          · have := (hl _ _).mp hg'
            rw [hd] at this
            cases this
        · have hg' := (hl _ _).mpr hg
          rcases h'.looksUp h1 h2 with ⟨rfl, -, hf'⟩ | ⟨hd', -⟩ | ⟨target', hg'', -, rfl⟩
          · have := hf' target hg'
            rw [hf rfl] at this
            cases this
          · rw [hd'] at hg'
            cases hg'
          · rw [hg''] at hg'
            cases hg'
            rfl

/-- Two walks of the same names end at the same key when the links are the same. -/
theorem Walks.unique {n m : Nat} {pl pl' : Place} (hl : SameLinks t t') (h : Walks t f n place ns pl)
    (h' : Walks t' f m place ns pl') : pl.key = pl'.key := by
  induction h generalizing m pl' with
  | place h =>
    cases h' with
    | place h' => simpa [Stop.outline] using h.unique hl _ h'
    | link h' => simpa [Stop.outline] using h.unique hl _ h'
  | link h _ ih =>
    cases h' with
    | place h' => simpa [Stop.outline] using h.unique hl _ h'
    | link h' hw' =>
      have he := h.unique hl _ h'
      simp only [Stop.outline, Stop.link.injEq] at he
      obtain ⟨rfl, rfl, rfl⟩ := he
      exact ih hw'

/-- What has to be at a place in a grown tree for the place to be a directory there. -/
def Place.Turns (t' : FileTree) : Place → Prop
  | .present _ e => e = .directory
  | .absent key => t'.get? key = some .directory

/-- A file or nothing lies at the key, and the place says which. -/
inductive Place.OpenAt (t : FileTree) (k : Key) : Place → Prop where
  | free : t.get? k = none → Place.OpenAt t k (.absent k)
  | file {body executable} : t.get? k = some (.file body executable) →
      Place.OpenAt t k (.present k (.file body executable))

theorem Place.OpenAt.scans {name : String} {pl : Place} (h : pl.OpenAt t (place ++ [name]))
    (hx : LooksUp name) : Scans t f place [name] (.place pl) := by
  cases h with
  | free hg => exact .free hx hg
  | file hg => exact .file hx hg

section Growth

variable (hd : ∀ k, t.get? k = some .directory → t'.get? k = some .directory)
  (hl : ∀ k target, t.get? k = some (.link target) → t'.get? k = some (.link target))
include hd

theorem Scans.grow {pl : Place} (h : Scans t f place ns (.place pl)) (hp : pl.Turns t') :
    Scans t' true place ns (.place (.present pl.key .directory)) := by
  generalize he : Stop.place pl = e at h
  induction h with
  | done place =>
    cases he
    exact .done place
  | here _ ih => exact .here (ih he)
  | up _ ih => exact .up (ih he)
  | directory hx hg _ ih => exact .directory hx (hd _ hg) (ih he)
  | free hx _ =>
    cases he
    exact .directory hx hp (.done _)
  | file =>
    cases he
    cases hp
  | lastLink =>
    cases he
    cases hp
  | link => cases he

/-- A scan to what is no directory ends at the file or the free place that is there now. -/
theorem Scans.grow_open {pl pl' : Place} (h : Scans t true place ns (.place pl))
    (hp : ∀ k, pl ≠ .present k .directory) (ho : pl'.OpenAt t' pl.key) :
    Scans t' true place ns (.place pl') := by
  generalize he : Stop.place pl = e at h
  generalize hf : true = f at h
  induction h with
  | done place =>
    cases he
    exact absurd rfl (hp place)
  | here _ ih => exact .here (ih he)
  | up _ ih => exact .up (ih he)
  | directory hx hd' _ ih => exact .directory hx (hd _ hd') (ih he)
  | free hx _ =>
    cases he
    exact ho.scans hx
  | file hx _ =>
    cases he
    exact ho.scans hx
  | lastLink _ _ hf' => cases hf.trans hf'
  | link => cases he

include hl

theorem Scans.grow_link {base : Key} {target : String} {rest : List String}
    (h : Scans t f place ns (.link base target rest)) :
    Scans t' true place ns (.link base target rest) := by
  generalize he : Stop.link base target rest = e at h
  induction h with
  | here _ ih => exact .here (ih he)
  | up _ ih => exact .up (ih he)
  | directory hx hg _ ih => exact .directory hx (hd _ hg) (ih he)
  | link hx hg _ =>
    cases he
    exact .link hx (hl _ _ hg) fun _ => rfl
  | done => cases he
  | free => cases he
  | file => cases he
  | lastLink => cases he

/-- With more directories and the links kept a walk to a directory stays one. -/
theorem Walks.grow {n : Nat} {pl : Place} (h : Walks t f n place ns pl) (hp : pl.Turns t') :
    Walks t' true n place ns (.present pl.key .directory) := by
  induction h with
  | place h => exact .place (h.grow hd hp)
  | link h _ ih => exact .link (h.grow_link hd hl) (ih hp)

theorem Walks.grow_open {n : Nat} {pl pl' : Place} (h : Walks t true n place ns pl)
    (hp : ∀ k, pl ≠ .present k .directory) (ho : pl'.OpenAt t' pl.key) :
    Walks t' true n place ns pl' := by
  induction h with
  | place h => exact .place (h.grow_open hd hp ho)
  | link h _ ih => exact .link (h.grow_link hd hl) (ih hp ho)

theorem Leads.grow {k : Key} (h : Leads t cwd p k) : Leads t' cwd p k := by
  obtain ⟨n, hn, h⟩ := h
  exact ⟨n, hn, h.grow hd hl rfl⟩

end Growth

/-! ## What a walk tells of its place -/

theorem Scans.sound {pl : Place} (hn : ∀ n ∈ ns, IsStep n) (h : Scans t f place ns (.place pl)) :
    pl.Sound t := by
  generalize he : Stop.place pl = e at h
  induction h with
  | done =>
    cases he
    exact Or.inl rfl
  | here _ ih => exact ih (fun n hm => hn n (List.mem_cons_of_mem _ hm)) he
  | up _ ih => exact ih (fun n hm => hn n (List.mem_cons_of_mem _ hm)) he
  | directory _ _ _ ih => exact ih (fun n hm => hn n (List.mem_cons_of_mem _ hm)) he
  | free hx hg =>
    cases he
    obtain ⟨hsep, hne⟩ := hn _ List.mem_cons_self
    refine ⟨hg, _, _, rfl, hsep, hne, fun e => hx.notHere ?_, fun e => hx.notUp ?_⟩
    · exact String.toList_inj.mp e
    · exact String.toList_inj.mp e
  | file _ hg =>
    cases he
    exact Or.inr hg
  | lastLink _ hg =>
    cases he
    exact Or.inr hg
  | link => cases he

theorem Scans.looksUp_last {n : String} {pl : Place} (h : Scans t f place (xs ++ [n]) (.place pl))
    (h1 : n ≠ ".") (h2 : n ≠ "..") : LooksUp n := by
  rcases h.split (by simp) with ⟨k, -, h⟩ | ⟨_, _, _, -, he⟩
  · cases h with
    | here => exact absurd rfl h1
    | up => exact absurd rfl h2
    | free hx _ => exact hx
    | file hx _ => exact hx
    | directory hx _ _ => exact hx
    | lastLink hx _ _ => exact hx
  · cases he

theorem Scans.mem_of_mem_rest {base : Key} {target : String} {rest : List String}
    (h : Scans t f place ns (.link base target rest)) : ∀ n ∈ rest, n ∈ ns := by
  generalize he : Stop.link base target rest = e at h
  induction h with
  | here _ ih => exact fun n hm => List.mem_cons_of_mem _ (ih he n hm)
  | up _ ih => exact fun n hm => List.mem_cons_of_mem _ (ih he n hm)
  | directory _ _ _ ih => exact fun n hm => List.mem_cons_of_mem _ (ih he n hm)
  | link =>
    cases he
    exact fun n hm => List.mem_cons_of_mem _ hm
  | done => cases he
  | free => cases he
  | file => cases he
  | lastLink => cases he

/-- A link at which a scan stops is one of the tree. -/
theorem Scans.exists_link {base : Key} {target : String} {rest : List String}
    (h : Scans t f place ns (.link base target rest)) : ∃ k, t.get? k = some (.link target) := by
  generalize he : Stop.link base target rest = e at h
  induction h with
  | here _ ih => exact ih he
  | up _ ih => exact ih he
  | directory _ _ _ ih => exact ih he
  | link _ hg _ =>
    cases he
    exact ⟨_, hg⟩
  | done => cases he
  | free => cases he
  | file => cases he
  | lastLink => cases he

theorem Walks.sound {n : Nat} {pl : Place} (hn : ∀ n ∈ ns, IsStep n) (h : Walks t f n place ns pl) :
    pl.Sound t := by
  induction h with
  | place h => exact h.sound hn
  | link h _ ih =>
    refine ih fun n hm => ?_
    rcases List.mem_append.mp hm with hm | hm
    · exact isStep_of_mem_walkNames hm
    · exact hn n (h.mem_of_mem_rest n hm)

theorem sound_of_resolve {pl : Place} (h : t.resolve cwd f p = .ok pl) : pl.Sound t := by
  obtain ⟨-, n, -, h⟩ := resolve_iff.mp h
  exact h.sound fun n hm => isStep_of_mem_walkNames hm

/-- No link lies on the way to a key. -/
def ClearTo (t : FileTree) (k : Key) : Prop := ∀ j target, j <+: k → t.get? j ≠ some (.link target)

/-- No link lies at or under a key. -/
def ClearUnder (t : FileTree) (k : Key) : Prop := ∀ j target, k <+: j → t.get? j ≠ some (.link target)

theorem clearTo_nil (t : FileTree) : ClearTo t [] := by
  intro j target hj
  rw [List.prefix_nil.mp hj]
  exact fun h => by cases h

theorem ClearTo.of_prefix {j k : Key} (h : ClearTo t k) (hj : j <+: k) : ClearTo t j :=
  fun i target hi => h i target (hi.trans hj)

theorem ClearTo.of_sameLinks {k : Key} (hl : SameLinks t t') (h : ClearTo t k) : ClearTo t' k :=
  fun j target hj e => h j target hj ((hl j target).mp e)

theorem ClearUnder.of_sameLinks {k : Key} (hl : SameLinks t t') (h : ClearUnder t k) :
    ClearUnder t' k :=
  fun j target hj e => h j target hj ((hl j target).mp e)

theorem ClearUnder.of_prefix {j k : Key} (h : ClearUnder t j) (hj : j <+: k) : ClearUnder t k :=
  fun i target hi => h i target (hj.trans hi)

theorem ClearTo.concat {k : Key} {n : String} (h : ClearTo t k)
    (hn : ∀ target, t.get? (k ++ [n]) ≠ some (.link target)) : ClearTo t (k ++ [n]) := by
  intro j target hj
  rcases List.prefix_concat_iff.mp hj with rfl | hj
  · exact hn target
  · exact h j target hj

/-- No link lies on the way to the directory at which a scan stops. -/
def Stop.IsClear (t : FileTree) : Stop → Prop
  | .place (.present k .directory) => ClearTo t k
  | .place _ => True
  | .link base _ _ => ClearTo t base

theorem Scans.clearTo {s : Stop} (hc : ClearTo t place) (h : Scans t f place ns s) : s.IsClear t := by
  induction h with
  | done => exact hc
  | here _ ih => exact ih hc
  | up _ ih => exact ih (hc.of_prefix (List.dropLast_prefix _))
  | directory _ hg _ ih => exact ih (hc.concat fun target h => by simp [hg] at h)
  | free => trivial
  | file => trivial
  | lastLink => trivial
  | link => exact hc

theorem Walks.clearTo {n : Nat} {k : Key} (hc : ClearTo t place)
    (h : Walks t f n place ns (.present k .directory)) : ClearTo t k := by
  generalize he : Place.present k .directory = e at h
  induction h with
  | place h =>
    subst he
    exact h.clearTo hc
  | link h _ ih =>
    refine ih ?_ he
    unfold startOf
    split
    · exact clearTo_nil t
    · exact h.clearTo hc

theorem Leads.clearTo {k : Key} (hc : ClearTo t cwd) (h : Leads t cwd p k) : ClearTo t k := by
  obtain ⟨n, -, h⟩ := h
  refine h.clearTo ?_
  unfold startOf
  split
  · exact clearTo_nil t
  · exact hc

/-- When no link is in the way the names are the key. -/
theorem Scans.key_of_clear {s : Stop} (hn : ∀ n ∈ ns, IsEntryName n.toList)
    (hc : ∀ ms target, ms ≠ [] → ms <+: ns → t.get? (place ++ ms) ≠ some (.link target))
    (h : Scans t f place ns s) : ∃ pl, s = .place pl ∧ pl.key = place ++ ns := by
  induction ns generalizing place with
  | nil =>
    cases h
    exact ⟨_, rfl, (List.append_nil _).symm⟩
  | cons x rest ih =>
    obtain ⟨-, -, h1, h2⟩ := hn x List.mem_cons_self
    rcases h.looksUp (fun e => h1 (by rw [e]; rfl)) (fun e => h2 (by rw [e]; rfl)) with
      ⟨rfl, ho, -⟩ | ⟨-, h⟩ | ⟨target, hg, -⟩
    · cases s with
      | place pl => exact ⟨pl, rfl, by simpa [Stop.outline] using ho⟩
      | link base target rest => simp [Stop.outline] at ho
    · obtain ⟨pl, hs, hk⟩ := ih (fun n hm => hn n (List.mem_cons_of_mem _ hm)) (fun ms target _ hm => by
        rw [List.append_assoc]
        exact hc (x :: ms) target (by simp) ((List.prefix_cons_inj x).mpr hm)) h
      exact ⟨pl, hs, by rw [hk, List.append_assoc]; rfl⟩
    · exact absurd hg (hc [x] target (by simp) (by simp))

/-- Under a directory without links the names are the key. -/
theorem Scans.key_eq {s : Stop} (hc : ClearUnder t home) (hn : ∀ n ∈ ns, IsEntryName n.toList)
    (h : Scans t f home ns s) : ∃ pl, s = .place pl ∧ pl.key = home ++ ns :=
  h.key_of_clear hn fun _ target _ _ => hc _ target (List.prefix_append _ _)

/-- On a way without links the names are the key. -/
theorem Walks.key_eq {n : Nat} {pl : Place} (hc : ClearTo t (place ++ ns))
    (hn : ∀ n ∈ ns, IsEntryName n.toList) (h : Walks t f n place ns pl) : pl.key = place ++ ns := by
  have hclear : ∀ ms target, ms ≠ [] → ms <+: ns → t.get? (place ++ ms) ≠ some (.link target) :=
    fun ms target _ hm => hc _ target ((List.prefix_append_right_inj place).mpr hm)
  cases h with
  | place h =>
    obtain ⟨pl', he, hk⟩ := h.key_of_clear hn hclear
    cases he
    exact hk
  | link h =>
    obtain ⟨pl', he, -⟩ := h.key_of_clear hn hclear
    cases he

end CipherCorpus.FileTree
