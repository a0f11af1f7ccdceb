import CipherCorpus.FileTree.Change
import CipherCorpus.Proofs.FileTree.Walk

/-!
# What the file operations change

`ChangesOnly S t t'` says that outside of the keys in `S` nothing but missing directories was made,
that no link was made or removed, and that the names of entries are still names.  Making directories
changes nothing in this sense; every other operation changes entries at or under the keys that its
paths are resolved to:

* `write_eq`, `removeFile_eq`, `removeDirectory_eq`, `removeTree_eq`, `rename_eq`: the changed tree.
* `changesOnly_put`, `changesOnly_erase`, `changesOnly_eraseAll`, `changesOnly_move`: its frame.
-/

namespace CipherCorpus.FileTree

open CipherCorpus.Path

variable {t t' t'' : FileTree} {cwd k : Key} {p : Path} {S S' : Key → Prop}

/-- Every entry has a name. -/
def Named (t : FileTree) : Prop := ∀ d n, t.get? (d ++ [n]) ≠ none → IsEntryName n.toList

/-- Nothing but entries in `S` and missing directories differs. -/
structure ChangesOnly (S : Key → Prop) (t t' : FileTree) : Prop where
  frame : ∀ k, ¬ S k → t'.get? k = t.get? k ∨ t.get? k = none ∧ t'.get? k = some .directory
  links : SameLinks t t'
  named : t.Named → t'.Named

theorem ChangesOnly.refl (S : Key → Prop) (t : FileTree) : ChangesOnly S t t :=
  ⟨fun _ _ => Or.inl rfl, .refl t, id⟩

theorem ChangesOnly.trans (h : ChangesOnly S t t') (h' : ChangesOnly S t' t'') :
    ChangesOnly S t t'' := by
  refine ⟨fun k hk => ?_, h.links.trans h'.links, fun hn => h'.named (h.named hn)⟩
  rcases h.frame k hk with e | ⟨hn, hd⟩
  · rw [← e]
    exact h'.frame k hk
  · rcases h'.frame k hk with e | ⟨hn', -⟩
    · exact Or.inr ⟨hn, e.trans hd⟩
    · rw [hd] at hn'
      cases hn'

theorem ChangesOnly.mono (h : ChangesOnly S t t') (hs : ∀ k, S k → S' k) : ChangesOnly S' t t' :=
  ⟨fun k hk => h.frame k fun e => hk (hs k e), h.links, h.named⟩

/-- What is there outside of `S` stays as it is. -/
theorem ChangesOnly.get?_eq (h : ChangesOnly S t t') (hk : ¬ S k) {e : Entry} (he : t.get? k = some e) :
    t'.get? k = some e := by
  rcases h.frame k hk with e' | ⟨hn, -⟩
  · rw [e', he]
  · rw [hn] at he
    cases he

/-! ## The tree as a map -/

theorem lookup_filter_key (q : Key → Bool) (es : List (Key × Entry)) (k : Key) :
    (es.filter (q ·.1)).lookup k = if q k then es.lookup k else none := by
  induction es with
  | nil => simp
  | cons e rest ih =>
    obtain ⟨i, v⟩ := e
    by_cases hk : k = i
    · subst hk
      cases hq : q k with
      | true => simp [hq]
      | false => simp [hq, ih]
    · have hk' : (k == i) = false := by simpa using hk
      by_cases hq : q i = true
      · simp [hq, List.lookup_cons, hk', ih]
      · simp [hq, List.lookup_cons, hk', ih]

theorem get?_nil (t : FileTree) : t.get? [] = some .directory := rfl

theorem ne_nil_of_get? {e : Entry} (h : t.get? k = some e) (he : e ≠ .directory) : k ≠ [] := by
  rintro rfl
  rw [get?_nil] at h
  exact he (Option.some.inj h).symm

theorem not_isPrefixOf {top k : Key} (h : ¬ top <+: k) : top.isPrefixOf k = false := by
  rw [← Bool.not_eq_true, List.isPrefixOf_iff_prefix]
  exact h

theorem get?_eraseAll (t : FileTree) (top : Key) {k : Key} (hk : k ≠ []) :
    (t.eraseAll top).get? k = if top <+: k then none else t.get? k := by
  unfold get? eraseAll
  rw [if_neg hk, if_neg hk, lookup_filter_key (fun k => !top.isPrefixOf k)]
  by_cases h : top <+: k
  · rw [if_pos h, List.isPrefixOf_iff_prefix.mpr h]
    rfl
  · rw [if_neg h, not_isPrefixOf h]
    rfl

theorem get?_erase_self (t : FileTree) {k : Key} (hk : k ≠ []) : (t.erase k).get? k = none := by
  unfold get? erase
  rw [if_neg hk, lookup_filter_key (· != k)]
  simp

/-- The entries of a moved tree: what lay under `source` lies under `target`. -/
theorem lookup_moved (es : List (Key × Entry)) (source : Key) {target : Key} (k : Key)
    (hes : ∀ e ∈ es, ¬ target <+: e.1) :
    (es.map fun e => if source.isPrefixOf e.1 then (target ++ e.1.drop source.length, e.2)
      else e).lookup k =
      if target <+: k then es.lookup (source ++ k.drop target.length)
      else if source <+: k then none else es.lookup k := by
  induction es with
  | nil => simp
  | cons e rest ih =>
    obtain ⟨i, v⟩ := e
    have hi : ¬ target <+: i := hes (i, v) List.mem_cons_self
    rw [List.map_cons, List.lookup_cons, ih fun e he => hes e (List.mem_cons_of_mem _ he)]
    by_cases hs : source <+: i
    · obtain ⟨y, rfl⟩ := hs
      simp only [List.isPrefixOf_iff_prefix, List.prefix_append, if_true, List.drop_left]
      by_cases ht : target <+: k
      · obtain ⟨x, rfl⟩ := ht
        have hxy : (target ++ x == target ++ y) = (source ++ x == source ++ y) := by
          rw [Bool.eq_iff_iff]
          simp
        rw [hxy, if_pos (List.prefix_append _ _), if_pos (List.prefix_append _ _), List.drop_left,
          List.lookup_cons]
      · have hne : (k == target ++ y) = false := by
          simpa using fun e : k = target ++ y => ht (e ▸ List.prefix_append _ _)
        by_cases hsk : source <+: k
        · simp [ht, hsk, hne]
        · have hne' : (k == source ++ y) = false := by
            simpa using fun e : k = source ++ y => hsk (e ▸ List.prefix_append _ _)
          simp [ht, hsk, hne, List.lookup_cons, hne']
    · simp only [not_isPrefixOf hs, Bool.false_eq_true, if_false]
      by_cases ht : target <+: k
      · have hne : (k == i) = false := by
          simpa using fun e : k = i => hi (e ▸ ht)
        have hne' : (source ++ k.drop target.length == i) = false := by
          simpa using fun e : source ++ k.drop target.length = i => hs (e ▸ List.prefix_append _ _)
        simp [ht, hne, List.lookup_cons, hne']
      · by_cases hsk : source <+: k
        · have hne : (k == i) = false := by
            simpa using fun e : k = i => hs (e ▸ hsk)
          simp [ht, hsk, hne]
        · simp [ht, hsk, List.lookup_cons]

theorem get?_move (t : FileTree) {source target k : Key} (hk : k ≠ []) :
    (t.move source target).get? k =
      if target <+: k then (t.eraseAll target).entries.lookup (source ++ k.drop target.length)
      else if source <+: k then none else t.get? k := by
  have h := lookup_moved (t.eraseAll target).entries source k fun e (he : e ∈ (t.eraseAll target).entries) ht => by
      have := (List.mem_filter.mp he).2
      rw [List.isPrefixOf_iff_prefix.mpr ht] at this
      cases this
  unfold get? move
  rw [if_neg hk, if_neg hk, h]
  by_cases ht : target <+: k
  · rw [if_pos ht, if_pos ht]
  · rw [if_neg ht, if_neg ht]
    by_cases hs : source <+: k
    · rw [if_pos hs, if_pos hs]
    · rw [if_neg hs, if_neg hs]
      unfold eraseAll
      rw [lookup_filter_key (fun k => !target.isPrefixOf k), not_isPrefixOf ht]
      rfl

theorem get?_move_elsewhere (t : FileTree) {source target k : Key} (hs : ¬ source <+: k)
    (ht : ¬ target <+: k) : (t.move source target).get? k = t.get? k := by
  by_cases hk : k = []
  · subst hk
    rfl
  · rw [get?_move t hk, if_neg ht, if_neg hs]

/-- What is there after a move was there before, at the same key or under the source. -/
theorem get?_move_cases {source target : Key} {e : Entry} (hs : source ≠ []) (hk : k ≠ [])
    (h : (t.move source target).get? k = some e) :
    t.get? k = some e ∨ ∃ x, k = target ++ x ∧ t.get? (source ++ x) = some e := by
  rw [get?_move t hk] at h
  split at h
  · next ht =>
    obtain ⟨x, rfl⟩ := ht
    refine Or.inr ⟨x, rfl, ?_⟩
    rw [List.drop_left] at h
    unfold eraseAll at h
    rw [lookup_filter_key (fun k => !target.isPrefixOf k)] at h
    split at h
    · unfold get?
      rw [if_neg (by simp [hs]), h]
    · cases h
  · split at h
    · cases h
    · exact Or.inl h

/-! ## Names stay names -/

theorem Named.put {e : Entry} (h : t.Named)
    (hn : t.get? k = none → ∃ d n, k = d ++ [n] ∧ IsEntryName n.toList) : (t.put k e).Named := by
  intro d n hd
  by_cases hj : d ++ [n] = k
  · cases hg : t.get? k with
    | none =>
      obtain ⟨d', n', hk', hname⟩ := hn hg
      obtain ⟨-, hnn⟩ := List.append_inj' (hj.trans hk') rfl
      rwa [List.singleton_inj.mp hnn]
    | some e' => exact h d n (by rw [hj, hg]; simp)
  · rw [t.get?_put_ne e hj] at hd
    exact h d n hd

theorem Named.erase (h : t.Named) (k : Key) : (t.erase k).Named := by
  intro d n hd
  by_cases hj : d ++ [n] = k
  · rw [hj, get?_erase_self t (by simp [← hj])] at hd
    exact absurd rfl hd
  · rw [t.get?_erase_ne hj] at hd
    exact h d n hd

theorem Named.eraseAll (h : t.Named) (k : Key) : (t.eraseAll k).Named := by
  intro d n hd
  rw [get?_eraseAll t k (by simp)] at hd
  split at hd
  · exact absurd rfl hd
  · exact h d n hd

theorem Named.move {source target : Key} (h : t.Named) (h0 : source ≠ [])
    (hn : t.get? target = none → ∃ d n, target = d ++ [n] ∧ IsEntryName n.toList) :
    (t.move source target).Named := by
  intro d n hd
  obtain ⟨e, he⟩ := Option.ne_none_iff_exists'.mp hd
  rcases get?_move_cases h0 (by simp) he with he | ⟨x, hx, he⟩
  · exact h d n (by rw [he]; simp)
  · rcases List.eq_nil_or_concat x with rfl | ⟨y, m, rfl⟩
    · rw [List.append_nil] at hx
      cases hg : t.get? target with
      | none =>
        obtain ⟨d', n', hk', hname⟩ := hn hg
        obtain ⟨-, hnn⟩ := List.append_inj' (hx.trans hk') rfl
        rwa [List.singleton_inj.mp hnn]
      | some e' => exact h d n (by rw [hx, hg]; simp)
    · rw [List.concat_eq_append, ← List.append_assoc] at hx he
      obtain ⟨-, hnm⟩ := List.append_inj' hx rfl
      rw [List.singleton_inj.mp hnm]
      exact h _ m (by rw [he]; simp)

/-- The name of an entry of a directory is the last one of its key. -/
theorem key_of_name {top : Key} {n : String} {e : Key × Entry} (he : e ∈ t.below top)
    (hn : ((e.1.drop top.length).head?.filter fun _ => e.1.length = top.length + 1) = some n) :
    e.1 = top ++ [n] := by
  have hb := (List.mem_filter.mp he).2
  unfold isBelow at hb
  obtain ⟨x, hx⟩ := List.isPrefixOf_iff_prefix.mp (Bool.and_eq_true_iff.mp hb).1
  rw [Option.filter_eq_some_iff, ← hx, List.drop_left] at hn
  cases x with
  | nil => simp at hn
  | cons m more =>
    have hmore : more = [] := by simpa using hn.2
    have hm : m = n := by simpa using hn.1
    rw [← hx, hmore, hm]

theorem mem_names_iff (t : FileTree) (top : Key) (n : String) :
    n ∈ t.names top ↔ ∃ e ∈ t.entries, e.1 = top ++ [n] := by
  unfold names
  rw [List.mem_filterMap]
  constructor
  · rintro ⟨e, he, hn⟩
    exact ⟨e, (List.mem_filter.mp he).1, key_of_name he hn⟩
  · rintro ⟨e, he, hk⟩
    refine ⟨e, List.mem_filter.mpr ⟨he, ?_⟩, ?_⟩
    · unfold isBelow
      simp [hk]
    · simp [hk, Option.filter]

theorem get?_ne_none_of_mem {e : Key × Entry} (h : e ∈ t.entries) : t.get? e.1 ≠ none := by
  unfold get?
  split
  · simp
  · intro hn
    have := List.lookup_eq_none_iff.mp hn e h
    simp at this

theorem mem_entries_of_get? {e : Entry} (h : t.get? k = some e) (hk : k ≠ []) : (k, e) ∈ t.entries := by
  unfold get? at h
  rw [if_neg hk] at h
  obtain ⟨before, after, he, -⟩ := List.lookup_eq_some_iff.mp h
  rw [he]
  exact List.mem_append_right _ List.mem_cons_self

theorem Named.of_mem_names {top : Key} {n : String} (h : t.Named) (hn : n ∈ t.names top) :
    IsEntryName n.toList := by
  obtain ⟨e, he, hk⟩ := (mem_names_iff t top n).mp hn
  exact h top n (hk ▸ get?_ne_none_of_mem he)

/-! ## Frames of the changes -/

theorem changesOnly_put {e : Entry} (hk : k ≠ []) (he : ∀ target, e ≠ .link target)
    (hl : ∀ target, t.get? k ≠ some (.link target))
    (hn : t.get? k = none → ∃ d n, k = d ++ [n] ∧ IsEntryName n.toList) :
    ChangesOnly (· = k) t (t.put k e) := by
  refine ⟨fun j hj => Or.inl (t.get?_put_ne e hj), fun j target => ?_, fun h => h.put hn⟩
  by_cases hj : j = k
  · subst hj
    rw [t.get?_put_self e hk]
    exact ⟨fun h => absurd (Option.some.inj h) (he target), fun h => absurd h (hl target)⟩
  · rw [t.get?_put_ne e hj]

theorem changesOnly_erase (hl : ∀ target, t.get? k ≠ some (.link target)) :
    ChangesOnly (· = k) t (t.erase k) := by
  refine ⟨fun j hj => Or.inl (t.get?_erase_ne hj), fun j target => ?_, fun h => h.erase k⟩
  by_cases hj : j = k
  · subst hj
    refine ⟨fun h => ?_, fun h => absurd h (hl target)⟩
    rw [get?_erase_self t (ne_nil_of_get? h (by simp))] at h
    cases h
  · rw [t.get?_erase_ne hj]

theorem changesOnly_eraseAll (hc : ClearUnder t k) : ChangesOnly (k <+: ·) t (t.eraseAll k) := by
  refine ⟨fun j hj => Or.inl ?_, fun j target => ?_, fun h => h.eraseAll k⟩
  · by_cases hj' : j = []
    · subst hj'
      rfl
    · rw [get?_eraseAll t k hj', if_neg hj]
  · by_cases hj' : j = []
    · subst hj'
      exact Iff.rfl
    · rw [get?_eraseAll t k hj']
      split
      · next hj => exact ⟨nofun, fun h => absurd h (hc j target hj)⟩
      · exact Iff.rfl

theorem changesOnly_move {source target : Key} (h0 : source ≠ []) (hs : ClearUnder t source)
    (ht : ClearUnder t target)
    (hn : t.get? target = none → ∃ d n, target = d ++ [n] ∧ IsEntryName n.toList) :
    ChangesOnly (fun k => source <+: k ∨ target <+: k) t (t.move source target) := by
  refine ⟨fun j hj => Or.inl ?_, fun j dest => Iff.intro (fun h => ?_) fun h => ?_,
    fun h => h.move h0 hn⟩
  · rw [not_or] at hj
    exact get?_move_elsewhere t hj.1 hj.2
  · rcases get?_move_cases h0 (ne_nil_of_get? h (by simp)) h with h | ⟨x, -, h⟩
    · exact h
    · exact absurd h (hs _ dest (List.prefix_append _ _))
  · rw [get?_move_elsewhere t (fun e => hs j dest e h) (fun e => ht j dest e h), h]

/-! ## Operations -/

theorem changesOnly_makeDirectory (h : t.makeDirectory cwd p = .ok t') :
    ChangesOnly (fun _ => False) t t' := by
  unfold makeDirectory at h
  cases hr : t.resolve cwd false (withoutSeparator p) with
  | error e =>
    rw [hr] at h
    cases h
  | ok place =>
    rw [hr] at h
    cases place with
    | present key e => cases h
    | absent key =>
      cases h
      obtain ⟨hg, d, n, rfl, hn⟩ := sound_of_resolve hr
      have hput := changesOnly_put (t := t) (k := d ++ [n]) (e := .directory) (by simp) (by simp)
        (by simp [hg]) fun _ => ⟨d, n, rfl, hn⟩
      refine ⟨fun j _ => ?_, hput.links, hput.named⟩
      by_cases hj : j = d ++ [n]
      · subst hj
        exact Or.inr ⟨hg, get?_put_self t _ (by simp)⟩
      · exact hput.frame j hj

theorem orDirectory_cases {made : Except FileError FileTree} (h : t.orDirectory cwd p made = .ok t') :
    made = .ok t' ∨ t' = t ∧ t.isDirectory cwd p = true := by
  unfold orDirectory at h
  cases made with
  | ok made => exact Or.inl h
  | error e =>
    dsimp only at h
    split at h
    · next hd =>
      cases h
      exact Or.inr ⟨rfl, hd⟩
    · cases h

/-- The first path of a chain is made, or found to be a directory, after what a shorter chain made. -/
theorem makeChain_cases {parents : List Path} (h : t.makeChain cwd (p :: parents) = .ok t') :
    ∃ t1, (t1 = t ∨ t.makeChain cwd parents = .ok t1) ∧ (p.text = "" ∧ t' = t1 ∨
      t1.makeDirectory cwd p = .ok t' ∨ t' = t1 ∧ t1.isDirectory cwd p = true) := by
  unfold makeChain at h
  split at h
  · next he =>
    cases h
    exact ⟨t, Or.inl rfl, Or.inl ⟨he, rfl⟩⟩
  · split at h
    · next hm =>
      cases h
      exact ⟨t, Or.inl rfl, Or.inr (Or.inl hm)⟩
    · cases hc : t.makeChain cwd parents with
      | error e =>
        rw [hc] at h
        cases h
      | ok t1 =>
        rw [hc] at h
        exact ⟨t1, Or.inr rfl, Or.inr (orDirectory_cases h)⟩
    · refine ⟨t, Or.inl rfl, Or.inr ?_⟩
      rcases orDirectory_cases h with h | h
      · cases h
      · exact Or.inr h

theorem changesOnly_makeChain (ps : List Path) : ∀ {t'}, t.makeChain cwd ps = .ok t' →
    ChangesOnly (fun _ => False) t t' := by
  induction ps with
  | nil => exact fun h => by cases h
  | cons p parents ih =>
    intro t' h
    obtain ⟨t1, hc, hp⟩ := makeChain_cases h
    have h1 : ChangesOnly (fun _ => False) t t1 := by
      rcases hc with rfl | hc
      · exact .refl _ _
      · exact ih hc
    rcases hp with ⟨-, rfl⟩ | hm | ⟨rfl, -⟩
    · exact h1
    · exact h1.trans (changesOnly_makeDirectory hm)
    · exact h1

/-- Making directories changes nothing but missing directories. -/
theorem changesOnly_makeDirectories (h : t.makeDirectories cwd p = .ok t') :
    ChangesOnly (fun _ => False) t t' := changesOnly_makeChain _ h

theorem exists_go_eq_cons (n : Nat) (p : Path) : ∃ parents, ancestors.go n p = p :: parents := by
  cases n with
  | zero => exact ⟨[], rfl⟩
  | succ n =>
    unfold ancestors.go
    cases p.parent? with
    | none => exact ⟨[], rfl⟩
    | some up => exact ⟨_, rfl⟩

theorem ancestors_eq_cons (p : Path) : ∃ parents, p.ancestors = p :: parents := exists_go_eq_cons _ p

/-- A chain is gone up when its first path has no parent yet. -/
theorem makeChain_of_notFound {parents : List Path} (htext : p.text ≠ "")
    (h : t.makeDirectory cwd p = .error .notFound) : t.makeChain cwd (p :: parents) = (do
      let t ← t.makeChain cwd parents
      orDirectory t cwd p (t.makeDirectory cwd p)) := by
  rw [makeChain, if_neg htext, h]

theorem makeChain_of_ne {parents : List Path} (htext : p.text ≠ "")
    (h : t.makeDirectory cwd p ≠ .error .notFound) :
    t.makeChain cwd (p :: parents) = t.orDirectory cwd p (t.makeDirectory cwd p) := by
  rw [makeChain, if_neg htext]
  cases hm : t.makeDirectory cwd p with
  | ok made => rfl
  | error e =>
    split
    · next he => cases he
    · next he => exact absurd (hm.trans he) h
    · next he =>
      cases he
      rfl

/-- A chain is not gone up when its first path is a directory. -/
theorem makeChain_of_directory {parents : List Path} (htext : p.text ≠ "") (hp : withoutSeparator p = p)
    (hr : ∀ f, t.resolve cwd f p = .ok (.present k .directory)) :
    t.makeChain cwd (p :: parents) = .ok t := by
  have hmade : t.makeDirectory cwd p = .error .alreadyExists := by
    unfold makeDirectory
    rw [hp, hr]
    rfl
  have hd : t.isDirectory cwd p = true := by
    unfold isDirectory stat
    rw [hr]
    rfl
  rw [makeChain_of_ne htext (by rw [hmade]; simp), hmade]
  exact if_pos hd

theorem withoutSeparator_eq (h : endsWithSeparator p = false) : withoutSeparator p = p := by
  unfold withoutSeparator
  cases hr : p.text.toList.reverse with
  | nil =>
    simp
  | cons c rest =>
    have hl : p.text.toList = rest.reverse ++ [c] := by
      rw [← List.reverse_reverse p.text.toList, hr, List.reverse_cons]
    have hc : (c == '/') = false := by
      unfold endsWithSeparator at h
      rw [hl] at h
      simpa using h
    have hk : ((c :: rest).dropWhile (· == '/')).reverse = p.text.toList := by
      rw [List.dropWhile_cons, hc, if_neg (by simp), List.reverse_cons, hl]
    dsimp only
    rw [hk]
    split
    · rfl
    · exact congrArg Path.mk String.ofList_toList

theorem walkNames_of_not_endsWithSeparator (h : endsWithSeparator p = false) :
    walkNames p.text.toList = pathNames p.text.toList := by
  unfold endsWithSeparator at h
  unfold walkNames pathNames
  rw [h]
  simp

/-- After a path's directories were made, it leads to one. -/
theorem leads_of_makeDirectories (hs : endsWithSeparator p = false) (hp : p.text.toList ≠ [])
    (h : t.makeDirectories cwd p = .ok t') : ∃ k, Leads t' cwd p k := by
  obtain ⟨parents, he⟩ := ancestors_eq_cons p
  unfold makeDirectories at h
  rw [he] at h
  obtain ⟨t1, -, ⟨hp', -⟩ | hm | ⟨rfl, hd⟩⟩ := makeChain_cases h
  · exact absurd (String.toList_eq_nil_iff.mpr hp') hp
  · have hc := changesOnly_makeDirectory hm
    unfold makeDirectory at hm
    rw [withoutSeparator_eq hs] at hm
    cases hr : t1.resolve cwd false p with
    | error e =>
      rw [hr] at hm
      cases hm
    | ok place =>
      rw [hr] at hm
      cases place with
      | present key e => cases hm
      | absent key =>
        cases hm
        obtain ⟨-, d, n, hk, -⟩ := sound_of_resolve hr
        obtain ⟨-, m, hlim, hw⟩ := resolve_iff.mp hr
        rw [walkNames_of_not_endsWithSeparator hs] at hw
        refine ⟨key, m, hlim, hw.grow (fun j hj => ?_) (fun j target => (hc.links j target).mpr) ?_⟩
        · exact hc.get?_eq id hj
        · exact t1.get?_put_self _ (by simp [hk])
  · unfold isDirectory stat at hd
    cases hr : t'.resolve cwd true p with
    | error e =>
      rw [hr] at hd
      cases hd
    | ok place =>
      rw [hr] at hd
      cases place with
      | absent key => cases hd
      | present key e =>
        obtain ⟨-, m, hlim, hw⟩ := resolve_iff.mp hr
        rw [walkNames_of_not_endsWithSeparator hs] at hw
        cases e with
        | directory => exact ⟨key, m, hlim, hw⟩
        | file body executable => cases hd
        | link target => cases hd

/-- Where an entry is does not change when another one is put where it is not. -/
theorem get?_put_eq_some_iff {e e' : Entry} {j : Key} (hk : k ≠ []) (he : e' ≠ e)
    (hn : t.get? k ≠ some e) : (t.put k e').get? j = some e ↔ t.get? j = some e := by
  by_cases hj : j = k
  · subst hj
    rw [get?_put_self _ _ hk]
    exact iff_of_false (fun h => he (Option.some.inj h)) hn
  · rw [get?_put_ne _ _ hj]

/-- Whether what is at a place can be run. -/
def Place.executable : Place → Bool
  | .present _ (.file _ x) => x
  | _ => false

/-- A file is written where a path names a file or nothing, and keeps the mode. -/
theorem write_iff {body : Body} : t.write cwd p body = .ok t' ↔ endsWithSeparator p = false ∧
    ∃ place, t.resolve cwd true p = .ok place ∧
      ((∃ key, place = .absent key) ∨ ∃ key b x, place = .present key (.file b x)) ∧
      t' = t.put place.key (.file body place.executable) := by
  unfold write
  by_cases hs : endsWithSeparator p = true
  · rw [if_pos hs, hs]
    refine iff_of_false ?_ nofun
    cases t.resolve cwd true (withoutSeparator p) with
    | error e => exact nofun
    | ok place => exact nofun
  · rw [if_neg hs, Bool.not_eq_true] at *
    constructor
    · intro h
      cases hr : t.resolve cwd true p with
      | error e =>
        rw [hr] at h
        cases h
      | ok place =>
        rw [hr] at h
        refine ⟨hs, place, rfl, ?_⟩
        cases place with
        | absent key =>
          cases h
          exact ⟨Or.inl ⟨key, rfl⟩, rfl⟩
        | present key e =>
          cases e with
          | file b x =>
            cases h
            exact ⟨Or.inr ⟨key, b, x, rfl⟩, rfl⟩
          | directory => cases h
          | link target => cases h
    · rintro ⟨-, place, hr, ⟨key, rfl⟩ | ⟨key, b, x, rfl⟩, rfl⟩
      · rw [hr]
        rfl
      · rw [hr]
        rfl

/-- A written file is at the place of its path, where a file or nothing was. -/
theorem write_eq {body : Body} (h : t.write cwd p body = .ok t') :
    ∃ place executable, t.resolve cwd true p = .ok place ∧
      ((∃ key, place = .absent key) ∨ ∃ key b x, place = .present key (.file b x)) ∧
      t' = t.put place.key (.file body executable) := by
  obtain ⟨-, place, hr, hp, rfl⟩ := write_iff.mp h
  exact ⟨place, place.executable, hr, hp, rfl⟩

theorem write_of_directory {body : Body} (hp : withoutSeparator p = p)
    (hr : t.resolve cwd true p = .ok (.present k .directory)) :
    t.write cwd p body = .error .isDirectory := by
  unfold write
  rw [hp, hr]
  split
  · rfl
  · rfl

/-- No directory is written over, so neither is the top. -/
theorem not_directory_of_write {place : Place} (hr : t.resolve cwd true p = .ok place)
    (hp : (∃ key, place = .absent key) ∨ ∃ key b x, place = .present key (.file b x)) :
    t.get? place.key ≠ some .directory ∧ place.key ≠ [] := by
  have hget : t.get? place.key ≠ some .directory := by
    rcases hp with ⟨key, rfl⟩ | ⟨key, b, x, rfl⟩
    · rw [Place.key, (sound_of_resolve hr).1]
      simp
    · rw [Place.key, (sound_of_resolve hr).resolve_left (by simp)]
      simp
  exact ⟨hget, fun he => hget (he ▸ get?_nil t)⟩

theorem changesOnly_write (body : Body) {place : Place} (hr : t.resolve cwd true p = .ok place)
    (hp : (∃ key, place = .absent key) ∨ ∃ key b x, place = .present key (.file b x)) (x : Bool) :
    ChangesOnly (· = place.key) t (t.put place.key (.file body x)) := by
  rcases hp with ⟨key, rfl⟩ | ⟨key, b, y, rfl⟩
  · obtain ⟨hg, d, n, hk, hn⟩ := sound_of_resolve hr
    exact changesOnly_put (by simp [Place.key, hk]) (by simp) (by simp [Place.key, hg])
      fun _ => ⟨d, n, hk, hn⟩
  · have hg : t.get? key = some (.file b y) := (sound_of_resolve hr).resolve_left (by simp)
    exact changesOnly_put (ne_nil_of_get? hg (by simp)) (by simp) (by simp [Place.key, hg])
      fun hn => by simp [Place.key, hg] at hn

/-- A path names the file that was put at its place. -/
theorem resolve_put {body : Body} {x : Bool} {place : Place} (hr : t.resolve cwd true p = .ok place)
    (hp : (∃ key, place = .absent key) ∨ ∃ key b x, place = .present key (.file b x)) :
    (t.put place.key (.file body x)).resolve cwd true p = .ok (.present place.key (.file body x)) := by
  obtain ⟨hguard, n, hn, hwalk⟩ := resolve_iff.mp hr
  obtain ⟨hfree, hne⟩ := not_directory_of_write hr hp
  have hgrow : ∀ k, t.get? k = some .directory →
      (t.put place.key (.file body x)).get? k = some .directory := by
    intro k hg
    have hk : k ≠ place.key := by
      rintro rfl
      exact hfree hg
    rw [get?_put_ne _ _ hk]
    exact hg
  have hnone : ∀ k, place ≠ .present k .directory := by
    rintro k rfl
    rcases hp with ⟨key, he⟩ | ⟨key, b, y, he⟩ <;> cases he
  exact resolve_iff.mpr ⟨hguard, n, hn, hwalk.grow_open hgrow (fun k target =>
    ((changesOnly_write body hr hp x).links k target).mpr) hnone (.file (get?_put_self t _ hne))⟩

/-- What is written is there to be read. -/
theorem read_of_write {body : Body} (h : t.write cwd p body = .ok t') : t'.read cwd p = .ok body.data := by
  obtain ⟨place, x, hr, hp, rfl⟩ := write_eq h
  unfold read openRead stat
  rw [resolve_put hr hp]
  rfl

theorem linkStat_eq {key : Key} {e : Entry} (h : t.linkStat cwd p = .ok (key, e)) :
    t.resolve cwd false p = .ok (.present key e) := by
  unfold linkStat at h
  cases hr : t.resolve cwd false p with
  | error e =>
    rw [hr] at h
    cases h
  | ok place =>
    rw [hr] at h
    cases place with
    | absent key => cases h
    | present key e =>
      cases h
      rfl

theorem stat_eq {key : Key} {e : Entry} (h : t.stat cwd p = .ok (key, e)) :
    t.resolve cwd true p = .ok (.present key e) := by
  unfold stat at h
  cases hr : t.resolve cwd true p with
  | error e =>
    rw [hr] at h
    cases h
  | ok place =>
    rw [hr] at h
    cases place with
    | absent key => cases h
    | present key e =>
      cases h
      rfl

theorem linkStat_iff {key : Key} {e : Entry} :
    t.linkStat cwd p = .ok (key, e) ↔ t.resolve cwd false p = .ok (.present key e) := by
  refine ⟨linkStat_eq, fun h => ?_⟩
  unfold linkStat
  rw [h]
  rfl

theorem stat_iff {key : Key} {e : Entry} :
    t.stat cwd p = .ok (key, e) ↔ t.resolve cwd true p = .ok (.present key e) := by
  refine ⟨stat_eq, fun h => ?_⟩
  unfold stat
  rw [h]
  rfl

theorem stat_of_isFile (h : t.isFile cwd p = true) :
    ∃ key body x, t.stat cwd p = .ok (key, .file body x) := by
  unfold isFile at h
  cases hs : t.stat cwd p with
  | error e =>
    rw [hs] at h
    cases h
  | ok found =>
    obtain ⟨key, e⟩ := found
    rw [hs] at h
    cases e with
    | file body x => exact ⟨key, body, x, rfl⟩
    | directory => cases h
    | link target => cases h

theorem removeFile_eq (h : t.removeFile cwd p = .ok t') :
    ∃ key e, e ≠ .directory ∧ t.resolve cwd false p = .ok (.present key e) ∧ t' = t.erase key := by
  unfold removeFile at h
  cases hr : t.linkStat cwd p with
  | error e =>
    rw [hr] at h
    cases h
  | ok r =>
    obtain ⟨key, e⟩ := r
    rw [hr] at h
    cases e with
    | directory => cases h
    | file body executable =>
      cases h
      exact ⟨key, .file body executable, by simp, linkStat_eq hr, rfl⟩
    | link target =>
      cases h
      exact ⟨key, .link target, by simp, linkStat_eq hr, rfl⟩

theorem removeDirectory_eq (h : t.removeDirectory cwd p = .ok t') :
    ∃ key, t.resolve cwd false p = .ok (.present key .directory) ∧ t' = t.erase key := by
  unfold removeDirectory at h
  cases hr : t.linkStat cwd p with
  | error e =>
    rw [hr] at h
    cases h
  | ok r =>
    obtain ⟨key, e⟩ := r
    rw [hr] at h
    cases e with
    | directory =>
      refine ⟨key, linkStat_eq hr, ?_⟩
      by_cases he : (t.below key).isEmpty = true
      · simp only [bind, Except.bind, he, if_true] at h
        cases h
        rfl
      · simp only [bind, Except.bind, he] at h
        cases h
    | file body executable => cases h
    | link target => cases h

theorem removeTree_eq (h : t.removeTree cwd p = .ok t') :
    ∃ key e, t.resolve cwd false p = .ok (.present key e) ∧
      (t' = t.eraseAll key ∨ t' = t.erase key) := by
  unfold removeTree at h
  cases hr : t.linkStat cwd p with
  | error e =>
    rw [hr] at h
    cases h
  | ok r =>
    obtain ⟨key, e⟩ := r
    rw [hr] at h
    refine ⟨key, e, linkStat_eq hr, ?_⟩
    cases e with
    | directory =>
      cases h
      exact Or.inl rfl
    | file body executable => cases h
    | link target =>
      cases h
      exact Or.inr rfl

/-- A link is made at a free place; its target is a path. -/
theorem makeLink_eq {target : String} (h : t.makeLink cwd p target = .ok t') :
    ∃ key, target.toList.any (·.toNat == 0) = false ∧ t.resolve cwd false p = .ok (.absent key) ∧
      t' = t.put key (.link target) := by
  unfold makeLink at h
  by_cases hz : target.toList.any (·.toNat == 0) = true
  · rw [if_pos hz] at h
    cases h
  · rw [if_neg hz] at h
    by_cases he : target.isEmpty = true
    · simp only [he, if_true] at h
      cases h
    · simp only [he] at h
      cases hr : t.resolve cwd false p with
      | error e =>
        rw [hr] at h
        cases h
      | ok place =>
        rw [hr] at h
        cases place with
        | present key e => cases h
        | absent key =>
          cases h
          exact ⟨key, by simpa using hz, rfl, rfl⟩

/-- An entry is moved to the place of the target, or stays where it is. -/
theorem rename_eq {source target : Path} (hs : endsWithSeparator target = false)
    (h : t.rename cwd source target = .ok t') :
    ∃ key e place, t.resolve cwd false source = .ok (.present key e) ∧
      t.resolve cwd false target = .ok place ∧ (t' = t ∨ t' = t.move key place.key) := by
  unfold rename at h
  cases hr : t.linkStat cwd source with
  | error e =>
    rw [hr] at h
    cases h
  | ok r =>
    obtain ⟨key, e⟩ := r
    rw [hr] at h
    simp only [bind, Except.bind, withoutSeparator_eq hs, ite_self] at h
    cases hp : t.resolve cwd false target with
    | error e =>
      rw [hp] at h
      cases h
    | ok place =>
      rw [hp] at h
      refine ⟨key, e, place, linkStat_eq hr, rfl, ?_⟩
      dsimp only at h
      split at h
      · cases h
      · cases place with
        | absent destination =>
          cases h
          exact Or.inr rfl
        | present destination there =>
          dsimp only at h
          split at h
          · cases h
            exact Or.inl rfl
          · split at h
            · split at h
              · cases h
              · split at h
                · cases h
                · cases h
                  exact Or.inr rfl
            · split at h
              · cases h
              · cases h
                exact Or.inr rfl

end CipherCorpus.FileTree
