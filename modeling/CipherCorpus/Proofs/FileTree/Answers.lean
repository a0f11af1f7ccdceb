import CipherCorpus.Proofs.FileTree.Outside

/-!
# What an operation answers

An operation on a path of one name below a directory answers by the name and the entry that has it, errors
included (`resolve_child_eq`, `makeDirectories_child_eq`, `write_child_eq`, `removeTree_child_eq`).  So in
two trees in which the directory is reached and the entry is the same, it fails with the same error or
changes the entry in the same way (`InStep`).

A directory that is reached need not be made (`makeDirectories_of_leads`).
-/

namespace CipherCorpus.FileTree

open CipherCorpus.Path
open Archive (under)

variable {s t s' t' : FileTree} {f : Bool} {cwd d place k : Key} {n : String} {root p q : Path}
  {xs ys : List String}

/-! ## Walking on from a directory -/

theorem scan_directory {rest : List String} (hx : LooksUp n) (hg : t.get? (place ++ [n]) = some .directory) :
    t.scan f place (n :: rest) = t.scan f (place ++ [n]) rest := by
  rw [scan, if_neg hx.notHere, if_neg hx.notUp, if_neg (Nat.not_lt.mpr hx.size)]
  dsimp only
  rw [hg]

theorem Scans.scan_append (h : Scans t true place xs (.place (.present k .directory))) :
    t.scan f place (xs ++ ys) = t.scan f k ys := by
  generalize he : Stop.place (.present k .directory) = e at h
  induction h with
  | done place =>
    cases he
    rfl
  | here _ ih => exact ih he
  | up _ ih =>
    rw [List.cons_append, scan, if_neg (by decide), if_pos rfl]
    exact ih he
  | directory hx hg _ ih => exact (scan_directory hx hg).trans (ih he)
  | free => cases he
  | file => cases he
  | lastLink => cases he
  | link => cases he

/-- A walk goes on from the directory that its first names lead to. -/
theorem Walks.walk_append {m : Nat} (hy : ys ≠ []) (h : Walks t true m place xs (.present k .directory)) :
    ∀ {limit : Nat}, m ≤ limit → t.walk f limit place (xs ++ ys) = t.walk f (limit - m) k ys := by
  generalize he : Place.present k .directory = e at h
  induction h with
  | place h =>
    intro limit _
    cases he
    rw [Nat.sub_zero, walk, walk, h.scan_append]
  | @link m place ns base target rest pl h _ ih =>
    intro limit hle
    obtain ⟨limit, rfl⟩ : ∃ l, limit = l + 1 := ⟨limit - 1, by omega⟩
    rw [walk, (scan_iff _).mpr (h.append_link hy)]
    dsimp only [bind, Except.bind]
    rw [← List.append_assoc, ih he (by omega), Nat.add_sub_add_right]

/-! ## A directory that is there -/

/-- Without following a link at the end a scan stops where it stopped, or at the link. -/
theorem Scans.unfollow {stop : Stop} (h : Scans t true place xs stop) : Scans t false place xs stop ∨
    ∃ j target, Scans t false place xs (.place (.present j (.link target))) := by
  induction h with
  | done place => exact Or.inl (.done place)
  | here _ ih => exact ih.imp .here fun ⟨j, target, h⟩ => ⟨j, target, .here h⟩
  | up _ ih => exact ih.imp .up fun ⟨j, target, h⟩ => ⟨j, target, .up h⟩
  | free hx hg => exact Or.inl (.free hx hg)
  | file hx hg => exact Or.inl (.file hx hg)
  | directory hx hg _ ih => exact ih.imp (.directory hx hg) fun ⟨j, target, h⟩ => ⟨j, target, .directory hx hg h⟩
  | lastLink _ _ ho => cases ho
  | @link place name target rest hx hg _ =>
    by_cases hrest : rest = []
    · subst hrest
      exact Or.inr ⟨_, target, .lastLink hx hg rfl⟩
    · exact Or.inl (.link hx hg fun he => absurd he hrest)

theorem Walks.unfollow {m : Nat} {e : Entry} (h : Walks t true m place xs (.present k e)) :
    ∃ m' ≤ m, ∃ j e', Walks t false m' place xs (.present j e') := by
  generalize he : Place.present k e = pl at h
  induction h with
  | place h =>
    cases he
    rcases h.unfollow with h | ⟨j, target, h⟩
    · exact ⟨0, Nat.le_refl 0, k, e, .place h⟩
    · exact ⟨0, Nat.le_refl 0, j, _, .place h⟩
  | link h _ ih =>
    rcases h.unfollow with h | ⟨j, target, h⟩
    · obtain ⟨m', hm, j, e', hw⟩ := ih he
      exact ⟨m' + 1, Nat.succ_le_succ hm, j, e', .link h hw⟩
    · exact ⟨0, Nat.zero_le _, j, _, .place h⟩

theorem toList_withoutSeparator (p : Path) : (withoutSeparator p).text.toList <+: p.text.toList ∧
    (p.text.toList ≠ [] → (withoutSeparator p).text.toList ≠ []) := by
  unfold withoutSeparator
  dsimp only
  split
  · exact ⟨List.prefix_refl _, id⟩
  · next hkept =>
    rw [String.toList_ofList]
    refine ⟨List.reverse_suffix.mp ?_, fun _ he => hkept (by rw [he]; rfl)⟩
    rw [List.reverse_reverse]
    exact List.dropWhile_suffix _

/-- A directory that a path leads to need not be made. -/
theorem makeDirectories_of_leads (hzero : ZeroFree p.text) (hl : Leads t cwd p k) :
    t.makeDirectories cwd p = .ok t := by
  obtain ⟨parents, hparents⟩ := ancestors_eq_cons p
  unfold makeDirectories
  rw [hparents]
  by_cases htext : p.text = ""
  · rw [makeChain, if_pos htext]
  have hne : p.text.toList ≠ [] := fun he => htext (String.toList_eq_nil_iff.mp he)
  obtain ⟨hstem, hkept⟩ := toList_withoutSeparator p
  obtain ⟨habs, hsteps⟩ := steps_withoutSeparator p
  have htaken : t.makeDirectory cwd p = .error .alreadyExists := by
    obtain ⟨j, e, hr⟩ : ∃ j e, t.resolve cwd false (withoutSeparator p) = .ok (.present j e) := by
      obtain ⟨m, hm, hw⟩ := (Leads.congr (startOf_eq_of_isAbsolute habs cwd) hsteps).mpr hl
      have htexts : ((withoutSeparator p).text.toList.any (·.toNat == 0)) = false ∧
          (withoutSeparator p).text.toList ≠ [] :=
        ⟨List.any_eq_false.mpr fun c hc => List.any_eq_false.mp hzero c (hstem.subset hc), hkept hne⟩
      rcases walkNames_eq (withoutSeparator p).text.toList with he | he
      · obtain ⟨m', hm', j, e, hw'⟩ := hw.unfollow
        exact ⟨j, e, resolve_iff.mpr ⟨htexts, m', hm'.trans hm, he ▸ hw'⟩⟩
      · exact ⟨k, .directory, resolve_iff.mpr ⟨htexts, m, hm, he ▸ hw.append (by simp) (.here (.done k))⟩⟩
    unfold makeDirectory
    rw [hr]
    rfl
  have hdirectory : t.isDirectory cwd p = true := by
    unfold isDirectory
    rw [stat_directory_iff.mpr ⟨⟨hzero, hne⟩, hl⟩]
    rfl
  rw [makeChain_of_ne htext (by rw [htaken]; simp), htaken]
  exact if_pos hdirectory

/-! ## A name in a directory -/

/-- What is answered for a path whose last name is `n`, unless its text cannot be one. -/
def ifNamed {α : Type} (p : Path) (n : String) (x : Except FileError α) : Except FileError α :=
  if p.text.toList.any (·.toNat == 0) then .error .zeroInPath
  else if nameLimit < n.utf8ByteSize then .error .nameTooLong
  else x

theorem ifNamed_ne_notFound {α : Type} {x : Except FileError α} (h : x ≠ .error .notFound) :
    ifNamed p n x ≠ .error .notFound := by
  unfold ifNamed
  split
  · simp
  · split
    · simp
    · exact h

section Child

variable (hl : Leads t cwd root d) (hn : IsEntryName n.toList)
  (hc : ∀ target, t.get? (d ++ [n]) ≠ some (.link target))
include hl hn hc

theorem resolve_child_eq : t.resolve cwd f (root.child n) =
    ifNamed (root.child n) n (.ok (t.placeAt (d ++ [n]))) := by
  have hstep := isStep_of_isEntryName hn
  have h1 : n ≠ "." := fun he => hn.2.2.1 (by rw [he]; rfl)
  have h2 : n ≠ ".." := fun he => hn.2.2.2 (by rw [he]; rfl)
  obtain ⟨m, hm, hw⟩ := hl
  unfold resolve ifNamed
  dsimp only
  split
  · rfl
  rw [if_neg (by simpa using toList_child_ne_nil root hn), startOf_child _ _ hstep, walkNames_child _ hstep,
    pathNames_child _ hstep, hw.walk_append (by simp) hm, walk, scan, if_neg h1, if_neg h2]
  split
  · rfl
  · dsimp only
    unfold placeAt
    cases hg : t.get? (d ++ [n]) with
    | none => rfl
    | some e =>
      cases e with
      | directory => rfl
      | file body x => rfl
      | link target => exact absurd hg (hc target)

theorem makeDirectory_child_eq : t.makeDirectory cwd (root.child n) = ifNamed (root.child n) n
    (match t.get? (d ++ [n]) with
      | none => .ok (t.put (d ++ [n]) .directory)
      | some _ => .error .alreadyExists) := by
  unfold makeDirectory
  rw [withoutSeparator_eq (endsWithSeparator_child root hn), resolve_child_eq hl hn hc]
  unfold ifNamed placeAt
  split
  · rfl
  · split
    · rfl
    · cases t.get? (d ++ [n]) <;> rfl

theorem makeDirectories_child_eq : t.makeDirectories cwd (root.child n) = ifNamed (root.child n) n
    (match t.get? (d ++ [n]) with
      | none => .ok (t.put (d ++ [n]) .directory)
      | some .directory => .ok t
      | some _ => .error .alreadyExists) := by
  obtain ⟨parents, hparents⟩ := ancestors_eq_cons (root.child n)
  have htext : (root.child n).text ≠ "" := fun he =>
    toList_child_ne_nil root hn (String.toList_eq_nil_iff.mpr he)
  have hmade := makeDirectory_child_eq hl hn hc
  have hne : t.makeDirectory cwd (root.child n) ≠ .error .notFound := by
    rw [hmade]
    refine ifNamed_ne_notFound ?_
    split <;> simp
  unfold makeDirectories
  rw [hparents, makeChain_of_ne htext hne, hmade]
  have hdirectory : ∀ e, t.orDirectory cwd (root.child n) (.error e) =
      if t.isDirectory cwd (root.child n) then .ok t else .error e := fun _ => rfl
  unfold isDirectory stat at hdirectory
  rw [resolve_child_eq hl hn hc] at hdirectory
  unfold ifNamed placeAt at *
  split
  · next hz =>
    rw [if_pos hz] at hdirectory
    exact hdirectory _
  · next hz =>
    rw [if_neg hz] at hdirectory
    split
    · next hlong =>
      rw [if_pos hlong] at hdirectory
      exact hdirectory _
    · next hlong =>
      rw [if_neg hlong] at hdirectory
      cases hg : t.get? (d ++ [n]) with
      | none => rfl
      | some e =>
        rw [hg] at hdirectory
        refine (hdirectory _).trans ?_
        cases e <;> rfl

theorem write_child_eq {body : Body} : t.write cwd (root.child n) body = ifNamed (root.child n) n
    (match t.get? (d ++ [n]) with
      | none => .ok (t.put (d ++ [n]) (.file body false))
      | some (.file _ x) => .ok (t.put (d ++ [n]) (.file body x))
      | some _ => .error .isDirectory) := by
  unfold write
  rw [if_neg (by rw [endsWithSeparator_child root hn]; decide), resolve_child_eq hl hn hc]
  unfold ifNamed placeAt
  split
  · rfl
  · split
    · rfl
    · cases t.get? (d ++ [n]) with
      | none => rfl
      | some e => cases e <;> rfl

theorem removeTree_child_eq : t.removeTree cwd (root.child n) = ifNamed (root.child n) n
    (match t.get? (d ++ [n]) with
      | none => .error .notFound
      | some .directory => .ok (t.eraseAll (d ++ [n]))
      | some _ => .error .notDirectory) := by
  unfold removeTree linkStat
  rw [resolve_child_eq hl hn hc]
  unfold ifNamed placeAt
  split
  · rfl
  · split
    · rfl
    · cases hg : t.get? (d ++ [n]) with
      | none => rfl
      | some e =>
        cases e with
        | directory => rfl
        | file body x => rfl
        | link target => exact absurd hg (hc target)

end Child

/-! ## A name in a directory of two trees -/

/-- The operations of two trees fail with the same error, or give trees that are related. -/
inductive InStep (R : FileTree → FileTree → Prop) :
    Except FileError FileTree → Except FileError FileTree → Prop where
  | ok {s t : FileTree} (h : R s t) : InStep R (.ok s) (.ok t)
  | error (e : FileError) : InStep R (.error e) (.error e)

theorem InStep.ifNamed {R : FileTree → FileTree → Prop} {x y : Except FileError FileTree} (h : InStep R x y) :
    InStep R (ifNamed p n x) (ifNamed p n y) := by
  unfold FileTree.ifNamed
  split
  · exact .error _
  · split
    · exact .error _
    · exact h

/-- Two trees are left as they are, or get the same entry at the key, which is no link. -/
def SamePut (s t : FileTree) (k : Key) (s' t' : FileTree) : Prop :=
  s' = s ∧ t' = t ∨ ∃ e, (∀ target, e ≠ .link target) ∧ s' = s.put k e ∧ t' = t.put k e

section InStep

variable (hs : Leads s cwd root d) (ht : Leads t cwd root d) (hn : IsEntryName n.toList)
  (hc : ∀ target, s.get? (d ++ [n]) ≠ some (.link target)) (hg : t.get? (d ++ [n]) = s.get? (d ++ [n]))
include hs ht hn hc hg

theorem resolve_child_congr : t.resolve cwd f (root.child n) = s.resolve cwd f (root.child n) := by
  rw [resolve_child_eq hs hn hc, resolve_child_eq ht hn (by rw [hg]; exact hc)]
  unfold placeAt
  rw [hg]

theorem stat_child_congr : t.stat cwd (root.child n) = s.stat cwd (root.child n) := by
  unfold stat
  rw [resolve_child_congr hs ht hn hc hg]

theorem makeDirectories_child_inStep : InStep (SamePut s t (d ++ [n]))
    (s.makeDirectories cwd (root.child n)) (t.makeDirectories cwd (root.child n)) := by
  rw [makeDirectories_child_eq hs hn hc, makeDirectories_child_eq ht hn (by rw [hg]; exact hc), hg]
  refine InStep.ifNamed ?_
  cases s.get? (d ++ [n]) with
  | none => exact .ok (Or.inr ⟨.directory, nofun, rfl, rfl⟩)
  | some e =>
    cases e with
    | directory => exact .ok (Or.inl ⟨rfl, rfl⟩)
    | file body x => exact .error _
    | link target => exact .error _

theorem write_child_inStep {body : Body} : InStep (SamePut s t (d ++ [n]))
    (s.write cwd (root.child n) body) (t.write cwd (root.child n) body) := by
  rw [write_child_eq hs hn hc, write_child_eq ht hn (by rw [hg]; exact hc), hg]
  refine InStep.ifNamed ?_
  cases s.get? (d ++ [n]) with
  | none => exact .ok (Or.inr ⟨.file body false, nofun, rfl, rfl⟩)
  | some e =>
    cases e with
    | file b x => exact .ok (Or.inr ⟨.file body x, nofun, rfl, rfl⟩)
    | directory => exact .error _
    | link target => exact .error _

end InStep

/-- Writing fails with the same errors when the name is a directory's in both trees or in none. -/
theorem write_child_error_iff {body : Body} {cwd' : Key} {e : FileError} (hs : Leads s cwd root d)
    (ht : Leads t cwd' root d) (hn : IsEntryName n.toList) (hc : ∀ target, s.get? (d ++ [n]) ≠ some (.link target))
    (hc' : ∀ target, t.get? (d ++ [n]) ≠ some (.link target))
    (hdir : t.get? (d ++ [n]) = some .directory ↔ s.get? (d ++ [n]) = some .directory) :
    t.write cwd' (root.child n) body = .error e ↔ s.write cwd (root.child n) body = .error e := by
  rw [write_child_eq hs hn hc, write_child_eq ht hn hc']
  unfold ifNamed
  split
  · exact Iff.rfl
  · split
    · exact Iff.rfl
    · have hcases : ∀ {u : FileTree}, (∀ target, u.get? (d ++ [n]) ≠ some (.link target)) →
          ((match u.get? (d ++ [n]) with
            | none => .ok (u.put (d ++ [n]) (.file body false))
            | some (.file _ x) => .ok (u.put (d ++ [n]) (.file body x))
            | some _ => .error .isDirectory : Except FileError FileTree) = .error e ↔
          u.get? (d ++ [n]) = some .directory ∧ FileError.isDirectory = e) := by
        intro u hu
        cases hg : u.get? (d ++ [n]) with
        | none => simp
        | some entry =>
          cases entry with
          | file b x => simp
          | directory => simp
          | link target => exact absurd hg (hu target)
      rw [hcases hc, hcases hc', hdir]

end CipherCorpus.FileTree
