import CipherCorpus.Proofs.Archive.Unpack
import CipherCorpus.Proofs.FileTree.KeyPath
import CipherCorpus.Proofs.FileTree.Outside

/-!
# Unpacking plain archives

The `extraction` of an archive is what it is unpacked to in an empty tree.  An archive that holds files
and directories only is unpacked to the same into any empty directory, and nothing else is changed
(`unpack_of_isPlain`).

Each step of unpacking is taken in the two trees side by side: while the tree under the directory mirrors
the other one (`Mirrors`), a path in it is resolved as its mirror image is (`Mirrors.resolve`), so every
step has the same outcome and keeps the mirror (`Twin`).
-/

namespace CipherCorpus.Archive

open FileTree CipherCorpus.Path Unpacking

variable {α β : Type} {f : Bool} {top k : Key} {t0 s t : FileTree} {ns : List String} {kind : Kind}
  {data : List UInt8}

/-- What an archive is unpacked to in an empty tree. -/
def extraction (kind : Kind) (data : List UInt8) : Except UnpackFault Unit × FileTree :=
  (unpack kind [] data ⟨"/"⟩).run.run .empty

/-- The members of an archive are files and directories. -/
def isPlain : Kind → List UInt8 → Bool
  | .tarGzip, data => (Tar.read (gunzip data)).1.all fun m =>
      m.kind != .symbolicLink && m.kind != .hardLink
  | .zip, data => (Zip.entries? data.toByteArray).all fun es => es.all fun e => e.isDirectory || !e.isLink

/-- Everything strictly under `top` is as in `s`, everything else as in `t0`; `s` has no links. -/
structure Mirrors (top : Key) (t0 s t : FileTree) : Prop where
  inside : ∀ x, x ≠ [] → t.get? (top ++ x) = s.get? x
  outside : ∀ k, isBelow top k = false → t.get? k = t0.get? k
  clear : ∀ k target, s.get? k ≠ some (.link target)

/-! ## Mirrored paths -/

/-- A place under a directory, seen from the root. -/
def liftPlace (top : Key) : Place → Place
  | .present key e => .present (top ++ key) e
  | .absent key => .absent (top ++ key)

def liftStop (top : Key) : FileTree.Stop → FileTree.Stop
  | .place pl => .place (liftPlace top pl)
  | .link base target rest => .link (top ++ base) target rest

/-- The same error, or trees of which the second mirrors the first. -/
inductive Alike (top : Key) (t0 : FileTree) : Except FileError FileTree → Except FileError FileTree → Prop where
  | ok {s t : FileTree} : Mirrors top t0 s t → Alike top t0 (.ok s) (.ok t)
  | error (e : FileError) : Alike top t0 (.error e) (.error e)

theorem Alike.eq_error_iff {e : FileError} {r r' : Except FileError FileTree} (h : Alike top t0 r r') :
    r = .error e ↔ r' = .error e := by
  cases h with
  | ok h => simp
  | error e' => exact Iff.rfl

theorem isEntryName_append (hw : t0.WellFormed) (hd : t0.get? top = some .directory)
    (hk : ∀ n ∈ k, IsEntryName n.toList) : ∀ n ∈ top ++ k, IsEntryName n.toList := by
  intro n hn
  rcases List.mem_append.mp hn with hn | hn
  · exact (hw.isFileName_of_mem (by rw [hd]; simp) n hn).entry
  · exact hk n hn

namespace Mirrors

theorem put {e : Entry} (h : Mirrors top t0 s t) (hk : k ≠ []) (he : ∀ target, e ≠ .link target) :
    Mirrors top t0 (s.put k e) (t.put (top ++ k) e) := by
  refine ⟨fun x hx => ?_, fun j hj => ?_, fun j target hg => ?_⟩
  · by_cases hxk : x = k
    · subst hxk
      rw [get?_put_self t _ (by simp [hx]), get?_put_self s _ hx]
    · rw [get?_put_ne t _ (by simpa using hxk), get?_put_ne s _ hxk]
      exact h.inside x hx
  · rw [get?_put_ne t]
    · exact h.outside j hj
    · rintro rfl
      rw [isBelow_append hk] at hj
      cases hj
  · by_cases hjk : j = k
    · subst hjk
      rw [get?_put_self s _ hk] at hg
      exact he target (Option.some.inj hg)
    · rw [get?_put_ne s _ hjk] at hg
      exact h.clear j target hg

theorem erase (h : Mirrors top t0 s t) (hk : k ≠ []) :
    Mirrors top t0 (s.erase k) (t.erase (top ++ k)) := by
  refine ⟨fun x hx => ?_, fun j hj => ?_, fun j target hg => ?_⟩
  · by_cases hxk : x = k
    · subst hxk
      rw [get?_erase_self t (by simp [hx]), get?_erase_self s hx]
    · rw [get?_erase_ne t (by simpa using hxk), get?_erase_ne s hxk]
      exact h.inside x hx
  · rw [get?_erase_ne t]
    · exact h.outside j hj
    · rintro rfl
      rw [isBelow_append hk] at hj
      cases hj
  · by_cases hjk : j = k
    · subst hjk
      rw [get?_erase_self s hk] at hg
      cases hg
    · rw [get?_erase_ne s hjk] at hg
      exact h.clear j target hg

theorem scan (h : Mirrors top t0 s t) : ∀ {ns : List String} {place : Key},
    (∀ n ∈ ns, IsEntryName n.toList) →
      t.scan f (top ++ place) ns = (s.scan f place ns).map (liftStop top) := by
  intro ns
  induction ns with
  | nil => exact fun _ => rfl
  | cons n rest ih =>
    intro place hns
    obtain ⟨hn, hrest⟩ := List.forall_mem_cons.mp hns
    have h1 : n ≠ "." := fun he => hn.2.2.1 (by rw [he]; rfl)
    have h2 : n ≠ ".." := fun he => hn.2.2.2 (by rw [he]; rfl)
    rw [FileTree.scan, FileTree.scan, if_neg h1, if_neg h1, if_neg h2, if_neg h2]
    by_cases h3 : nameLimit < n.utf8ByteSize
    · rw [if_pos h3, if_pos h3]
      rfl
    · rw [if_neg h3, if_neg h3, List.append_assoc]
      dsimp only
      rw [h.inside (place ++ [n]) (by simp)]
      cases hg : s.get? (place ++ [n]) with
      | none =>
        dsimp only
        split
        · rfl
        · rfl
      | some e =>
        cases e with
        | directory => exact ih hrest
        | link target => exact absurd hg (h.clear _ target)
        | file body x =>
          dsimp only
          split
          · rfl
          · rfl

/-- The directories on the way are not touched. -/
theorem get?_of_prefix (h : Mirrors top t0 s t) (hw : t0.WellFormed) (hd : t0.get? top = some .directory)
    {j : Key} (hj : j <+: top) : t.get? j = some .directory := by
  have hout : isBelow top j = false := by
    rw [← Bool.not_eq_true, isBelow_iff]
    rintro ⟨x, hx, rfl⟩
    have hlength := hj.length_le
    rw [List.length_append] at hlength
    exact hx (List.length_eq_zero_iff.mp (by omega))
  rw [h.outside j hout]
  by_cases he : j = top
  · rw [he, hd]
  · exact hw.directory_of_prefix hj he (by rw [hd]; simp)

/-- A path under the directory is resolved as its mirror image is. -/
theorem resolve (h : Mirrors top t0 s t) (hw : t0.WellFormed) (hd : t0.get? top = some .directory)
    (hk : ∀ n ∈ k, IsEntryName n.toList) :
    t.resolve [] f (pathOf (top ++ k)) = (s.resolve [] f (pathOf k)).map (liftPlace top) := by
  have htop : ∀ n ∈ top, IsFileName n := hw.isFileName_of_mem (by rw [hd]; simp)
  have hstep : ∀ n ∈ k, IsStep n := fun n hn => isStep_of_isEntryName (hk n hn)
  have hall : ∀ n ∈ top ++ k, IsStep n := fun n hn =>
    isStep_of_isEntryName (isEntryName_append hw hd hk n hn)
  have hzero : (pathOf (top ++ k)).text.toList.any (·.toNat == 0) =
      (pathOf k).text.toList.any (·.toNat == 0) := by
    have hiff : ZeroFree (pathOf (top ++ k)).text ↔ ZeroFree (pathOf k).text := by
      rw [zeroFree_pathOf, zeroFree_pathOf]
      constructor
      · exact fun h n hn => h n (List.mem_append_right _ hn)
      · intro h n hn
        rcases List.mem_append.mp hn with hn | hn
        · exact (htop n hn).zeroFree
        · exact h n hn
    rw [Bool.eq_iff_iff, ← not_iff_not, Bool.not_eq_true, Bool.not_eq_true]
    exact hiff
  have hprefix : ∀ j, j <+: top → t.get? ([] ++ j) = some .directory := fun j hj =>
    (List.nil_append j).symm ▸ h.get?_of_prefix hw hd hj
  have hscan : t.scan f [] (top ++ k) = (s.scan f [] k).map (liftStop top) := by
    rw [scan_append (fun n hn => (htop n hn).looksUp) hprefix, List.nil_append,
      ← h.scan hk, List.append_nil]
  unfold FileTree.resolve
  dsimp only
  rw [hzero, startOf_pathOf, startOf_pathOf, walkNames_pathOf hall, walkNames_pathOf hstep]
  split
  · rfl
  · rw [toList_pathOf, toList_pathOf, List.isEmpty_cons, List.isEmpty_cons, walk, walk, hscan]
    cases hs : s.scan f [] k with
    | error e => rfl
    | ok stop =>
      cases stop with
      | place pl => rfl
      | link base target rest =>
        obtain ⟨j, hj⟩ := ((scan_iff k).mp hs).exists_link
        exact absurd hj (h.clear j target)

/-! ## Mirrored operations -/

section Operations

variable (h : Mirrors top t0 s t) (hw : t0.WellFormed) (hd : t0.get? top = some .directory)
  (hk : ∀ n ∈ k, IsEntryName n.toList)
include h hw hd hk

theorem linkStat : t.linkStat [] (pathOf (top ++ k)) =
    (s.linkStat [] (pathOf k)).map fun r => (top ++ r.1, r.2) := by
  unfold FileTree.linkStat
  rw [h.resolve hw hd hk]
  cases s.resolve [] false (pathOf k) with
  | error e => rfl
  | ok place => cases place <;> rfl

theorem stat : t.stat [] (pathOf (top ++ k)) =
    (s.stat [] (pathOf k)).map fun r => (top ++ r.1, r.2) := by
  unfold FileTree.stat
  rw [h.resolve hw hd hk]
  cases s.resolve [] true (pathOf k) with
  | error e => rfl
  | ok place => cases place <;> rfl

theorem isDirectory : t.isDirectory [] (pathOf (top ++ k)) = s.isDirectory [] (pathOf k) := by
  unfold FileTree.isDirectory
  rw [h.stat hw hd hk]
  cases s.stat [] (pathOf k) with
  | error e => rfl
  | ok r => rfl

theorem makeDirectory : Alike top t0 (s.makeDirectory [] (pathOf k)) (t.makeDirectory [] (pathOf (top ++ k))) := by
  unfold FileTree.makeDirectory
  rw [withoutSeparator_pathOf (isEntryName_append hw hd hk), withoutSeparator_pathOf hk, h.resolve hw hd hk]
  cases hr : s.resolve [] false (pathOf k) with
  | error e => exact .error e
  | ok place =>
    cases place with
    | present key e => exact .error _
    | absent key =>
      obtain ⟨-, d, n, hkey, -⟩ := sound_of_resolve hr
      exact .ok (h.put (by simp [hkey]) nofun)

theorem removeFile : Alike top t0 (s.removeFile [] (pathOf k)) (t.removeFile [] (pathOf (top ++ k))) := by
  unfold FileTree.removeFile
  rw [h.linkStat hw hd hk]
  cases hs : s.linkStat [] (pathOf k) with
  | error e => exact .error e
  | ok r =>
    obtain ⟨key, e⟩ := r
    have hsound := sound_of_resolve (linkStat_eq hs)
    cases e with
    | directory => exact .error _
    | file body x => exact .ok (h.erase (ne_nil_of_get? (hsound.resolve_left (by simp)) (by simp)))
    | link target => exact absurd (hsound.resolve_left (by simp)) (h.clear key target)

theorem write {body : Body} :
    Alike top t0 (s.write [] (pathOf k) body) (t.write [] (pathOf (top ++ k)) body) := by
  have hall := isEntryName_append hw hd hk
  by_cases hk0 : k = []
  · subst hk0
    have hres := h.resolve hw hd hk (f := true)
    rw [resolve_pathOf_nil] at hres
    rw [write_of_directory (withoutSeparator_pathOf hk) (resolve_pathOf_nil s true),
      write_of_directory (withoutSeparator_pathOf hall) hres]
    exact .error _
  · unfold FileTree.write
    rw [if_neg (by rw [endsWithSeparator_pathOf hk hk0]; decide),
      if_neg (by rw [endsWithSeparator_pathOf hall (by simp [hk0])]; decide), h.resolve hw hd hk]
    cases hr : s.resolve [] true (pathOf k) with
    | error e => exact .error e
    | ok place =>
      have hsound := sound_of_resolve hr
      cases place with
      | absent key =>
        obtain ⟨-, d, n, hkey, -⟩ := hsound
        exact .ok (h.put (by simp [hkey]) nofun)
      | present key e =>
        cases e with
        | file b x => exact .ok (h.put (ne_nil_of_get? (hsound.resolve_left (by simp)) (by simp)) nofun)
        | directory => exact .error _
        | link target => exact .error _

theorem orDirectory {r r' : Except FileError FileTree} (hr : Alike top t0 r r') :
    Alike top t0 (s.orDirectory [] (pathOf k) r) (t.orDirectory [] (pathOf (top ++ k)) r') := by
  cases hr with
  | ok h1 => exact .ok h1
  | error e =>
    unfold FileTree.orDirectory
    dsimp only
    rw [h.isDirectory hw hd hk]
    split
    · exact .ok h
    · exact .error e

omit hk in
theorem makeChain : ∀ {k : Key} (n m : Nat), (∀ x ∈ k, IsEntryName x.toList) → k.length ≤ n →
    (top ++ k).length ≤ m → Alike top t0 (s.makeChain [] (ancestors.go n (pathOf k)))
      (t.makeChain [] (ancestors.go m (pathOf (top ++ k)))) := by
  intro k
  induction k using List.reverseRecOn with
  | nil =>
    intro n m hk _ _
    obtain ⟨tail, hs⟩ := exists_go_eq_cons n (pathOf [])
    obtain ⟨tail', ht⟩ := exists_go_eq_cons m (pathOf (top ++ []))
    have hres : ∀ f, t.resolve [] f (pathOf (top ++ [])) = .ok (.present (top ++ []) .directory) := by
      intro f
      rw [h.resolve hw hd hk, resolve_pathOf_nil]
      rfl
    rw [hs, ht, makeChain_of_directory (text_pathOf_ne _) (withoutSeparator_pathOf hk) (resolve_pathOf_nil s),
      makeChain_of_directory (text_pathOf_ne _)
        (withoutSeparator_pathOf (isEntryName_append hw hd hk)) hres]
    exact .ok h
  | append_singleton d x ih =>
    intro n m hk hn hm
    have hd' : ∀ y ∈ d, IsEntryName y.toList := fun y hy => hk y (List.mem_append_left _ hy)
    have hx : IsEntryName x.toList := hk x (by simp)
    rw [List.length_append, List.length_singleton] at hn
    rw [← List.append_assoc, List.length_append, List.length_singleton] at hm
    obtain ⟨n, rfl⟩ : ∃ i, n = i + 1 := ⟨n - 1, by omega⟩
    obtain ⟨m, rfl⟩ : ∃ i, m = i + 1 := ⟨m - 1, by omega⟩
    have hs : ancestors.go (n + 1) (pathOf (d ++ [x])) =
        pathOf (d ++ [x]) :: ancestors.go n (pathOf d) := by
      rw [ancestors.go, parent?_pathOf hd' hx]
    have ht : ancestors.go (m + 1) (pathOf (top ++ (d ++ [x]))) =
        pathOf (top ++ (d ++ [x])) :: ancestors.go m (pathOf (top ++ d)) := by
      rw [← List.append_assoc, ancestors.go, parent?_pathOf (isEntryName_append hw hd hd') hx]
    have hmade := h.makeDirectory hw hd hk
    have hchain := ih n m hd' (by omega) (by omega)
    rw [hs, ht]
    by_cases hnf : s.makeDirectory [] (pathOf (d ++ [x])) = .error .notFound
    · rw [makeChain_of_notFound (text_pathOf_ne _) hnf,
        makeChain_of_notFound (text_pathOf_ne _) (hmade.eq_error_iff.mp hnf)]
      generalize s.makeChain [] (ancestors.go n (pathOf d)) = r at hchain ⊢
      generalize t.makeChain [] (ancestors.go m (pathOf (top ++ d))) = r' at hchain ⊢
      cases hchain with
      | error e => exact .error e
      | ok h1 =>
        simp only [bind, Except.bind]
        exact h1.orDirectory hw hd hk (h1.makeDirectory hw hd hk)
    · rw [makeChain_of_ne (text_pathOf_ne _) hnf,
        makeChain_of_ne (text_pathOf_ne _) fun ht => hnf (hmade.eq_error_iff.mpr ht)]
      exact h.orDirectory hw hd hk hmade

theorem makeDirectories :
    Alike top t0 (s.makeDirectories [] (pathOf k)) (t.makeDirectories [] (pathOf (top ++ k))) :=
  h.makeChain hw hd _ _ hk (length_le_pieces_pathOf hk)
    (length_le_pieces_pathOf (isEntryName_append hw hd hk))

end Operations

end Mirrors

/-! ## Names of members -/

/-- A name among the parts of a path is the name of an entry. -/
theorem isEntryName_of_mem_parts {p : Path} {n : String} (h : PathPart.name n ∈ p.parts) :
    IsEntryName n.toList := by
  have hpart : ∀ {piece}, piece ∈ p.pieces → isFiller piece = false → partOf piece = .name n →
      IsEntryName n.toList := by
    intro piece hm hf he
    unfold partOf at he
    split at he
    · cases he
    · next hup =>
      cases he
      simp only [isFiller, Bool.or_eq_false_iff, beq_eq_false_iff_ne] at hf
      rw [String.toList_ofList]
      exact ⟨Text.notMem_of_mem_splitOn hm, hf.1, hf.2, by simpa using hup⟩
  have htail : ∀ {first rest}, p.pieces = first :: rest →
      PathPart.name n ∈ (rest.filter (!isFiller ·)).map partOf → IsEntryName n.toList := by
    intro first rest hp hm
    obtain ⟨piece, hm, he⟩ := List.mem_map.mp hm
    obtain ⟨hm, hf⟩ := List.mem_filter.mp hm
    exact hpart (hp ▸ List.mem_cons_of_mem _ hm) (by simpa using hf) he
  unfold parts at h
  split at h
  · cases h
  · next first rest hp =>
    dsimp only at h
    split at h
    · exact htail hp ((List.mem_cons.mp h).resolve_left (by simp))
    · split at h
      · exact htail hp h
      · next hne =>
        split at h
        · exact htail hp ((List.mem_cons.mp h).resolve_left (by simp))
        · next hdot =>
          rcases List.mem_cons.mp h with h | h
          · refine hpart (hp ▸ List.mem_cons_self) ?_ h.symm
            simp only [isFiller, Bool.or_eq_false_iff]
            exact ⟨by simpa using hne, by simpa using hdot⟩
          · exact htail hp h

theorem isEntryName_of_memberNames? {path : List UInt8} {names : List String}
    (h : memberNames? path = some names) : ∀ n ∈ names, IsEntryName n.toList := by
  unfold memberNames? at h
  have hparts : ∀ n, PathPart.name n ∈ (Path.parts ⟨String.ofList (Text.decodeLossy path)⟩) →
      IsEntryName n.toList := fun n hn => isEntryName_of_mem_parts hn
  revert h hparts
  generalize Path.parts ⟨String.ofList (Text.decodeLossy path)⟩ = parts
  induction parts generalizing names with
  | nil =>
    intro h _
    cases h
    exact nofun
  | cons part rest ih =>
    intro h hparts
    rw [List.foldrM_cons] at h
    obtain ⟨below, hbelow, h⟩ := Option.bind_eq_some_iff.mp h
    have hrest := ih hbelow fun n hn => hparts n (List.mem_cons_of_mem _ hn)
    cases part with
    | root =>
      cases h
      exact hrest
    | here =>
      cases h
      exact hrest
    | up => cases h
    | name n =>
      cases h
      exact List.forall_mem_cons.mpr ⟨hparts n List.mem_cons_self, hrest⟩

/-- What each step of a fold keeps holds at its end. -/
theorem of_foldlM {P : β → Prop} {step : β → α → Option β} {l : List α} {b b' : β}
    (hstep : ∀ a ∈ l, ∀ b b', step b a = some b' → P b → P b') (h : l.foldlM step b = some b') (hb : P b) :
    P b' := by
  induction l generalizing b with
  | nil =>
    cases h
    exact hb
  | cons a rest ih =>
    rw [List.foldlM_cons] at h
    obtain ⟨next, hnext, h⟩ := Option.bind_eq_some_iff.mp h
    exact ih (fun x hx => hstep x (List.mem_cons_of_mem _ hx)) h
      (hstep a List.mem_cons_self b next hnext hb)

theorem isEntryName_of_names? {e : Zip.Entry} {names : List String} (h : e.names? = some names) :
    ∀ n ∈ names, IsEntryName n.toList := by
  unfold Zip.Entry.names? at h
  split at h
  · cases h
  · refine of_foldlM (P := fun names => ∀ n ∈ names, IsEntryName n.toList) ?_ h nofun
    intro part hpart above next hnext habove
    cases part with
    | root => cases hnext
    | here =>
      cases hnext
      exact habove
    | up =>
      dsimp only at hnext
      split at hnext
      · cases hnext
      · cases hnext
        exact fun n hn => habove n ((List.dropLast_prefix _).subset hn)
    | name n =>
      cases hnext
      intro m hm
      rcases List.mem_append.mp hm with hm | hm
      · exact habove m hm
      · rw [List.mem_singleton.mp hm]
        exact isEntryName_of_mem_parts hpart

/-! ## Programs in two trees -/

/-- Two programs that do the same in a tree and in its mirror. -/
def Twin (top : Key) (t0 : FileTree) (y x : Unpacking α) : Prop :=
  ∀ s t, Mirrors top t0 s t →
    (x.run.run t).1 = (y.run.run s).1 ∧ Mirrors top t0 (y.run.run s).2 (x.run.run t).2

namespace Twin

theorem pure (a : α) : Twin top t0 (Pure.pure a) (Pure.pure a) := fun _ _ h => ⟨rfl, h⟩

theorem fail : Twin top t0 (fail : Unpacking α) fail := fun _ _ h => ⟨rfl, h⟩

theorem bind {y x : Unpacking α} {g f : α → Unpacking β} (hx : Twin top t0 y x)
    (hf : ∀ a, Twin top t0 (g a) (f a)) : Twin top t0 (y >>= g) (x >>= f) := by
  intro s t h
  obtain ⟨he, h1⟩ := hx s t h
  rw [run_bind, run_bind]
  rcases hs : y.run.run s with ⟨r, s1⟩
  rcases ht : x.run.run t with ⟨r', t1⟩
  rw [hs, ht] at he h1
  obtain rfl : r' = r := he
  cases r' with
  | ok a => exact hf a s1 t1 h1
  | error e => exact ⟨rfl, h1⟩

theorem get_bind {g f : FileTree → Unpacking α} (h : ∀ s t, Mirrors top t0 s t → Twin top t0 (g s) (f t)) :
    Twin top t0 (get >>= g) (get >>= f) := fun s t hm => h s t hm s t hm

theorem alter {g f : FileTree → Except FileError FileTree}
    (h : ∀ s t, Mirrors top t0 s t → Alike top t0 (g s) (f t)) : Twin top t0 (alter g) (alter f) := by
  intro s t hm
  have ha := h s t hm
  rw [run_alter, run_alter]
  generalize g s = r at ha
  generalize f t = r' at ha
  cases ha with
  | ok h1 => exact ⟨rfl, h1⟩
  | error e => exact ⟨rfl, hm⟩

theorem attempt {g f : FileTree → Except FileError FileTree}
    (h : ∀ s t, Mirrors top t0 s t → Alike top t0 (g s) (f t)) : Twin top t0 (attempt g) (attempt f) := by
  intro s t hm
  have ha := h s t hm
  rw [run_attempt, run_attempt]
  generalize g s = r at ha
  generalize f t = r' at ha
  cases ha with
  | ok h1 => exact ⟨rfl, h1⟩
  | error e => exact ⟨rfl, hm⟩

end Twin

section Programs

variable (hw : t0.WellFormed) (hd : t0.get? top = some .directory)
include hw hd

theorem twin_checkInside (hk : ∀ n ∈ k, IsEntryName n.toList) :
    Twin top t0 (checkInside [] (pathOf k)) (checkInside top (pathOf (top ++ k))) := by
  intro s t h
  unfold checkInside
  rw [run_bind, run_bind, run_consult, run_consult, h.stat hw hd hk]
  cases s.stat [] (pathOf k) with
  | error e => exact ⟨rfl, h⟩
  | ok r =>
    have hprefix : top.isPrefixOf (top ++ r.1) = true :=
      List.isPrefixOf_iff_prefix.mpr (List.prefix_append _ _)
    simp only [Except.map, hprefix, List.isPrefixOf_nil_left, if_true]
    exact ⟨rfl, h⟩

theorem twin_makeParents : ∀ {ns : List String} {k : Key}, (∀ n ∈ ns, IsEntryName n.toList) →
    (∀ n ∈ k, IsEntryName n.toList) → Twin top t0 (makeParents [] (pathOf []) ns (pathOf k))
      (makeParents top (pathOf top) ns (pathOf (top ++ k))) := by
  intro ns
  induction ns with
  | nil => exact fun _ _ => .pure ()
  | cons n rest ih =>
    intro k hns hk
    obtain ⟨hn, hrest⟩ := List.forall_mem_cons.mp hns
    have hkn : ∀ m ∈ k ++ [n], IsEntryName m.toList := by simpa [or_imp, forall_and] using ⟨hk, hn⟩
    have hstep : ∀ {j : Key}, (∀ m ∈ j, IsEntryName m.toList) → ∀ m ∈ j, IsStep m :=
      fun hj m hm => isStep_of_isEntryName (hj m hm)
    have htop := isEntryName_append hw hd hk
    unfold makeParents
    rw [child_pathOf (hstep hk) (isStep_of_isEntryName hn),
      child_pathOf (hstep htop) (isStep_of_isEntryName hn), List.append_assoc]
    refine .get_bind fun s t h => ?_
    rw [h.linkStat hw hd hkn]
    cases s.linkStat [] (pathOf (k ++ [n])) with
    | ok r => exact ih hrest hkn
    | error e =>
      refine (twin_checkInside hw hd hk).bind fun _ => ?_
      exact (Twin.alter fun s t h => h.makeDirectories hw hd hkn).bind fun _ => ih hrest hkn

theorem twin_writeFresh (hk : ∀ n ∈ k, IsEntryName n.toList) (content : List UInt8) :
    Twin top t0 (writeFresh (pathOf k) content) (writeFresh (pathOf (top ++ k)) content) := by
  have hwrite : Twin top t0 (alter (·.writeBytes [] (pathOf k) content))
      (alter (·.writeBytes [] (pathOf (top ++ k)) content)) := .alter fun s t h => h.write hw hd hk
  unfold writeFresh
  refine .get_bind fun s t h => ?_
  rw [h.resolve hw hd hk]
  cases s.resolve [] false (pathOf k) with
  | error e => exact .fail
  | ok place =>
    cases place with
    | absent key => exact hwrite
    | present key e => exact (Twin.alter fun s t h => h.removeFile hw hd hk).bind fun _ => hwrite

theorem twin_makeDirectoryOnce (hk : ∀ n ∈ k, IsEntryName n.toList) :
    Twin top t0 (makeDirectoryOnce (pathOf k)) (makeDirectoryOnce (pathOf (top ++ k))) := by
  unfold makeDirectoryOnce
  refine (Twin.attempt fun s t h => h.makeDirectory hw hd hk).bind fun made => ?_
  split
  · exact .pure ()
  · refine .get_bind fun s t h => ?_
    rw [h.isDirectory hw hd hk]
    split
    · exact .pure ()
    · exact .fail
  · exact .fail

/-- A member that is no link is unpacked alike. -/
theorem twin_unpackMember {m : Tar.Member} (hm : (m.kind != .symbolicLink && m.kind != .hardLink) = true) :
    Twin top t0 (unpackMember [] m) (unpackMember top m) := by
  have htop : ∀ n ∈ top, IsStep n := fun n hn =>
    isStep_of_isEntryName (hw.isFileName_of_mem (by rw [hd]; simp) n hn).entry
  unfold unpackMember
  dsimp only
  cases hnames : memberNames? m.path with
  | none => exact .pure ()
  | some names =>
    have hns := isEntryName_of_memberNames? hnames
    cases names with
    | nil => exact .pure ()
    | cons name more =>
      have hlast : ∀ n ∈ (name :: more).dropLast, IsEntryName n.toList := fun n hn =>
        hns n ((List.dropLast_prefix _).subset hn)
      have hunder : ∀ {ns : List String}, (∀ n ∈ ns, IsEntryName n.toList) →
          under (pathOf top) ns = pathOf (top ++ ns) ∧ under (pathOf []) ns = pathOf ns := by
        intro ns hns
        have hstep : ∀ n ∈ ns, IsStep n := fun n hn => isStep_of_isEntryName (hns n hn)
        exact ⟨under_pathOf hstep htop, under_pathOf hstep (by simp)⟩
      dsimp only
      rw [(hunder hns).1, (hunder hns).2, (hunder hlast).1, (hunder hlast).2]
      have hparents := twin_makeParents hw hd hlast (k := []) (by simp)
      rw [List.append_nil] at hparents
      refine hparents.bind fun _ => (twin_checkInside hw hd hlast).bind fun _ => ?_
      cases hkind : m.kind with
      | note => exact .pure ()
      | directory => exact twin_makeDirectoryOnce hw hd hns
      | file => exact twin_writeFresh hw hd hns _
      | symbolicLink =>
        rw [hkind] at hm
        cases hm
      | hardLink =>
        rw [hkind] at hm
        cases hm

theorem twin_unpackMembers {ms : List Tar.Member}
    (hms : ∀ m ∈ ms, (m.kind != .symbolicLink && m.kind != .hardLink) = true) :
    Twin top t0 (unpackMembers [] ms) (unpackMembers top ms) := by
  induction ms with
  | nil => exact .pure ()
  | cons m rest ih =>
    obtain ⟨hm, hrest⟩ := List.forall_mem_cons.mp hms
    unfold unpackMembers
    split
    · exact (twin_unpackMember hw hd hm).bind fun _ => ih hrest
    · exact ih hrest

theorem twin_unpackAll {ms : List Tar.Member}
    (hms : ∀ m ∈ ms, (m.kind != .symbolicLink && m.kind != .hardLink) = true) :
    Twin top t0 (unpackAll [] ms) (unpackAll top ms) := by
  induction ms with
  | nil => exact .pure ()
  | cons m rest ih =>
    obtain ⟨hm, hrest⟩ := List.forall_mem_cons.mp hms
    exact (twin_unpackMember hw hd hm).bind fun _ => ih hrest

/-- The directory of an entry is made alike. -/
theorem twin_makeParent {names : List String} (hns : ∀ n ∈ names, IsEntryName n.toList) :
    Twin top t0 (alter (·.makeDirectories [] ((pathOf names).parent?.getD (pathOf []))))
      (alter (·.makeDirectories [] ((pathOf (top ++ names)).parent?.getD (pathOf top)))) := by
  refine .alter fun s t h => ?_
  rcases List.eq_nil_or_concat' names with rfl | ⟨d, n, rfl⟩
  · -- the directory itself is there, and so is the one above it
    have hstay : ∀ j, j <+: top → t.makeDirectories [] (pathOf j) = .ok t := by
      intro j hj
      have hname : ∀ n ∈ j, IsFileName n := fun n hn =>
        hw.isFileName_of_mem (by rw [hd]; simp) n (hj.subset hn)
      obtain ⟨parents, hparents⟩ := ancestors_eq_cons (pathOf j)
      unfold FileTree.makeDirectories
      rw [hparents]
      exact makeChain_of_directory (text_pathOf_ne j)
        (withoutSeparator_pathOf fun n hn => (hname n hn).entry)
        fun f => resolve_pathOf hname fun i hi => h.get?_of_prefix hw hd (hi.trans hj)
    have hs : s.makeDirectories [] (pathOf []) = .ok s := by
      obtain ⟨parents, hparents⟩ := ancestors_eq_cons (pathOf [])
      unfold FileTree.makeDirectories
      rw [hparents]
      exact makeChain_of_directory (text_pathOf_ne []) rfl (resolve_pathOf_nil s)
    rw [parent?_pathOf_nil, List.append_nil]
    dsimp only [Option.getD_none]
    rw [hs]
    rcases List.eq_nil_or_concat' top with rfl | ⟨d, n, rfl⟩
    · rw [parent?_pathOf_nil]
      dsimp only [Option.getD_none]
      rw [hstay [] List.nil_prefix]
      exact .ok h
    · have htop : ∀ x ∈ d ++ [n], IsEntryName x.toList := fun x hx =>
        (hw.isFileName_of_mem (by rw [hd]; simp) x hx).entry
      rw [parent?_pathOf (fun x hx => htop x (List.mem_append_left _ hx)) (htop n (by simp))]
      dsimp only [Option.getD_some]
      rw [hstay d (List.prefix_append _ _)]
      exact .ok h
  · have hd' : ∀ x ∈ d, IsEntryName x.toList := fun x hx => hns x (List.mem_append_left _ hx)
    have hn : IsEntryName n.toList := hns n (by simp)
    rw [← List.append_assoc, parent?_pathOf hd' hn, parent?_pathOf (isEntryName_append hw hd hd') hn]
    exact h.makeDirectories hw hd hd'

/-- An entry that is no link is unpacked alike. -/
theorem twin_unpackEntry (input : ByteArray) {e : Zip.Entry} (he : (e.isDirectory || !e.isLink) = true) :
    Twin top t0 (unpackEntry input (pathOf []) e) (unpackEntry input (pathOf top) e) := by
  have htop : ∀ n ∈ top, IsStep n := fun n hn =>
    isStep_of_isEntryName (hw.isFileName_of_mem (by rw [hd]; simp) n hn).entry
  unfold unpackEntry
  cases hcontent : Zip.content? input e with
  | none => exact .fail
  | some content =>
    cases hnames : e.names? with
    | none => exact .fail
    | some names =>
      have hns := isEntryName_of_names? hnames
      have hstep : ∀ n ∈ names, IsStep n := fun n hn => isStep_of_isEntryName (hns n hn)
      dsimp only
      rw [under_pathOf hstep htop, under_pathOf hstep (by simp), List.nil_append]
      by_cases hdir : e.isDirectory = true
      · rw [if_pos hdir, if_pos hdir]
        exact .alter fun s t h => h.makeDirectories hw hd hns
      · have hlink : ¬ e.isLink = true := by simpa [hdir] using he
        rw [if_neg hdir, if_neg hdir, if_neg hlink, if_neg hlink]
        refine (twin_makeParent hw hd hns).bind fun _ => ?_
        refine (Twin.alter fun s t h => h.write hw hd hns).bind fun _ => ?_
        split
        · exact .fail
        · exact .pure ()

theorem twin_unpackEntries (input : ByteArray) {es : List Zip.Entry}
    (hes : ∀ e ∈ es, (e.isDirectory || !e.isLink) = true) :
    Twin top t0 (unpackEntries input (pathOf []) es) (unpackEntries input (pathOf top) es) := by
  induction es with
  | nil => exact .pure ()
  | cons e rest ih =>
    obtain ⟨he, hrest⟩ := List.forall_mem_cons.mp hes
    exact (twin_unpackEntry hw hd input he).bind fun _ => ih hrest

end Programs

/-! ## Archives -/

/-- An empty directory of a well-formed tree to which a path leads. -/
structure Destination (t : FileTree) (cwd : Key) (dest : Path) (top : Key) : Prop where
  tree : t.WellFormed
  directory : t.get? top = some .directory
  found : t.stat cwd dest = .ok (top, .directory)
  isThere : ∃ r, t.linkStat cwd dest = .ok r
  made : t.makeDirectories cwd dest = .ok t
  empty : ∀ x, x ≠ [] → t.get? (top ++ x) = none

theorem destination_root : Destination .empty [] ⟨"/"⟩ [] := by
  have hres : ∀ f, FileTree.empty.resolve [] f ⟨"/"⟩ = .ok (.present [] .directory) :=
    resolve_pathOf_nil .empty
  obtain ⟨parents, hparents⟩ := ancestors_eq_cons ⟨"/"⟩
  refine ⟨wellFormed_empty, rfl, stat_iff.mpr (hres true), ⟨_, linkStat_iff.mpr (hres false)⟩, ?_, ?_⟩
  · unfold FileTree.makeDirectories
    rw [hparents]
    exact makeChain_of_directory (by decide) rfl hres
  · intro x hx
    unfold get?
    rw [if_neg (by simpa using hx)]
    rfl

variable {cwd : Key} {dest : Path}

theorem Destination.prepare (h : Destination t cwd dest top) : (prepare cwd dest).run.run t = (.ok top, t) := by
  obtain ⟨r, hr⟩ := h.isThere
  unfold Archive.prepare
  rw [run_get_bind, hr]
  dsimp only
  rw [run_bind, run_consult, h.found]
  dsimp only
  rw [run_pure]

theorem Destination.mirrors (h : Destination t cwd dest top) : Mirrors top t .empty t := by
  have hnone : ∀ x, x ≠ [] → FileTree.empty.get? x = none := fun x hx => by
    unfold get?
    rw [if_neg hx]
    rfl
  refine ⟨fun x hx => (h.empty x hx).trans (hnone x hx).symm, fun _ _ => rfl, fun k target hk => ?_⟩
  rw [hnone k (ne_nil_of_get? hk (by simp))] at hk
  cases hk

/-- **A plain archive is unpacked into an empty directory as into an empty tree**, and nothing else is
changed. -/
theorem unpack_of_isPlain (hp : isPlain kind data = true) (h : Destination t cwd dest top) :
    ((unpack kind cwd data dest).run.run t).1 = (extraction kind data).1 ∧
      Mirrors top t (extraction kind data).2 ((unpack kind cwd data dest).run.run t).2 := by
  have hw := h.tree
  have hd := h.directory
  cases kind with
  | tarGzip =>
    have hms := List.all_eq_true.mp (show (Tar.read (gunzip data)).1.all _ = true from hp)
    show ((unpackTar cwd data dest).run.run t).1 = ((unpackTar [] data ⟨"/"⟩).run.run .empty).1 ∧
      Mirrors top t ((unpackTar [] data ⟨"/"⟩).run.run .empty).2 ((unpackTar cwd data dest).run.run t).2
    unfold unpackTar
    rw [run_bind, run_bind, h.prepare, destination_root.prepare]
    generalize Tar.read (gunzip data) = members at hms ⊢
    refine Twin.bind (twin_unpackMembers hw hd hms) (fun _ => ?_) _ _ h.mirrors
    split
    · exact twin_unpackAll hw hd fun m hm =>
        hms m (List.mem_of_mem_filter (List.mem_mergeSort.mp hm))
    · exact .fail
  | zip =>
    have hes : (Zip.entries? data.toByteArray).all (fun es => es.all fun e => e.isDirectory || !e.isLink) =
      true := hp
    show ((unpackZip cwd data dest).run.run t).1 = ((unpackZip [] data ⟨"/"⟩).run.run .empty).1 ∧
      Mirrors top t ((unpackZip [] data ⟨"/"⟩).run.run .empty).2 ((unpackZip cwd data dest).run.run t).2
    unfold unpackZip
    dsimp only
    generalize Zip.entries? data.toByteArray = entries? at hes ⊢
    cases entries? with
    | none => exact ⟨rfl, h.mirrors⟩
    | some entries =>
      dsimp only
      rw [run_bind, run_bind, run_alter, run_alter, h.made, destination_root.made]
      dsimp only
      rw [run_bind, run_bind, run_consult, run_consult, h.found, destination_root.found]
      exact twin_unpackEntries hw hd _ (List.all_eq_true.mp hes) _ _ h.mirrors

/-- Unpacking into an empty directory changes nothing outside of it. -/
def Confined (kind : Kind) (data : List UInt8) : Prop :=
  ∀ ⦃t : FileTree⦄ ⦃cwd : Key⦄ ⦃dest : Path⦄ ⦃top : Key⦄, Destination t cwd dest top →
    ∀ k, isBelow top k = false → ((unpack kind cwd data dest).run.run t).2.get? k = t.get? k

theorem confined_of_isPlain (hp : isPlain kind data = true) : Confined kind data :=
  fun _ _ _ _ h => (unpack_of_isPlain hp h).2.outside

theorem wellFormed_extraction (kind : Kind) (data : List UInt8) : (extraction kind data).2.WellFormed :=
  wellFormed_unpack wellFormed_empty (get?_startOf_nil _ _) kind data

end CipherCorpus.Archive
