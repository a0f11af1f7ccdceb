import CipherCorpus.Archive.Unpack
import CipherCorpus.Proofs.FileTree.Steps
import CipherCorpus.Proofs.FileTree.WellFormed

/-!
# What unpacking keeps

Unpacking changes the tree by file operations alone, so a property that each of them keeps is kept by
unpacking any archive, sound or not (`Keeps`).  That entries have names is such a property:

    t.Named → ((unpack kind cwd data dest).run.run t).2.Named                (named_unpack)

A file or link is removed only where a member is put in the destination, so a property that removing it
there keeps is enough as well (`ClosedUnder`).

That nothing outside of the destination changes is a property of the archive (`StaysBelow`): a link in
it may lead elsewhere.
-/

namespace CipherCorpus.Archive

open FileTree Unpacking

variable {α β : Type} {P : FileTree → Prop}

/-- Whatever it comes to, `x` keeps the property `P` of the tree. -/
def Unpacking.Keeps (P : FileTree → Prop) (x : Unpacking α) : Prop := ∀ t, P t → P (x.run.run t).2

namespace Unpacking

theorem keeps_pure (a : α) : Keeps P (pure a) := fun _ h => h

theorem keeps_fail : Keeps P (fail : Unpacking α) := fun _ h => h

theorem keeps_get : Keeps P (get : Unpacking FileTree) := fun _ h => h

theorem run_bind (x : Unpacking α) (f : α → Unpacking β) (t : FileTree) :
    (x >>= f).run.run t = match x.run.run t with
      | (.ok a, t1) => (f a).run.run t1
      | (.error e, t1) => (.error e, t1) := by
  rw [ExceptT.run_bind, StateT.run_bind]
  show (match x.run.run t with
    | (r, t1) => _) = _
  rcases x.run.run t with ⟨r, t1⟩
  cases r <;> rfl

theorem run_get_bind (f : FileTree → Unpacking α) (t : FileTree) :
    (get >>= f).run.run t = (f t).run.run t := rfl

theorem run_pure (a : α) (t : FileTree) : (pure a : Unpacking α).run.run t = (.ok a, t) := rfl

theorem Keeps.bind {x : Unpacking α} {f : α → Unpacking β} (hx : Keeps P x) (hf : ∀ a, Keeps P (f a)) :
    Keeps P (x >>= f) := by
  intro t h
  have h1 := hx t h
  rw [run_bind]
  rcases hr : x.run.run t with ⟨r, t1⟩
  rw [hr] at h1
  cases r with
  | ok a => exact hf a t1 h1
  | error e => exact h1

theorem run_alter (f : FileTree → Except FileError FileTree) (t : FileTree) :
    (alter f).run.run t = match f t with
      | .ok t' => (.ok (), t')
      | .error _ => (.error .unpackFault, t) := by
  unfold alter
  rw [run_bind]
  show (match f t with
    | .ok t' => set t'
    | .error _ => fail : Unpacking Unit).run.run t = _
  cases f t <;> rfl

theorem run_consult (f : FileTree → Except FileError α) (t : FileTree) :
    (consult f).run.run t = match f t with
      | .ok a => (.ok a, t)
      | .error _ => (.error .unpackFault, t) := by
  unfold consult
  rw [run_bind]
  show (match f t with
    | .ok a => pure a
    | .error _ => fail : Unpacking α).run.run t = _
  cases f t <;> rfl

theorem keeps_alter {f : FileTree → Except FileError FileTree}
    (hf : ∀ t t', P t → f t = .ok t' → P t') : Keeps P (alter f) := by
  intro t h
  rw [run_alter]
  cases hr : f t with
  | ok t' => exact hf t t' h hr
  | error e => exact h

theorem keeps_consult (f : FileTree → Except FileError α) : Keeps P (consult f) := by
  intro t h
  rw [run_consult]
  cases f t with
  | ok a => exact h
  | error e => exact h

theorem run_attempt (f : FileTree → Except FileError FileTree) (t : FileTree) :
    (attempt f).run.run t = match f t with
      | .ok t' => (.ok (.ok ()), t')
      | .error e => (.ok (.error e), t) := by
  unfold attempt
  rw [run_bind]
  show (match f t with
    | .ok t' => do
      set t'
      return .ok ()
    | .error e => return .error e : Unpacking (Except FileError Unit)).run.run t = _
  cases f t <;> rfl

theorem keeps_attempt {f : FileTree → Except FileError FileTree}
    (hf : ∀ t t', P t → f t = .ok t' → P t') : Keeps P (attempt f) := by
  intro t h
  rw [run_attempt]
  cases hr : f t with
  | ok t' => exact hf t t' h hr
  | error e => exact h

end Unpacking

theorem keeps_prepare {cwd : Key} {dest : Path}
    (hmake : ∀ t t', P t → t.makeDirectories cwd dest = .ok t' → P t') :
    Keeps P (prepare cwd dest) := by
  have hstat : Keeps P (do return (← consult (·.stat cwd dest)).1) :=
    (keeps_consult _).bind fun _ => keeps_pure _
  unfold prepare
  refine keeps_get.bind fun t => ?_
  dsimp only
  split
  · exact hstat
  · exact (keeps_alter hmake).bind fun _ => hstat

/-! ## Closed properties -/

/-- A property of trees that is kept by every change that unpacking makes, other than to remove. -/
structure Grows (P : FileTree → Prop) : Prop where
  makeDirectories : ∀ {t t' p}, P t → t.makeDirectories [] p = .ok t' → P t'
  makeDirectory : ∀ {t t' p}, P t → t.makeDirectory [] p = .ok t' → P t'
  writeBytes : ∀ {t t' p data}, P t → t.writeBytes [] p data = .ok t' → P t'
  makeLink : ∀ {t t' p target}, P t → t.makeLink [] p target = .ok t' → P t'
  share : ∀ {t : FileTree} {source p k key e}, P t → t.linkStat [] source = .ok (k, e) → e ≠ .directory →
    t.resolve [] false p = .ok (.absent key) → P (t.put key e)

/-- A property of trees that every change which unpacking makes keeps. -/
structure Closed (P : FileTree → Prop) : Prop extends Grows P where
  removeFile : ∀ {t t' p}, P t → t.removeFile [] p = .ok t' → P t'

/-- A path leads to a place at or under `top`. -/
def IsInside (t : FileTree) (top : Key) (p : Path) : Prop := ∃ key e, t.stat [] p = .ok (key, e) ∧ top <+: key

/-- A property that every change which unpacking into `top` makes keeps.  A file or link is removed to
make room for a member, whose directory was found to lie in `top`. -/
structure ClosedUnder (top : Key) (P : FileTree → Prop) : Prop extends Grows P where
  removeFile : ∀ {t t' topPath path names}, P t → memberNames? path = some names → names ≠ [] →
    IsInside t top (under topPath names.dropLast) → t.removeFile [] (under topPath names) = .ok t' → P t'

theorem Closed.closedUnder (hP : Closed P) (top : Key) : ClosedUnder top P :=
  ⟨hP.toGrows, fun h _ _ _ hr => hP.removeFile h hr⟩

/-- What follows the check of a path may use what was checked. -/
theorem keeps_checkInside_bind {top : Key} {p : Path} {f : Unit → Unpacking α}
    (hf : ∀ t, P t → IsInside t top p → P ((f ()).run.run t).2) : Keeps P (checkInside top p >>= f) := by
  intro t h
  unfold checkInside
  rw [run_bind, run_bind, run_consult]
  cases hs : t.stat [] p with
  | error e => exact h
  | ok r =>
    obtain ⟨key, e⟩ := r
    dsimp only
    by_cases hp : top.isPrefixOf key = true
    · rw [if_pos hp]
      exact hf t h ⟨key, e, hs, List.isPrefixOf_iff_prefix.mp hp⟩
    · rw [if_neg hp]
      exact h

section Grows

variable (hP : Grows P)
include hP

theorem keeps_makeParents (top : Key) (topPath : Path) (ns : List String) : ∀ above,
    Keeps P (makeParents top topPath ns above) := by
  induction ns with
  | nil => exact fun _ => keeps_pure _
  | cons n rest ih =>
    intro above
    unfold makeParents
    refine keeps_get.bind fun t => ?_
    split
    · exact ih _
    · exact keeps_checkInside_bind fun t h _ =>
        ((keeps_alter fun _ _ => hP.makeDirectories).bind fun _ => ih _) t h

/-- A file is made anew where the one that is there may be removed. -/
theorem keeps_writeFresh {t : FileTree} {p : Path} (data : List UInt8) (h : P t)
    (hremove : ∀ t', t.removeFile [] p = .ok t' → P t') : P ((writeFresh p data).run.run t).2 := by
  have hwrite : Keeps P (alter (·.writeBytes [] p data)) := keeps_alter fun _ _ => hP.writeBytes
  unfold writeFresh
  rw [run_get_bind]
  split
  · exact hwrite t h
  · rw [run_bind, run_alter]
    cases hr : t.removeFile [] p with
    | error e => exact h
    | ok t' => exact hwrite t' (hremove t' hr)
  · exact h

/-- A link is made anew where what is there may be removed. -/
theorem keeps_linkFresh {t : FileTree} {p : Path} (target : String) (h : P t)
    (hremove : ∀ t', t.removeFile [] p = .ok t' → P t') : P ((linkFresh p target).run.run t).2 := by
  have hlink : Keeps P (alter (·.makeLink [] p target)) := keeps_alter fun _ _ => hP.makeLink
  unfold linkFresh
  rw [run_bind, run_attempt]
  cases hm : t.makeLink [] p target with
  | ok t' => exact hP.makeLink h hm
  | error e =>
    dsimp only
    split
    · exact h
    · rw [run_bind, run_alter]
      cases hr : t.removeFile [] p with
      | error e => exact h
      | ok t' => exact hlink t' (hremove t' hr)
    · exact h

theorem keeps_shareFile (source p : Path) : Keeps P (shareFile source p) := by
  intro t h
  unfold shareFile
  rw [run_bind, run_consult]
  cases hs : t.linkStat [] source with
  | error e => exact h
  | ok r =>
    obtain ⟨k, e⟩ := r
    dsimp only
    split
    · exact h
    · next hne heq =>
      obtain ⟨-, rfl⟩ := Prod.mk.inj heq
      rw [run_get_bind]
      split
      · next hr => exact hP.share h hs hne hr
      · exact h

theorem keeps_makeDirectoryOnce (p : Path) : Keeps P (makeDirectoryOnce p) := by
  unfold makeDirectoryOnce
  refine (keeps_attempt fun _ _ => hP.makeDirectory).bind fun made => ?_
  split
  · exact keeps_pure _
  · refine keeps_get.bind fun t => ?_
    split
    · exact keeps_pure _
    · exact keeps_fail
  · exact keeps_fail

theorem keeps_unpackEntry (input : ByteArray) (topPath : Path) (e : Zip.Entry) :
    Keeps P (unpackEntry input topPath e) := by
  have hmake : ∀ q : Path, Keeps P (alter (·.makeDirectories [] q)) := fun q =>
    keeps_alter fun _ _ => hP.makeDirectories
  have hlink : ∀ (q p : Path) (target : String), Keeps P (do
      alter (·.makeDirectories [] q)
      alter (·.makeLink [] p target)) := fun q p target =>
    (hmake q).bind fun _ => keeps_alter fun _ _ => hP.makeLink
  unfold unpackEntry
  split
  · split
    · dsimp only
      split
      · exact hmake _
      · split
        · split
          · refine keeps_fail.bind fun _ => ?_
            split
            · exact hlink _ _ _
            · exact keeps_fail
          · split
            · exact hlink _ _ _
            · exact keeps_fail
        · refine (hmake _).bind fun _ => (keeps_alter fun _ _ => hP.writeBytes).bind fun _ => ?_
          split
          · exact keeps_fail
          · exact keeps_pure _
    · exact keeps_fail
  · exact keeps_fail

theorem keeps_unpackEntries (input : ByteArray) (topPath : Path) (es : List Zip.Entry) :
    Keeps P (unpackEntries input topPath es) := by
  induction es with
  | nil => exact keeps_pure _
  | cons e rest ih => exact (keeps_unpackEntry hP _ _ e).bind fun _ => ih

end Grows

section ClosedUnder

variable {top : Key} (hP : ClosedUnder top P)
include hP

theorem keeps_unpackMember (m : Tar.Member) : Keeps P (unpackMember top m) := by
  unfold unpackMember
  dsimp only
  split
  · exact keeps_pure _
  · exact keeps_pure _
  · next name more hnames =>
    refine (keeps_makeParents hP.toGrows _ _ _ _).bind fun _ => keeps_checkInside_bind fun t h hin => ?_
    have hremove : ∀ t', t.removeFile [] (under (pathOf top) (name :: more)) = .ok t' → P t' :=
      fun _ => hP.removeFile h hnames (by simp) hin
    split
    · exact h
    · exact keeps_makeDirectoryOnce hP.toGrows _ t h
    · exact keeps_writeFresh hP.toGrows _ h hremove
    · split
      · exact h
      · split
        · exact h
        · exact keeps_linkFresh hP.toGrows _ h hremove
    · split
      · exact h
      · split
        · exact h
        · exact keeps_checkInside_bind (fun t h _ => keeps_shareFile hP.toGrows _ _ t h) t h

theorem keeps_unpackMembers (ms : List Tar.Member) : Keeps P (unpackMembers top ms) := by
  induction ms with
  | nil => exact keeps_pure _
  | cons m rest ih =>
    unfold unpackMembers
    split
    · exact (keeps_unpackMember hP m).bind fun _ => ih
    · exact ih

theorem keeps_unpackAll (ms : List Tar.Member) : Keeps P (unpackAll top ms) := by
  induction ms with
  | nil => exact keeps_pure _
  | cons m rest ih => exact (keeps_unpackMember hP m).bind fun _ => ih

end ClosedUnder

section Closed

variable (hP : Closed P)
include hP

/-- Unpacking keeps a closed property, when making the destination does. -/
theorem keeps_unpack {cwd : Key} {dest : Path}
    (hmake : ∀ t t', P t → t.makeDirectories cwd dest = .ok t' → P t') (kind : Kind)
    (file : List UInt8) : Keeps P (unpack kind cwd file dest) := by
  cases kind with
  | tarGzip =>
    show Keeps P (unpackTar cwd file dest)
    unfold unpackTar
    refine (keeps_prepare hmake).bind fun top => ?_
    dsimp only
    refine (keeps_unpackMembers (hP.closedUnder top) _).bind fun _ => ?_
    split
    · exact keeps_unpackAll (hP.closedUnder top) _
    · exact keeps_fail
  | zip =>
    show Keeps P (unpackZip cwd file dest)
    unfold unpackZip
    dsimp only
    generalize Zip.entries? file.toByteArray = entries?
    cases entries? with
    | none => exact keeps_fail
    | some entries =>
      exact (keeps_alter hmake).bind fun _ =>
        (keeps_consult _).bind fun _ => keeps_unpackEntries hP.toGrows _ _ _

end Closed

/-! ## Names and well-formed trees -/

/-- A free place has a name. -/
theorem named_put_of_resolve {t : FileTree} {cwd key : Key} {p : Path} {f : Bool} {e : Entry}
    (h : t.Named) (hr : t.resolve cwd f p = .ok (.absent key)) : (t.put key e).Named := by
  obtain ⟨-, d, n, hk, hn⟩ := sound_of_resolve hr
  exact h.put fun _ => ⟨d, n, hk, hn⟩

theorem closed_named : Closed Named where
  makeDirectories h hm := (changesOnly_makeDirectories hm).named h
  makeDirectory h hm := (changesOnly_makeDirectory hm).named h
  writeBytes h hw := by
    obtain ⟨place, x, hr, hp, rfl⟩ := write_eq hw
    exact (changesOnly_write _ hr hp x).named h
  removeFile h hr := by
    obtain ⟨key, e, -, -, rfl⟩ := removeFile_eq hr
    exact h.erase key
  makeLink h hm := by
    obtain ⟨key, -, hr, rfl⟩ := makeLink_eq hm
    exact named_put_of_resolve h hr
  share h _ _ hr := named_put_of_resolve h hr

/-- Unpacking any archive gives names to entries only. -/
theorem named_unpack (kind : Kind) (cwd : Key) (file : List UInt8) (dest : Path) :
    Keeps Named (unpack kind cwd file dest) :=
  keeps_unpack closed_named (fun _ _ h hm => (changesOnly_makeDirectories hm).named h) kind file

/-- A path that is read from the top starts at a directory. -/
theorem get?_startOf_nil (t : FileTree) (text : List Char) :
    t.get? (startOf [] text) = some .directory := by
  unfold startOf
  rw [ite_self]
  rfl

theorem closed_wellFormed : Closed WellFormed where
  makeDirectories h hm := h.makeDirectories (fun _ _ => get?_startOf_nil _ _) hm
  makeDirectory h hm := h.makeDirectory (get?_startOf_nil _ _) hm
  writeBytes h hw := h.write (get?_startOf_nil _ _) hw
  removeFile h hr := h.removeFile (get?_startOf_nil _ _) hr
  makeLink h hm := h.makeLink (get?_startOf_nil _ _) hm
  share h hs _ hr := by
    refine h.put_absent (h.fits_of_resolve (get?_startOf_nil _ _) hr) fun target he => ?_
    have hg := h.fits_of_resolve (get?_startOf_nil _ _) (linkStat_eq hs)
    exact h.target _ target (he ▸ hg)

/-- Directories stay when entries are made at free places and files are removed or replaced. -/
theorem get?_directory_of_put {t : FileTree} {k key : Key} {e : Entry}
    (hk : t.get? k = some .directory) (hfree : t.get? key ≠ some .directory) :
    (t.put key e).get? k = some .directory := by
  rw [get?_put_ne]
  · exact hk
  · rintro rfl
    exact hfree hk

theorem closed_directory (k : Key) : Closed fun t => t.get? k = some .directory where
  makeDirectories h hm := (changesOnly_makeDirectories hm).get?_eq id h
  makeDirectory h hm := (changesOnly_makeDirectory hm).get?_eq id h
  writeBytes h hw := by
    obtain ⟨place, x, hr, hp, rfl⟩ := write_eq hw
    exact get?_directory_of_put h (not_directory_of_write hr hp).1
  removeFile {t t' p} h hr := by
    obtain ⟨key, e, hne, hres, rfl⟩ := removeFile_eq hr
    have hg := (sound_of_resolve hres).resolve_left hne
    rw [get?_erase_ne]
    · exact h
    · rintro rfl
      rw [h] at hg
      exact hne (Option.some.inj hg).symm
  makeLink h hm := by
    obtain ⟨key, -, hr, rfl⟩ := makeLink_eq hm
    exact get?_directory_of_put h (by rw [(sound_of_resolve hr).1]; simp)
  share h _ _ hr := get?_directory_of_put h (by rw [(sound_of_resolve hr).1]; simp)

theorem Closed.and {Q : FileTree → Prop} (hP : Closed P) (hQ : Closed Q) : Closed fun t => P t ∧ Q t where
  makeDirectories h hm := ⟨hP.makeDirectories h.1 hm, hQ.makeDirectories h.2 hm⟩
  makeDirectory h hm := ⟨hP.makeDirectory h.1 hm, hQ.makeDirectory h.2 hm⟩
  writeBytes h hw := ⟨hP.writeBytes h.1 hw, hQ.writeBytes h.2 hw⟩
  removeFile h hr := ⟨hP.removeFile h.1 hr, hQ.removeFile h.2 hr⟩
  makeLink h hm := ⟨hP.makeLink h.1 hm, hQ.makeLink h.2 hm⟩
  share h hs he hr := ⟨hP.share h.1 hs he hr, hQ.share h.2 hs he hr⟩

/-- Unpacking any archive leaves a tree well formed. -/
theorem wellFormed_unpack {t : FileTree} {cwd : Key} {dest : Path} (h : t.WellFormed)
    (hd : t.get? (startOf cwd dest.text.toList) = some .directory) (kind : Kind) (file : List UInt8) :
    ((unpack kind cwd file dest).run.run t).2.WellFormed := by
  refine (keeps_unpack (closed_wellFormed.and (closed_directory (startOf cwd dest.text.toList)))
    (fun t t' ht hm => ⟨ht.1.makeDirectories (fun q hq => ?_) hm, ?_⟩) kind file t ⟨h, hd⟩).1
  · rw [startOf_of_mem_ancestors hq]
    exact ht.2
  · exact (changesOnly_makeDirectories hm).get?_eq id ht.2

/-! ## The destination -/

/-- An archive is unpacked below its destination: into an existing directory, without links under it
or on the way to it, nothing is unpacked elsewhere but missing directories, and no link is made. -/
def StaysBelow (kind : Kind) (file : List UInt8) : Prop :=
  ∀ (t : FileTree) (cwd top : Key) (dest : Path), t.Leads cwd dest top → t.ClearTo top →
    t.ClearUnder top →
    let t' := ((unpack kind cwd file dest).run.run t).2
    (∀ k, ¬ top <+: k → t'.get? k = t.get? k ∨ t.get? k = none ∧ t'.get? k = some .directory) ∧
      SameLinks t t'

theorem StaysBelow.changesOnly {kind : Kind} {file : List UInt8} (h : StaysBelow kind file)
    {t : FileTree} {cwd top : Key} {dest : Path} (hd : t.Leads cwd dest top) (ht : t.ClearTo top)
    (hu : t.ClearUnder top) :
    ChangesOnly (top <+: ·) t ((unpack kind cwd file dest).run.run t).2 := by
  obtain ⟨hframe, hlinks⟩ := h t cwd top dest hd ht hu
  exact ⟨hframe, hlinks, named_unpack kind cwd file dest t⟩

/-- Nothing is unpacked from an empty file. -/
theorem staysBelow_nil (kind : Kind) : StaysBelow kind [] := by
  intro t cwd top dest _ _ _
  have hkeep : Keeps (ChangesOnly (fun _ => False) t) (unpack kind cwd [] dest) := by
    cases kind with
    | tarGzip =>
      have hr : Tar.read (gunzip []) = ([], false) := by decide +kernel
      show Keeps _ (unpackTar cwd [] dest)
      unfold unpackTar
      refine (keeps_prepare fun _ _ h hm => h.trans (changesOnly_makeDirectories hm)).bind fun top => ?_
      rw [hr]
      exact (keeps_pure _).bind fun _ => keeps_fail
    | zip =>
      have he : Zip.entries? ([] : List UInt8).toByteArray = none := rfl
      show Keeps _ (unpackZip cwd [] dest)
      unfold unpackZip
      dsimp only
      rw [he]
      exact keeps_fail
  have h := hkeep t (.refl _ t)
  exact ⟨fun k _ => h.frame k id, h.links⟩

end CipherCorpus.Archive
