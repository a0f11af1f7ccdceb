import CipherCorpus.Proofs.Archive.Extraction
import CipherCorpus.Proofs.FileTree.Kinds

/-!
# What unpacking leaves of the tree around it

An archive may hold links that lead anywhere, and a later member may be unpacked through them.  So files
outside of the destination may be made or written over.  But whatever an archive holds, outside of the
destination nothing is removed, no directory turns into anything else and no link leads elsewhere:

    Destination t cwd dest top →
      KeepsKinds (top <+: ·) t ((unpack kind cwd data dest).run.run t).2        (keepsKinds_unpack)

A tar member is the only thing for which something is removed.  It has one name in a directory that was
found to lie in the destination (`exists_erase_of_removeFile`).
-/

namespace CipherCorpus.Archive

open FileTree Unpacking

variable {t t' : FileTree} {cwd top : Key} {dest : Path}

/-- What is removed to make room for a member lies in the destination. -/
theorem exists_erase_of_removeFile {topPath : Path} {path : List UInt8} {names : List String}
    (hnames : memberNames? path = some names) (hne : names ≠ [])
    (hin : IsInside t top (under topPath names.dropLast))
    (hr : t.removeFile [] (under topPath names) = .ok t') : ∃ key, top <+: key ∧ t' = t.erase key := by
  obtain ⟨init, n, rfl⟩ := (List.eq_nil_or_concat' names).resolve_left hne
  obtain ⟨-, hn⟩ := List.forall_mem_append.mp (isEntryName_of_memberNames? hnames)
  have hname := hn n (List.mem_singleton_self n)
  rw [List.dropLast_concat] at hin
  rw [under_concat] at hr
  obtain ⟨key, e, -, hres, -⟩ := removeFile_eq hr
  obtain ⟨d, -, hl, -⟩ := leads_of_resolve hn (by simp)
    (show t.resolve [] false (under (under topPath init) [n]) = _ from hres)
  -- the directory that was checked is the one that the member is looked up in
  obtain ⟨d', e', hs, hpre⟩ := hin
  obtain ⟨hguard, -⟩ := resolve_iff.mp (stat_eq hs)
  have hd := stat_directory_iff.mpr ⟨hguard, hl⟩
  rw [hs] at hd
  obtain ⟨rfl, -⟩ := Prod.mk.inj (Except.ok.inj hd)
  obtain ⟨-, -, rfl⟩ := removeFile_entry hl hname hr
  exact ⟨_, hpre.trans (List.prefix_append _ _), rfl⟩

/-- Every change which unpacking makes keeps what is around the destination. -/
theorem closedUnder_keepsKinds (top : Key) (t0 : FileTree) : ClosedUnder top (KeepsKinds (top <+: ·) t0) where
  makeDirectories h hm := h.trans (.of_changesOnly ((changesOnly_makeDirectories hm).mono nofun))
  makeDirectory h hm := h.trans (.of_changesOnly ((changesOnly_makeDirectory hm).mono nofun))
  writeBytes h hw := h.trans (keepsKinds_write hw)
  makeLink h hm := by
    obtain ⟨key, -, hr, rfl⟩ := makeLink_eq hm
    exact h.trans (keepsKinds_put_free (sound_of_resolve hr).1)
  share h _ _ hr := h.trans (keepsKinds_put_free (sound_of_resolve hr).1)
  removeFile h hnames hne hin hr := by
    obtain ⟨key, hkey, rfl⟩ := exists_erase_of_removeFile hnames hne hin hr
    refine h.trans (.of_frame fun k hk => get?_erase_ne _ ?_)
    rintro rfl
    exact hk hkey

/-- A property that unpacking into `top` keeps holds after an archive was unpacked there. -/
theorem of_unpack {P : FileTree → Prop} (hP : ClosedUnder top P) (hd : Destination t cwd dest top) (h : P t)
    (kind : Kind) (data : List UInt8) : P ((unpack kind cwd data dest).run.run t).2 := by
  cases kind with
  | tarGzip =>
    show P ((unpackTar cwd data dest).run.run t).2
    unfold unpackTar
    rw [run_bind, hd.prepare]
    generalize Tar.read (gunzip data) = members
    refine ((keeps_unpackMembers hP _).bind fun _ => ?_) t h
    split
    · exact keeps_unpackAll hP _
    · exact keeps_fail
  | zip =>
    show P ((unpackZip cwd data dest).run.run t).2
    unfold unpackZip
    dsimp only
    generalize Zip.entries? data.toByteArray = entries?
    cases entries? with
    | none => exact h
    | some entries =>
      dsimp only
      rw [run_bind, run_alter, hd.made]
      dsimp only
      rw [run_bind, run_consult, hd.found]
      exact keeps_unpackEntries hP.toGrows _ _ _ t h

/-- **Whatever an archive holds**, around its destination unpacking leaves every directory a directory
and every link as it is, and nothing goes away. -/
theorem keepsKinds_unpack (hd : Destination t cwd dest top) (kind : Kind) (data : List UInt8) :
    KeepsKinds (top <+: ·) t ((unpack kind cwd data dest).run.run t).2 :=
  of_unpack (closedUnder_keepsKinds top t) hd (.refl _ t) kind data

end CipherCorpus.Archive
