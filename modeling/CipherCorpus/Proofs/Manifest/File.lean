import CipherCorpus.Manifest.File
import CipherCorpus.Proofs.FileTree.Home
import CipherCorpus.Proofs.Host
import CipherCorpus.Proofs.Json.Decode
import CipherCorpus.Proofs.Text.Utf8

/-!
# A saved manifest is read back

Every entry is read back from its record and every map from its table, so the text of a manifest file is
the manifest again:

    ofFileText m.fileText.toList = .ok m                                   (ofFileText_fileText)
-/

namespace CipherCorpus.Json

/-- The JSON form of a record is read back, where `depth` levels may still be opened. -/
structure Document.Faithful (α : Type) [Document α] (depth : Nat) : Prop where
  reads : ∀ x : α, Reads (Document.decoder α) depth (toJson x)
  back : ∀ x : α, Document.ofJson? (toJson x) = some x

theorem Document.Faithful.read_written {α : Type} [Document α] (h : Document.Faithful α depthLimit)
    (g : GapLayout) (ind : Nat) (x : α) :
    Document.read α (Input.ofChars (written g ind (toJson x))) = .ok x := by
  unfold Document.read
  rw [decode_written (h.reads x)]
  simp only [bind, Except.bind, h.back x]
  rfl

theorem Document.Faithful.read_prettyText {α : Type} [Document α] (h : Document.Faithful α depthLimit)
    (x : α) : Document.read α (Input.ofChars (toJson x).prettyText.toList) = .ok x := by
  unfold Value.prettyText
  rw [String.toList_ofList, prettyAt_eq_written]
  exact h.read_written .lines 0 x

theorem word?_word (n : UInt64) : (Value.word n).word? = some n := by
  have hn : n.toNat < Text.wordLimit := n.toNat_lt
  unfold Value.word Value.word?
  dsimp only
  rw [if_pos hn, UInt64.ofNat_toNat]

/-! ## Entries -/

theorem entry_faithful (depth : Nat) : Document.Faithful ManifestEntry (depth + 1) where
  reads e := by
    refine reads_record (by decide) ?_
    exact .cons (reads_text _ _) (.cons (reads_text _ _) (.cons (reads_text _ _) (.cons (reads_text _ _)
      (.cons (reads_text _ _) (.cons (reads_text _ _) (.cons (reads_count _ e.size.toNat_lt)
        (.cons (reads_text _ _) .nil)))))))
  back e := by
    have hsize : (toJson e).wordField? "size" = some e.size := word?_word e.size
    show (do
      let size ← (toJson e).wordField? "size"
      return { e with size := size }) = some e
    rw [hsize]
    rfl

/-! ## Maps -/

theorem ascending_map {α β : Type} (f : α → β) (m : OrderedMap String α) :
    (m.entries.map fun e => (e.1, f e.2)).Pairwise fun a b => KeyOrder.before a.1 b.1 = true :=
  List.pairwise_map.mpr m.ascending

theorem reads_tableJson {α : Type} {d : Decoder} {depth : Nat} {f : α → Value}
    (h : ∀ x, Reads d depth (f x)) (m : OrderedMap String α) :
    Reads (table d) (depth + 1) (tableJson f m) := by
  refine reads_table (fun e he => ?_) (ascending_map f m)
  obtain ⟨e', -, rfl⟩ := List.mem_map.mp he
  exact h e'.2

theorem mapM_entries {α : Type} {f : α → Value} {back : Value → Option α}
    (h : ∀ x, back (f x) = some x) (es : List (String × α)) :
    (es.map fun e => (e.1, f e.2)).mapM (fun e => (back e.2).map fun x => (e.1, x)) = some es := by
  induction es with
  | nil => rfl
  | cons e es ih =>
    rw [List.map_cons, List.mapM_cons, ih, h]
    rfl

theorem tableOf?_tableJson {α : Type} {f : α → Value} {back : Value → Option α}
    (h : ∀ x, back (f x) = some x) (m : OrderedMap String α) :
    tableOf? back (tableJson f m) = some m := by
  unfold tableOf? tableJson
  dsimp only
  rw [mapM_entries h]
  exact congrArg some (OrderedMap.ext (OrderedMap.entries_ofList m.ascending))

theorem manifest_faithful (depth : Nat) : Document.Faithful Manifest (depth + 3) where
  reads m := reads_tableJson (reads_tableJson (entry_faithful depth).reads) m.libraries
  back m := by
    have h := tableOf?_tableJson (tableOf?_tableJson (entry_faithful depth).back) m.libraries
    show (tableOf? (tableOf? Document.ofJson?) (tableJson (tableJson toJson) m.libraries)).map
      Manifest.mk = some m
    rw [h]
    rfl

end CipherCorpus.Json

namespace CipherCorpus.Manifest

open FileTree CipherCorpus.Path
open Archive (under)

/-- The text of a manifest file is read back as the manifest. -/
theorem ofFileText_fileText (m : Manifest) : ofFileText m.fileText.toList = .ok m :=
  (Json.manifest_faithful 124).read_prettyText m

/-- Saving makes the directory of the file and writes the text of the manifest. -/
theorem runs_save {m : Manifest} {p : Path} {h h' : Host}
    (hr : Runs (m.save p).outcome h (.ok ()) h') : ∃ files files',
      ChangesOnly (fun _ => False) h.files files ∧
      files.writeBytes h.cwd p (Text.bytesOf m.fileText) = .ok files' ∧
      h' = { h with files := files' } := by
  unfold save at hr
  have hwrite : ∀ {h1 : Host}, Runs ((change fun t cwd =>
      t.writeBytes cwd p (Text.bytesOf m.fileText)).inWords (ManifestError.files p)).outcome h1 (.ok ()) h' →
      ∃ files', h1.files.writeBytes h1.cwd p (Text.bytesOf m.fileText) = .ok files' ∧
        h' = { h1 with files := files' } := by
    intro h1 hr
    obtain ⟨y, hy, he⟩ := Attempt.runs_inWords.mp hr
    rcases Attempt.runs_change.mp hy with ⟨files', hok, -, rfl⟩ | ⟨e, -, rfl, -⟩
    · exact ⟨files', hok, rfl⟩
    · cases he
  cases hp : p.parent? with
  | none =>
    rw [hp] at hr
    obtain ⟨files', hok, rfl⟩ := hwrite hr
    exact ⟨h.files, files', .refl _ _, hok, rfl⟩
  | some parent =>
    rw [hp] at hr
    rcases Attempt.runs_change_bind.mp hr with ⟨files, hmake, hr⟩ | ⟨e, -, he, -⟩
    · obtain ⟨files', hok, rfl⟩ := hwrite hr
      exact ⟨files, files', changesOnly_makeDirectories hmake, hok, rfl⟩
    · cases he

/-- Loading a manifest reads its text. -/
theorem runs_load_ok {m : Manifest} {p : Path} {h h' : Host} : Runs (load p).outcome h (.ok m) h' ↔
    h' = h ∧ ∃ text, h.files.readText h.cwd p = .ok text ∧ ofFileText text = .ok m := by
  unfold load
  rw [Attempt.runs_get_bind]
  cases ht : h.files.readText h.cwd p with
  | error e =>
    refine iff_of_false (fun hr => ?_) fun ⟨_, _, he, _⟩ => by cases he
    cases (runs_pure.mp hr).1
  | ok text =>
    dsimp only
    cases hm : ofFileText text with
    | error fault =>
      refine iff_of_false (fun hr => ?_) fun ⟨_, _, he, hm'⟩ => by
        cases he
        cases hm.symm.trans hm'
      cases (runs_pure.mp hr).1
    | ok m' =>
      constructor
      · intro hr
        obtain ⟨he, rfl⟩ := runs_pure.mp hr
        cases he
        exact ⟨rfl, text, rfl, hm⟩
      · rintro ⟨rfl, _, he, hm'⟩
        cases he
        cases hm.symm.trans hm'
        exact runs_pure.mpr ⟨rfl, rfl⟩

/-- A file that holds the text of a manifest is loaded as the manifest. -/
theorem load_of_read {m : Manifest} {p : Path} {h : Host}
    (hr : h.read p = .ok (Text.bytesOf m.fileText)) : Runs (load p).outcome h (.ok m) h := by
  have htext : h.files.readText h.cwd p = .ok m.fileText.toList := by
    unfold Host.read at hr
    unfold readText
    rw [hr]
    dsimp only [bind, Except.bind]
    rw [Text.decode?_bytesOf]
    rfl
  exact runs_load_ok.mpr ⟨rfl, _, htext, ofFileText_fileText m⟩

/-- **A saved manifest is loaded again.** -/
theorem load_of_saved {m : Manifest} {p : Path} {h h' : Host} (hr : Runs (m.save p).outcome h (.ok ()) h') :
    Runs (load p).outcome h' (.ok m) h' := by
  obtain ⟨files, files', -, hw, rfl⟩ := runs_save hr
  exact load_of_read (read_of_write hw)

/-- The manifest that a reader finds in a file. -/
def ofBody? (body : Body) : Option Manifest :=
  (Text.decode? body.data).bind fun text => (ofFileText text).toOption

theorem ofBody?_fileText (m : Manifest) : ofBody? (.bytes (Text.bytesOf m.fileText)) = some m := by
  unfold ofBody? Body.data
  rw [Text.decode?_bytesOf, Option.bind_some, ofFileText_fileText]
  rfl

/-- A manifest in the manifest file under `home` satisfies `Q`. -/
def FileHolds (home : Key) (Q : Manifest → Prop) (h : Host) : Prop :=
  ∀ body x m, h.files.get? (home ++ [manifestFileName]) = some (.file body x) → ofBody? body = some m →
    Q m

variable {root : Path} {home : Key} {Q : Manifest → Prop} {m : Manifest} {h h' : Host}

theorem FileHolds.of_changes {S : Key → Prop} (hQ : FileHolds home Q h) (hc : ChangesFiles S h h')
    (hk : ¬ S (home ++ [manifestFileName])) : FileHolds home Q h' := by
  intro body x m hg
  rcases hc.files.frame _ hk with e | ⟨-, e⟩
  · exact hQ body x m (e ▸ hg)
  · rw [e] at hg
    cases hg

/-- What is read as text is the text of a file. -/
theorem file_of_readText {t : FileTree} {cwd : Key} {p : Path} {text : List Char}
    (h : t.readText cwd p = .ok text) : ∃ key body x,
      t.stat cwd p = .ok (key, .file body x) ∧ Text.decode? body.data = some text := by
  unfold readText FileTree.read openRead at h
  cases hs : t.stat cwd p with
  | error e =>
    rw [hs] at h
    cases h
  | ok found =>
    obtain ⟨key, e⟩ := found
    rw [hs] at h
    cases e with
    | directory => cases h
    | link target => cases h
    | file body x =>
      refine ⟨key, body, x, rfl, ?_⟩
      cases hd : Text.decode? body.data with
      | none =>
        simp [bind, Except.bind, pure, Except.pure, readEntry, hd] at h
      | some text' =>
        simp [bind, Except.bind, pure, Except.pure, readEntry, hd] at h
        rw [h]

theorem readText_of_file {t : FileTree} {cwd : Key} {p : Path} {text : List Char} {key : Key} {body : Body} {x : Bool}
    (hs : t.stat cwd p = .ok (key, .file body x)) (hd : Text.decode? body.data = some text) :
    t.readText cwd p = .ok text := by
  unfold readText FileTree.read openRead
  rw [hs]
  simp [bind, Except.bind, pure, Except.pure, readEntry, hd]

/-- A manifest that is loaded is the one in the file. -/
theorem holds_of_load (hh : Home root home h) (hQ : FileHolds home Q h)
    {r : Except ManifestError Manifest}
    (hr : Runs (load (root.child manifestFileName)).outcome h r h') :
    h' = h ∧ ∀ m, r = .ok m → Q m := by
  unfold load at hr
  rw [Attempt.runs_get_bind] at hr
  cases ht : h.files.readText h.cwd (root.child manifestFileName) with
  | error e =>
    rw [ht] at hr
    obtain ⟨rfl, rfl⟩ := runs_pure.mp hr
    exact ⟨rfl, nofun⟩
  | ok text =>
    rw [ht] at hr
    dsimp only at hr
    cases hm : ofFileText text with
    | error fault =>
      rw [hm] at hr
      obtain ⟨rfl, rfl⟩ := runs_pure.mp hr
      exact ⟨rfl, nofun⟩
    | ok m =>
      rw [hm] at hr
      obtain ⟨rfl, rfl⟩ := runs_pure.mp hr
      refine ⟨rfl, fun m' he => ?_⟩
      cases he
      obtain ⟨key, body, x, hs, hd⟩ := file_of_readText ht
      have hn : ∀ n ∈ [manifestFileName], IsEntryName n.toList := by decide
      have hres := stat_eq hs
      obtain rfl : key = home ++ [manifestFileName] := hh.key_eq hn (by simp) hres
      refine hQ body x m ((sound_of_resolve hres).resolve_left (by simp)) ?_
      unfold ofBody?
      rw [hd, Option.bind_some, hm]
      rfl

/-- Changes of other files leave what is loaded, as long as the file is found. -/
theorem load_of_changes {S : Key → Prop} (hh : Home root home h) (hc : ChangesFiles S h h')
    (hk : ¬ S (home ++ [manifestFileName])) (hf : h'.isFile (root.child manifestFileName) = true)
    (hr : Runs (load (root.child manifestFileName)).outcome h (.ok m) h) :
    Runs (load (root.child manifestFileName)).outcome h' (.ok m) h' := by
  have hn : ∀ n ∈ [manifestFileName], IsEntryName n.toList := by decide
  have hget : ∀ {g key body x}, Home root home g →
      g.files.stat g.cwd (root.child manifestFileName) = .ok (key, .file body x) →
      g.files.get? (home ++ [manifestFileName]) = some (.file body x) := by
    intro g key body x hg hs
    have hres := stat_eq hs
    obtain rfl : key = home ++ [manifestFileName] := hg.key_eq hn (by simp) hres
    exact (sound_of_resolve hres).resolve_left (by simp)
  obtain ⟨-, text, htext, hm⟩ := runs_load_ok.mp hr
  obtain ⟨key, body, x, hs, hd⟩ := file_of_readText htext
  obtain ⟨key', body', x', hs'⟩ := stat_of_isFile hf
  have hbefore := hget hh hs
  have hafter := hget (hh.of_changes hc) hs'
  have hbody : body' = body := by
    rcases hc.files.frame _ hk with hsame | ⟨hnone, -⟩
    · cases hafter.symm.trans (hsame.trans hbefore)
      rfl
    · cases hnone.symm.trans hbefore
  exact runs_load_ok.mpr ⟨rfl, text, readText_of_file hs' (hbody ▸ hd), hm⟩

/-- Saving makes at most directories before it fails, or writes the file. -/
theorem save_cases {p : Path} {r : Except ManifestError Unit} (hr : Runs (m.save p).outcome h r h') :
    ∃ files, ChangesOnly (fun _ => False) h.files files ∧ (h' = { h with files := files } ∨
      ∃ files', files.writeBytes h.cwd p (Text.bytesOf m.fileText) = .ok files' ∧
        h' = { h with files := files' }) := by
  have hwrite : ∀ {h1 : Host}, Runs ((change fun t cwd =>
      t.writeBytes cwd p (Text.bytesOf m.fileText)).inWords (ManifestError.files p)).outcome h1 r h' →
      h' = h1 ∨ ∃ files', h1.files.writeBytes h1.cwd p (Text.bytesOf m.fileText) = .ok files' ∧
        h' = { h1 with files := files' } := by
    intro h1 hr
    obtain ⟨y, hy, -⟩ := Attempt.runs_inWords.mp hr
    rcases Attempt.runs_change.mp hy with ⟨files', hok, -, rfl⟩ | ⟨e, -, -, rfl⟩
    · exact Or.inr ⟨files', hok, rfl⟩
    · exact Or.inl rfl
  unfold save at hr
  cases hp : p.parent? with
  | none =>
    rw [hp] at hr
    exact ⟨h.files, .refl _ _, hwrite hr⟩
  | some parent =>
    rw [hp] at hr
    rcases Attempt.runs_change_bind.mp hr with ⟨files, hmake, hr⟩ | ⟨e, -, -, rfl⟩
    · exact ⟨files, changesOnly_makeDirectories hmake, hwrite hr⟩
    · exact ⟨h'.files, .refl _ _, Or.inl rfl⟩

/-- Whatever comes of saving a manifest, the file holds it or what it held. -/
theorem save_keeps (hh : Home root home h) (hQ : FileHolds home Q h) (hm : Q m)
    {r : Except ManifestError Unit}
    (hr : Runs (m.save (root.child manifestFileName)).outcome h r h') :
    FileHolds home Q h' ∧ ChangesFiles (· = home ++ [manifestFileName]) h h' := by
  have hn : ∀ n ∈ [manifestFileName], IsEntryName n.toList := by decide
  obtain ⟨files, hmake, hrest⟩ := save_cases hr
  have hc : ChangesFiles (fun _ => False) h { h with files := files } := ⟨rfl, hmake⟩
  have hc' : ChangesFiles (· = home ++ [manifestFileName]) h { h with files := files } := hc.mono nofun
  rcases hrest with rfl | ⟨files', hw, rfl⟩
  · exact ⟨hQ.of_changes hc id, hc'⟩
  · obtain ⟨hcw, -, -⟩ := (hh.of_changes hc).write hn (by simp) hw
    refine ⟨?_, rfl, hc'.files.trans hcw⟩
    obtain ⟨place, x, hres, hp, rfl⟩ := write_eq hw
    have hkey : place.key = home ++ [manifestFileName] := (hh.of_changes hc).key_eq hn (by simp) hres
    intro body x' m' hg hbody
    dsimp only at hg
    rw [hkey, get?_put_self _ _ (by simp)] at hg
    cases hg
    rw [ofBody?_fileText] at hbody
    cases hbody
    exact hm

end CipherCorpus.Manifest
