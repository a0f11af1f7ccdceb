import CipherCorpus.Command.Inspect
import CipherCorpus.Proofs.Command.RunRecord
import CipherCorpus.Proofs.Dataset.GroundTruth
import CipherCorpus.Proofs.FileTree.KeyPath
import CipherCorpus.Proofs.FileTree.Place

/-!
# One binary and the corpus have the same label

Labeling one binary finds the manifest from the binary, upwards; labeling the corpus finds it from the
root.  For a root that is settled both look up the same path in the same manifest:

* an argument that leads to a recorded binary has the recorded path as its absolute path
  (`binaryPath_of_sameFile`), and
* the first manifest above it is that of the root, if no other one lies between (`enclosing?_eq`).

So what is shown for the binary is the label of the rows that are stored for it
(`label_agrees_with_corpus`).
-/

namespace CipherCorpus

open Command Dataset FileTree CipherCorpus.Path
open Archive (under)

variable {home : Key} {h h' : Host} {p q : Path} {m : Manifest}

/-! ## The innermost manifest -/

/-- Paths under a canonical one are the same when their parts are. -/
theorem LiesUnder.eq_of_parts (hnames : ∀ n ∈ home, IsEntryName n.toList)
    (hp : LiesUnder (pathOf home) p) (hq : LiesUnder (pathOf home) q) (he : p.parts = q.parts) : p = q := by
  have hstep : ∀ {k : Key}, (∀ n ∈ k, IsEntryName n.toList) → ∀ n ∈ k, IsStep n :=
    fun hk n hn => isStep_of_isEntryName (hk n hn)
  obtain ⟨ns, -, hn, rfl⟩ := hp
  obtain ⟨ms, -, hm, rfl⟩ := hq
  rw [under_pathOf (hstep hn) (hstep hnames), under_pathOf (hstep hm) (hstep hnames)] at he ⊢
  rw [parts_pathOf (List.forall_mem_append.mpr ⟨hnames, hn⟩),
    parts_pathOf (List.forall_mem_append.mpr ⟨hnames, hm⟩)] at he
  have hkeys := List.map_injective_iff.mpr (fun a b hab => PathPart.name.inj hab) (List.cons.inj he).2
  rw [hkeys]

/-- The path of a key lies above those of longer keys. -/
theorem mem_ancestors (hnames : ∀ n ∈ home, IsEntryName n.toList) {ns : List String} : ∀ {fuel : Nat},
    ns.length ≤ fuel → (∀ n ∈ ns, IsEntryName n.toList) →
      pathOf home ∈ ancestors.go fuel (pathOf (home ++ ns)) := by
  induction ns using List.reverseRecOn with
  | nil =>
    intro fuel _ _
    obtain ⟨parents, he⟩ := exists_go_eq_cons fuel (pathOf (home ++ []))
    rw [he, List.append_nil]
    exact List.mem_cons_self
  | append_singleton ms x ih =>
    intro fuel hfuel hns
    rw [List.length_append, List.length_singleton] at hfuel
    obtain ⟨fuel, rfl⟩ : ∃ n, fuel = n + 1 := ⟨fuel - 1, by omega⟩
    obtain ⟨hms, hx⟩ := List.forall_mem_append.mp hns
    rw [ancestors.go, ← List.append_assoc, parent?_pathOf (List.forall_mem_append.mpr ⟨hnames, hms⟩)
      (hx x (List.mem_singleton_self x))]
    exact List.mem_cons_of_mem _ (ih (by omega) hms)

theorem find?_eq_of_takeWhile {α : Type} [BEq α] [LawfulBEq α] {f : α → Bool} {a : α} {l : List α}
    (ha : a ∈ l) (hf : f a = true) (hno : ∀ x ∈ l.takeWhile (· != a), f x = false) :
    l.find? f = some a := by
  induction l with
  | nil => cases ha
  | cons x rest ih =>
    by_cases hx : x = a
    · rw [hx, List.find?_cons, hf]
    · rw [List.takeWhile_cons, if_pos (bne_iff_ne.mpr hx)] at hno
      obtain ⟨hfirst, hrest⟩ := List.forall_mem_cons.mp hno
      rw [List.find?_cons, hfirst]
      exact ih ((List.mem_cons.mp ha).resolve_left (Ne.symm hx)) hrest

/-- No directory between `root` and the binary has a manifest. -/
def Host.OneManifest (h : Host) (root binary : Path) : Prop :=
  ∀ d ∈ (binary.ancestors.drop 1).takeWhile (· != root), h.isFile (d.child manifestFileName) = false

instance (h : Host) (root binary : Path) : Decidable (h.OneManifest root binary) :=
  inferInstanceAs (Decidable (∀ d ∈ _, _ = false))

/-- **The manifest that a binary lies under is that of the root.** -/
theorem Manifest.enclosing?_eq (hnames : ∀ n ∈ home, IsEntryName n.toList)
    (hload : Runs (load ((pathOf home).child manifestFileName)).outcome h (.ok m) h')
    (hp : LiesUnder (pathOf home) p) (hone : h.OneManifest (pathOf home) p) : enclosing? h p = some m := by
  have hstep : ∀ {k : Key}, (∀ n ∈ k, IsEntryName n.toList) → ∀ n ∈ k, IsStep n :=
    fun hk n hn => isStep_of_isEntryName (hk n hn)
  obtain ⟨-, text, htext, hm⟩ := runs_load_ok.mp hload
  obtain ⟨key, body, x, hs, -⟩ := file_of_readText htext
  have hfile : h.isFile ((pathOf home).child manifestFileName) = true := by
    unfold Host.isFile FileTree.isFile
    rw [hs]
    rfl
  obtain ⟨ns, hne, hn, rfl⟩ := hp
  obtain ⟨ms, x, rfl⟩ := List.eq_nil_or_concat' ns |>.resolve_left hne
  obtain ⟨hms, hx⟩ := List.forall_mem_append.mp hn
  have hx := List.forall_mem_singleton.mp hx
  rw [under_pathOf (hstep hn) (hstep hnames)] at hone ⊢
  have hlength := length_le_pieces_pathOf (List.forall_mem_append.mpr ⟨hnames, hn⟩)
  rw [List.length_append, List.length_append, List.length_singleton] at hlength
  obtain ⟨fuel, hfuel⟩ : ∃ fuel, (pathOf (home ++ (ms ++ [x]))).pieces.length = fuel + 1 :=
    ⟨_, (Nat.succ_pred (by omega)).symm⟩
  have hup : (pathOf (home ++ (ms ++ [x]))).ancestors.drop 1 = ancestors.go fuel (pathOf (home ++ ms)) := by
    unfold ancestors
    rw [hfuel, ancestors.go, ← List.append_assoc,
      parent?_pathOf (List.forall_mem_append.mpr ⟨hnames, hms⟩) hx]
    rfl
  unfold Host.OneManifest at hone
  rw [hup] at hone
  have hmem : pathOf home ∈ ancestors.go fuel (pathOf (home ++ ms)) := mem_ancestors hnames (by omega) hms
  have hfind : (ancestors.go fuel (pathOf (home ++ ms))).find? (h.isFile ∘ (·.child manifestFileName)) =
      some (pathOf home) := by
    refine find?_eq_of_takeWhile hmem hfile ?_
    exact hone
  unfold enclosing?
  dsimp only
  rw [hup, List.find?_map, hfind]
  dsimp only [Option.map]
  rw [htext]
  dsimp only
  rw [hm]
  rfl

/-! ## The label of a recorded binary -/

/-- Where no other entry has a path with the same parts, the label is that of the entry. -/
theorem labelOf_of_entry {library key : String} {e : ManifestEntry} (hm : (library, key, e) ∈ m.entries)
    (hone : ∀ other ∈ m.entries, other.2.2.binaryPath.parts = e.binaryPath.parts → other = (library, key, e)) :
    (Labeler.ofManifest m).labelOf e.binaryPath = (Labeler.originOf library e).label := by
  have hknown : (Labeler.ofManifest m).known.lookup e.binaryPath.parts =
      some (Labeler.originOf library e) := by
    refine lookup_of_unique (List.mem_reverse.mpr (List.mem_map.mpr ⟨_, hm, rfl⟩)) fun o ho => ?_
    obtain ⟨other, hother, he⟩ := List.mem_map.mp (List.mem_reverse.mp ho)
    obtain ⟨hparts, rfl⟩ := Prod.mk.inj he
    rw [hone other hother hparts]
  unfold Labeler.labelOf Labeler.origin?
  rw [hknown]

/-- An argument that leads to a recorded binary has its path as the absolute path. -/
theorem Command.binaryPath_of_sameFile {text : String} (hh : Home (pathOf home) home h)
    (hnames : ∀ n ∈ home, IsEntryName n.toList) (hp : LiesUnder (pathOf home) p)
    (hs : h.SameFile ⟨text⟩ p) (hf : h.isFile ⟨text⟩ = true) : binaryPath h text = .ok p := by
  have hstep : ∀ {k : Key}, (∀ n ∈ k, IsEntryName n.toList) → ∀ n ∈ k, IsStep n :=
    fun hk n hn => isStep_of_isEntryName (hk n hn)
  obtain ⟨ns, hne, hn, rfl⟩ := hp
  obtain ⟨x, y, hx, hy, hkey⟩ := hs
  obtain ⟨key, body, mode, hstat⟩ := stat_of_isFile hf
  cases (stat_eq hstat).symm.trans hx
  rw [hh.key_eq hn hne hy] at hkey
  obtain rfl : key = home ++ ns := hkey
  have hget := (sound_of_resolve hx).resolve_left nofun
  rw [hh.place_eq hn hne hy, placeAt_of_some hget] at hy
  have hfile : h.isFile (under (pathOf home) ns) = true := by
    unfold Host.isFile FileTree.isFile
    rw [stat_iff.mpr hy]
    rfl
  have hpath : absolutePath h text = under (pathOf home) ns := by
    rw [absolutePath_of_file hstat, under_pathOf (hstep hn) (hstep hnames)]
  unfold binaryPath
  dsimp only
  rw [hpath, if_pos hfile]

/-! ## Stored labels -/

namespace Store.Database

variable {db db' : Database} {label : Label}

/-- All functions that are stored for the path have this label. -/
def Labels (p : Path) (label : Label) (db : Database) : Prop :=
  ∃ fs : List LabeledFunction, db.rowsAt p.text = fs.map FunctionRow.ofLabeled ∧ ∀ f ∈ fs, f.label = label

theorem Labels.fresh : Database.fresh.Labels p label := ⟨[], rfl, nofun⟩

theorem Labels.migrate (hl : db.Labels p label) (h : db.migrate = .ok db') : db'.Labels p label := by
  have hrows : db'.functions.getD [] = db.functions.getD [] := by
    rcases functions_of_migrate h with he | he
    · rw [he]
    · rw [he, Option.getD_some]
  unfold Labels rowsAt at hl ⊢
  rwa [hrows]

theorem Labels.label_of_list (hl : db.Labels p label) {fs : List LabeledFunction}
    (h : db.listFunctions (some p) = .ok fs) : ∀ f ∈ fs, f.label = label := by
  obtain ⟨stored, hrows, hlabel⟩ := hl
  cases hf : db.functions with
  | none =>
    unfold listFunctions functionRows at h
    rw [hf] at h
    cases h
  | some rows =>
    rw [listFunctions_of_rowsAt hf hrows] at h
    cases h
    exact fun f hm => hlabel f (List.mem_mergeSort.mp hm)

end Store.Database

namespace Dataset

open Store

/-- Labels that were stored are those of the labeler of the manifest. -/
theorem labels_of_storeLabels {reader : SymbolSource} {key : Key} {c c' : Connection} {n : Nat}
    (hk : c.key = some key) (hn : reader.NamesBinary)
    (hr : Runs (storeLabels reader m c).outcome h (.ok (n, c')) h') (hp : p ∈ m.binaries) :
    FileHolds key (Database.Labels p ((Labeler.ofManifest m).labelOf p)) h' := by
  obtain ⟨labeled, h1, db, hlabel, hrep, -, rfl⟩ := runs_storeLabels_ok.mp hr
  refine Connection.fileHolds_written hk ⟨_, Database.rowsAt_replaced hrep hp, fun f hf => ?_⟩
  obtain ⟨found, hfound, rfl⟩ := runs_labelBinaries.mp hlabel
  obtain ⟨hf, htext⟩ := List.mem_filter.mp ((latest_sublist _).subset hf)
  obtain ⟨e, he, hfe, hl⟩ := mem_labelFound.mp hf
  rw [binaryPath_of_recoverAll hn hfound e he _ hfe] at htext
  rw [hl, show e.1 = p from congrArg Path.mk (eq_of_beq htext)]

end Dataset

/-! ## The two commands -/

namespace Command

variable {o : Outside} {output text : String}

/-- Labeling that succeeds loads the manifest, opens the database, and stores the labels. -/
theorem labelBinaries_ok (hd : (labelBinaries o output).Does h (.ok ()) h') :
    ∃ m c h1 limit n c', Runs (Dataset.loadManifest (layoutOf h output)).outcome h (.ok m) h ∧
      Runs (Dataset.openDatabase (layoutOf h output)).outcome h (.ok c) h1 ∧
      Runs (Dataset.storeLabels (o.lister h1 limit) m c).outcome h1 (.ok (n, c')) h' := by
  rcases hd.look_bind.bind with ⟨context, h1, hcontext, hd⟩ | ⟨e, -, he⟩
  · obtain ⟨loaded, h0, hm, ⟨-, he⟩ | ⟨m, opened, rfl, hopen, he⟩⟩ := ofRoot_cases hcontext.perform
    · exact absurd rfl (he context)
    obtain ⟨y, hload, hy⟩ := Attempt.runs_inWords.mp hm
    obtain rfl := Attempt.eq_ok_of_mapError hy.symm
    obtain ⟨rfl, -⟩ := Manifest.runs_load_ok.mp hload
    cases opened with
    | error e => cases he
    | ok c =>
      cases he
      rcases hd.look_bind.bind with ⟨⟨n, c'⟩, h2, hl, hd⟩ | ⟨e, -, he⟩
      · obtain ⟨y, hl, hy⟩ := hl.onDatabase
        obtain rfl := hy _ rfl
        have hend : h' = h2 := by
          rcases hd.query_bind with rfl | ⟨stats, hprint⟩
          · rfl
          · have hprint := hprint.tell_bind.tell_bind.tell_bind.tell_bind
            rcases hprint.forIn_bind fun ⟨_, _⟩ _ _ _ _ hline => hline.tell_bind.pure.2
              with rfl | ⟨u, hlast⟩
            · rfl
            · exact hlast.tell.2
        rw [hend]
        exact ⟨m, c, h1, symbolLimit, n, c', hm, hopen, hl⟩
      · cases he
  · cases he

/-- The lines about the label of one binary. -/
def labelLines (binary : Path) (label : Label) (functions : List FoundFunction) (json : Bool) :
    List String :=
  if json then
    [(Json.Value.record [("binary", .text binary.text), ("label", Json.toJson label),
      ("functions", .list ((functions.map fun f => (⟨f, label⟩ : LabeledFunction)).map Json.toJson))]).prettyText]
  else
    [s!"Label for {binary.text}:", s!"  Algorithm: {label.algorithm}",
      "  Crypto: " ++ (if label.isCrypto then "yes" else "no"), "  Library: " ++ label.library.getD "-",
      "  Function: " ++ label.functionName.getD "-", "  Architecture: " ++ label.architecture.getD "-",
      "  Optimization: " ++ label.optimization.getD "-", s!"  Functions: {functions.length}"]

/-- Labeling a binary that lies in a dataset shows the label that its manifest gives. -/
theorem label_prints {fs : List FoundFunction} (hb : binaryPath h text = .ok p)
    (hm : Manifest.enclosing? h p = some m)
    (hf : Runs (recoverFunctions (o.lister h symbolLimit) p) h fs h') (json : Bool) :
    (label o text json).Prints h (labelLines p ((Labeler.ofManifest m).labelOf p) fs json) () h' := by
  have hresolve : (resolve text).Prints h [] p h := by
    refine (Report.prints_look _ h).bind ?_
    rw [hb]
    exact Report.prints_pure p h
  have hfunctions : (functionsOf o p).Prints h [] fs h' :=
    (Report.prints_look _ h).bind (Report.prints_act hf)
  show Report.Prints _ h ([] ++ ([] ++ ([] ++ labelLines p _ fs json))) () h'
  refine hresolve.bind ((Report.prints_look _ h).bind ?_)
  rw [hm]
  refine hfunctions.bind ?_
  cases json with
  | true => exact Report.prints_tell _ _
  | false =>
    have hline := fun line => Report.prints_tell line h'
    have hlength : ((Labeler.ofManifest m).labelAll p fs).length = fs.length := List.length_map ..
    unfold labelLines
    rw [← hlength]
    exact (hline _).bind ((hline _).bind ((hline _).bind ((hline _).bind ((hline _).bind ((hline _).bind
      ((hline _).bind (hline _)))))))

end Command

/-! ## Main result -/

section

variable {o : Outside} {start : Host} {output : String}

/-- What the manifest of a settled root records lies under the root. -/
theorem liesUnder_of_loadManifest (hset : Settled start output home) (ho : InOrder home start h)
    (hm : Runs (loadManifest (layoutOf h output)).outcome h (.ok m) h) :
    Runs (Manifest.load ((pathOf home).child manifestFileName)).outcome h (.ok m) h ∧
      ∀ b ∈ m.binaries, LiesUnder (pathOf home) b := by
  rw [layoutOf, ho.path hset] at hm
  obtain ⟨y, hload, hy⟩ := Attempt.runs_inWords.mp hm
  obtain rfl := Attempt.eq_ok_of_mapError hy.symm
  exact ⟨hload, (Manifest.holds_of_load (ho.leads hset.clear) ho.manifest hload).2 m rfl⟩

/-- What a build has recorded is loaded after it. -/
theorem loadManifest_of_build (hc : o.Confined) (hset : Settled start output home)
    (ho : InOrder home start h) {config hash : String} {withLabels : Bool} {b : DatasetBuilder}
    {c : Store.Connection} {summary : Summary} {h1 h2 : Host} {x : Except Failure Unit}
    (hnames : ∀ c, Config.load h ⟨config⟩ = .ok c → c.NamesEntries)
    (hp : Prepares o config output h hash b) (hopen : Runs (openDatabase b.layout).outcome h (.ok c) h1)
    (hbuild : Runs b.build.outcome h1 (.ok (m, summary)) h2)
    (hd : (Command.buildDataset o config output withLabels).Does h x h')
    (hf : h'.isFile (layoutOf h' output).manifest = true) :
    Runs (loadManifest (layoutOf h' output)).outcome h' (.ok m) h' := by
  have horder' : InOrder home start h' := ho.buildDataset hset hc hnames hd
  rw [layoutOf, horder'.path hset] at hf ⊢
  have hrecorded := recordBuild_cases (hd.recordBuild hp hopen hbuild)
  have hconfined := hp.confined hc
  rw [ho.path hset] at hconfined
  rw [hconfined.layout] at hopen
  obtain ⟨ho1, hserves⟩ := ho.openDatabase hset.clear hopen
  obtain ⟨ho2, hm⟩ := ho1.build hset.clear hconfined (hp.entryNames hnames) hbuild
  obtain ⟨-, hch⟩ := ho2.recorded (hserves c rfl) hc hm hrecorded
  have hsaved := DatasetBuilder.load_of_build hbuild
  rw [hconfined.layout] at hsaved
  exact Attempt.runs_inWords.mpr ⟨_, Manifest.load_of_changes (ho2.leads hset.clear) hch
    (fun he => absurd (List.append_cancel_left he) (by decide)) hf hsaved, rfl⟩

/-- A tool that always answers lets functions be recovered. -/
theorem exists_recover {t : ListingTool} (ha : t.runner.Answers) (b : Path) (h : Host) :
    ∃ fs h', Runs (recoverFunctions t.read b) h fs h' := by
  have hprologue : ∀ g, ∃ fs, Runs (Prologue.read b) g fs g := by
    intro g
    unfold Prologue.read
    cases hd : g.read b with
    | ok data => exact ⟨_, runs_bind.mpr ⟨_, g, runs_inspect.mpr ⟨hd.symm, rfl⟩, runs_pure.mpr ⟨rfl, rfl⟩⟩⟩
    | error e => exact ⟨_, runs_bind.mpr ⟨_, g, runs_inspect.mpr ⟨hd.symm, rfl⟩, runs_pure.mpr ⟨rfl, rfl⟩⟩⟩
  obtain ⟨answer, g, hcall, -⟩ := ha (t.invocation b) h
  obtain ⟨symbols, hs⟩ : ∃ symbols, Runs (t.read b) h symbols g := by
    unfold ListingTool.read
    cases answer with
    | error e => exact ⟨none, runs_bind.mpr ⟨_, g, hcall, runs_pure.mpr ⟨rfl, rfl⟩⟩⟩
    | ok output =>
      refine ⟨if output.success then some (Symbols.ofListing output.stdout.toList b) else none,
        runs_bind.mpr ⟨_, g, hcall, ?_⟩⟩
      dsimp only
      split
      · exact runs_pure.mpr ⟨rfl, rfl⟩
      · exact runs_pure.mpr ⟨rfl, rfl⟩
  obtain ⟨fs, hp⟩ := hprologue g
  match symbols with
  | some (f :: more) => exact ⟨_, g, runs_bind.mpr ⟨_, g, hs, runs_pure.mpr ⟨rfl, rfl⟩⟩⟩
  | some [] => exact ⟨fs, g, runs_bind.mpr ⟨_, g, hs, hp⟩⟩
  | none => exact ⟨fs, g, runs_bind.mpr ⟨_, g, hs, hp⟩⟩

/-- **One binary and the corpus have the same label.**  After the labels of a dataset are stored, each row
of a recorded binary has the label that its manifest gives the binary; and as long as the manifest is the
same and no other one lies between it and the binary, any argument that leads to the binary is shown with
that label, which is the recorded identity when the entries name different files. -/
theorem label_agrees_with_corpus {said : String} (hc : o.Confined) (ha : o.runner.Answers)
    (hset : Settled start output home) (ho : InOrder home start start) (hruns : Commands o output start h)
    (hlabel : Runs (Command.labelBinaries o output).outcome h (.ok (), said) h') :
    ∃ m, Runs (loadManifest (layoutOf h output)).outcome h (.ok m) h ∧
      ∀ library key e, (library, key, e) ∈ m.entries →
        (∀ c g rows, Runs (openDatabase (layoutOf h' output)).outcome h' (.ok c) g →
          Runs (c.query (Store.Database.listFunctions (some e.binaryPath))).outcome g (.ok rows) g →
          ∀ f ∈ rows, f.label = (Labeler.ofManifest m).labelOf e.binaryPath) ∧
        ∀ g, Commands o output start g → Runs (loadManifest (layoutOf g output)).outcome g (.ok m) g →
          g.OneManifest (pathOf home) e.binaryPath →
          ∀ text, g.SameFile ⟨text⟩ e.binaryPath → g.isFile ⟨text⟩ = true →
            (∀ json, ∃ fs g', Runs (recoverFunctions (o.lister g symbolLimit) e.binaryPath) g fs g' ∧
              Runs (Command.label o text json).outcome g (.ok (), String.join ((labelLines e.binaryPath
                ((Labeler.ofManifest m).labelOf e.binaryPath) fs json).map (· ++ "\n"))) g') ∧
            (m.entries.Pairwise (fun x y => ¬ g.SameFile x.2.2.binaryPath y.2.2.binaryPath) →
              (Labeler.ofManifest m).labelOf e.binaryPath = (Labeler.originOf library e).label) := by
  have horder := ho.commands hset hc hruns
  obtain ⟨m, c, h1, limit, n, c', hm, hopen, hstore⟩ := labelBinaries_ok (Report.does_of_outcome hlabel)
  have horder' : InOrder home start h' := horder.labelBinaries hset hc (Report.does_of_outcome hlabel)
  refine ⟨m, hm, fun library key e he => ⟨fun c2 g rows hreopen hquery => ?_,
    fun g hg hmg hone text hsame hfile => ⟨fun json => ?_, fun hdistinct => ?_⟩⟩⟩
  · -- what is stored is found when the database is opened again
    rw [layoutOf, horder.path hset] at hopen
    rw [layoutOf, horder'.path hset] at hreopen
    obtain ⟨-, hserves⟩ := horder.openDatabase hset.clear hopen
    have hstored := labels_of_storeLabels (hserves c rfl).key (ListingTool.namesBinary _) hstore
      (List.mem_map_of_mem he)
    obtain ⟨hQ, -, hlabels⟩ := openDatabase_keeps hset.clear.names (horder'.leads hset.clear)
      Store.Database.Labels.fresh (fun _ _ => Store.Database.Labels.migrate) hstored hreopen
    obtain ⟨hkey, himage⟩ := hlabels c2 rfl
    obtain ⟨hrows, -⟩ := Store.Connection.runs_query.mp hquery
    exact (Store.Connection.load_of_fileHolds hkey hQ himage).label_of_list
      (Attempt.eq_ok_of_mapError hrows.symm)
  · have horderg := ho.commands hset hc hg
    obtain ⟨hload, hunder⟩ := liesUnder_of_loadManifest hset horderg hmg
    have hp := hunder _ (List.mem_map_of_mem he)
    have hbinary := binaryPath_of_sameFile (horderg.leads hset.clear) hset.clear.names hp hsame hfile
    obtain ⟨fs, g', hrecover⟩ := exists_recover (t := ⟨o.runner, ListingTool.programOn g, symbolLimit⟩) ha
      e.binaryPath g
    exact ⟨fs, g', hrecover, (label_prints hbinary (Manifest.enclosing?_eq hset.clear.names hload hp hone)
      hrecover json).runs_outcome⟩
  · have horderg := ho.commands hset hc hg
    obtain ⟨-, hunder⟩ := liesUnder_of_loadManifest hset horderg hmg
    obtain ⟨x, y, -, hy, -⟩ := hsame
    refine labelOf_of_entry he fun other hother hparts => ?_
    by_contra hne
    have hpath := LiesUnder.eq_of_parts hset.clear.names (hunder _ (List.mem_map_of_mem hother))
      (hunder _ (List.mem_map_of_mem he)) hparts
    have hsymm : Std.Symm fun x y : String × String × ManifestEntry =>
        ¬ g.SameFile x.2.2.binaryPath y.2.2.binaryPath :=
      ⟨fun x y hn hsame => by
        obtain ⟨a, b, ha, hb, hab⟩ := hsame
        exact hn ⟨b, a, hb, ha, hab.symm⟩⟩
    refine List.Pairwise.forall hdistinct hother he hne ⟨y, y, ?_, hy, rfl⟩
    rw [hpath]
    exact hy

end

/-! ## Example -/

theorem writesPrologues_answers : writesPrologues.Answers := by
  intro call h
  unfold writesPrologues
  split
  · exact Runner.writing_answers _ call h
  · exact ⟨_, h, runs_pure.mpr ⟨rfl, rfl⟩, rfl⟩

/-- Labeling goes through when the manifest is loaded, the labels are stored and the rows can be counted. -/
theorem Command.exists_labelBinaries {o : Outside} {output : String} {c c' : Store.Connection} {h1 : Host}
    {n : Nat} {stats : CorpusCounts}
    (hload : Runs (loadManifest (layoutOf h output)).outcome h (.ok m) h)
    (hopen : Runs (openDatabase (layoutOf h output)).outcome h (.ok c) h1)
    (hstore : Runs (storeLabels (o.lister h1 symbolLimit) m c).outcome h1 (.ok (n, c')) h')
    (hstats : (c'.load h').stats = .ok stats) :
    ∃ said, Runs (Command.labelBinaries o output).outcome h (.ok (), said) h' := by
  have hcontext := runs_ofRoot hload hopen
  have hquery : Runs (c'.query Store.Database.stats).outcome h' (.ok stats) h' :=
    Store.Connection.runs_query.mpr ⟨by rw [hstats]; rfl, rfl⟩
  have hline := fun line => Report.prints_tell line h'
  obtain ⟨lines, s, hcounts⟩ := Report.exists_prints_forIn (h := h') (l := stats.byAlgorithm)
    (f := fun x _ => do
      tell s!"  - {x.1}: {x.2}"
      pure (ForInStep.yield PUnit.unit))
    (fun x s => ⟨_, _, (hline _).bind (Report.prints_pure _ h')⟩) PUnit.unit
  refine ⟨_, Report.Prints.runs_outcome ((Report.prints_look _ h).bind ((Report.prints_perform hcontext).bind
    ((Report.prints_look _ h1).bind ((Report.prints_perform (Attempt.runs_inWords.mpr ⟨_, hstore, rfl⟩)).bind
    ((Report.prints_perform (Attempt.runs_inWords.mpr ⟨_, hquery, rfl⟩)).bind ((hline _).bind
    ((hline _).bind ((hline _).bind ((hline _).bind (hcounts.bind (hline _)))))))))))⟩

/-- A host in the directory `w` with a cross compiler, a configuration, the sources of a library with an
underscore in its name, and some more entries. -/
def hostWithLibrary (more : List (Key × Entry)) : Host :=
  ⟨⟨[(["bin"], .directory), (["bin", "riscv64-linux-gnu-gcc"], .file (.bytes []) true),
    (["w"], .directory), (["w", "c.json"], .file (.bytes (Text.bytesOf configuration)) false),
    (["w", "out"], .directory), (["w", "out", "sources"], .directory),
    (["w", "out", "sources", "my_lib"], .directory),
    (["w", "out", "sources", "my_lib", "f.c"], .file (.bytes []) false)] ++ more⟩,
    ["w"], [("PATH", "/bin")], ⟨0, 0⟩, "", 1, .empty⟩
where
  configuration : String :=
    "\x7b\"crypto_libraries\":[\x7b\"name\":\"my_lib\",\"functions\":[\"f\"]\x7d],\"optimization_levels\":[\"-O0\"]\x7d"

/-- The binary that is built from the sources of that library. -/
def builtArtifact : Artifact :=
  ⟨"my_lib", "f", "riscv", "-O0", "gcc", ⟨"/w/out/binaries/my_lib/my-lib_f_riscv_o0.bin"⟩,
    ⟨"/w/out/sources/my_lib/f.c"⟩, 6, "4a6eb90ede82851bf81b2bad5411c8cb"⟩

/-- The manifest of that binary alone. -/
def builtManifest : Manifest := Manifest.empty.add "my_lib" [builtArtifact]

theorem entries_builtManifest :
    builtManifest.entries = [("my_lib", builtArtifact.cell.key, .ofArtifact builtArtifact)] := by
  decide +kernel

/-- Whether the dataset of that binary is built and can be labeled, so that the host with the dataset and the
functions that are stored in the end pass a test. -/
def labelsAfterBuild (o : Outside) (output : String) (start : Host)
    (p : Host → List LabeledFunction → Bool) : Bool :=
  stores output start (.buildDataset "c.json" output false) &&
  builds o "c.json" output start fun s =>
    s.built.toOption.map (·.1) == some builtManifest && s.ended.isFile (layoutOf s.ended output).manifest &&
    match (openDatabase (layoutOf s.ended output)).outcome.run s.ended with
    | .ok (.ok c, h1) =>
      match (storeLabels (o.lister h1 symbolLimit) builtManifest c).outcome.run h1 with
      | .ok (.ok (_, c'), h') =>
        match (c'.load h').stats, (openDatabase (layoutOf h' output)).outcome.run h' with
        | .ok _, .ok (.ok c, g) =>
          let rows := (c.load g).rowsAt builtArtifact.binaryPath.text
          let stored := rows.filterMap Store.FunctionRow.toLabeled?
          (c.load g).functions.isSome && rows == stored.map Store.FunctionRow.ofLabeled && p s.ended stored
        | _, _ => false
      | _ => false
    | _ => false

theorem exists_of_labelsAfterBuild {o : Outside} {output : String} {start : Host} (hc : o.Confined)
    (hset : Settled start output home) (ho : InOrder home start start)
    {p : Host → List LabeledFunction → Bool} (hy : labelsAfterBuild o output start p = true) :
    ∃ h h' said c g stored, Commands o output start h ∧
      Runs (loadManifest (layoutOf h output)).outcome h (.ok builtManifest) h ∧
      Runs (Command.labelBinaries o output).outcome h (.ok (), said) h' ∧
      Runs (openDatabase (layoutOf h' output)).outcome h' (.ok c) g ∧
      Runs (c.query (Store.Database.listFunctions (some builtArtifact.binaryPath))).outcome g
        (.ok (stored.mergeSort Store.Database.listedUpTo)) g ∧ p h stored = true := by
  unfold labelsAfterBuild at hy
  rw [Bool.and_eq_true] at hy
  obtain ⟨hstores, hy⟩ := hy
  have hstores := stores_of_eq_true hstores
  have hnames : ∀ c, Config.load start ⟨"c.json"⟩ = .ok c → c.NamesEntries := by
    cases hstores with
    | build names => exact names
  obtain ⟨hash, b, s, ended, hp, hopen, hbuild, hend, hs⟩ := runs_of_builds hy
  rw [Bool.and_eq_true, Bool.and_eq_true, beq_iff_eq] at hs
  obtain ⟨⟨hbuilt, hfile⟩, hs⟩ := hs
  obtain ⟨summary, hbuilt⟩ : ∃ summary, s.built = .ok (builtManifest, summary) := by
    cases hr : s.built with
    | error e =>
      rw [hr] at hbuilt
      cases hbuilt
    | ok r =>
      rw [hr] at hbuilt
      exact ⟨r.2, congrArg (fun m => Except.ok (m, r.2)) (Option.some.inj hbuilt)⟩
  rw [hbuilt] at hbuild
  have hload := loadManifest_of_build hc hset ho hnames hp hopen hbuild (Report.does_of_outcome hend) hfile
  split at hs
  · next c h1 hreopen =>
    split at hs
    · next n c' h' hstore =>
      split at hs
      · next stats c2 g hstats hlast =>
        obtain ⟨said, hlabels⟩ := exists_labelBinaries hload hreopen hstore hstats
        rw [Bool.and_eq_true, Bool.and_eq_true, beq_iff_eq] at hs
        obtain ⟨⟨hsome, hrows⟩, hs⟩ := hs
        obtain ⟨all, hall⟩ := Option.isSome_iff_exists.mp hsome
        exact ⟨s.ended, h', said, c2, g, _, .step .start hstores hend, hload, hlabels, hlast,
          Store.Connection.runs_query.mpr ⟨by rw [listFunctions_of_rowsAt hall hrows]; rfl, rfl⟩, hs⟩
      · cases hs
    · cases hs
  · cases hs

/-- A binary is labeled through another directory, by its entry and not by its name, in which the library
has no underscore. -/
theorem other_spelling_has_the_stored_label :
    let o := writesAndDelivers
    let start := hostWithLibrary []
    let text := "out/../out/binaries/my_lib/my-lib_f_riscv_o0.bin"
    let label : Label := ⟨"Unknown", some "my_lib", some "riscv", some "-O0", some "f", true⟩
    o.Confined ∧ o.runner.Answers ∧ Settled start "./out" ["w", "out"] ∧ InOrder ["w", "out"] start start ∧
      ∃ h h' said c g rows fs g', Commands o "./out" start h ∧
        Runs (Command.labelBinaries o "./out").outcome h (.ok (), said) h' ∧
        Runs (openDatabase (layoutOf h' "./out")).outcome h' (.ok c) g ∧
        Runs (c.query (Store.Database.listFunctions (some builtArtifact.binaryPath))).outcome g (.ok rows) g ∧
        rows.length = 2 ∧ (∀ f ∈ rows, f.label = label) ∧
        Runs (Command.label o text false).outcome h (.ok (), String.join
          ((labelLines builtArtifact.binaryPath label fs false).map (· ++ "\n"))) g' := by
  intro o start text label
  have hc : o.Confined := writesAndDelivers_confined
  have ha : o.runner.Answers := writesPrologues_answers
  have hset : Settled start "./out" ["w", "out"] :=
    ⟨by decide, Host.clearAt_of_no_links (by decide) (by decide), Or.inr (by decide +kernel)⟩
  have ho : InOrder ["w", "out"] start start := .of_new (by decide) (by decide)
  have hyields : labelsAfterBuild o "./out" start (fun h stored =>
      decide (h.OneManifest (pathOf ["w", "out"]) builtArtifact.binaryPath) &&
        decide (h.SameFile ⟨text⟩ builtArtifact.binaryPath) && h.isFile ⟨text⟩ && stored.length == 2) = true := by
    unfold labelsAfterBuild openDatabase
    rw [Store.Connection.openAt_eq_openByVersion]
    decide +kernel
  obtain ⟨h, h', said, c, g, stored, hruns, hload, hlabels, hopen, hquery, hp⟩ :=
    exists_of_labelsAfterBuild writesAndDelivers_confined hset ho hyields
  simp only [Bool.and_eq_true, decide_eq_true_eq, beq_iff_eq] at hp
  obtain ⟨⟨⟨hone, hsame⟩, hfile⟩, htwo⟩ := hp
  obtain ⟨m, hload', hagree⟩ := label_agrees_with_corpus hc ha hset ho hruns hlabels
  obtain ⟨he, -⟩ := hload'.unique hload
  cases he
  obtain ⟨hstored, hshown⟩ := hagree _ _ (.ofArtifact builtArtifact)
    (by rw [entries_builtManifest]; exact List.mem_singleton_self _)
  obtain ⟨hprints, hidentity⟩ := hshown h hruns hload' hone text hsame hfile
  have hlabel : (Labeler.ofManifest builtManifest).labelOf builtArtifact.binaryPath = label :=
    (hidentity (by rw [entries_builtManifest]; exact List.pairwise_singleton _ _)).trans (by decide +kernel)
  obtain ⟨fs, g', -, hshow⟩ := hprints false
  exact ⟨hc, ha, hset, ho, h, h', said, c, g, _, fs, g', hruns, hlabels, hopen, hquery,
    (List.length_mergeSort stored).trans htwo, fun f hf => (hstored c g _ hopen hquery f hf).trans hlabel,
    by rw [← hlabel]; exact hshow⟩

/-- A manifest of another dataset that lies between takes the place of the one that has the entry: the
binary is labeled by its name. -/
theorem nested_manifest_hides_the_entry :
    let o := writesAndDelivers
    let start := hostWithLibrary [(["w", "out", "binaries"], .directory),
      (["w", "out", "binaries", "my_lib"], .directory),
      (["w", "out", "binaries", "my_lib", manifestFileName],
        .file (.bytes (Text.bytesOf Manifest.empty.fileText)) false)]
    let text := "out/binaries/my_lib/my-lib_f_riscv_o0.bin"
    o.Confined ∧ o.runner.Answers ∧ Settled start "out" ["w", "out"] ∧ InOrder ["w", "out"] start start ∧
      ∃ h h' said c g rows fs g', Commands o "out" start h ∧
        Runs (loadManifest (layoutOf h "out")).outcome h (.ok builtManifest) h ∧
        Runs (Command.labelBinaries o "out").outcome h (.ok (), said) h' ∧
        h.SameFile ⟨text⟩ builtArtifact.binaryPath ∧ h.isFile ⟨text⟩ = true ∧
        Runs (openDatabase (layoutOf h' "out")).outcome h' (.ok c) g ∧
        Runs (c.query (Store.Database.listFunctions (some builtArtifact.binaryPath))).outcome g (.ok rows) g ∧
        rows.length = 2 ∧ (∀ f ∈ rows, f.label.library = some "my_lib") ∧
        Runs (Command.label o text false).outcome h (.ok (), String.join
          ((labelLines builtArtifact.binaryPath ⟨"Unknown", some "my-lib", some "riscv", some "-O0", some "f",
            true⟩ fs false).map (· ++ "\n"))) g' := by
  intro o start text
  have hset : Settled start "out" ["w", "out"] :=
    ⟨by decide, Host.clearAt_of_no_links (by decide) (by decide), Or.inl (by decide)⟩
  have ho : InOrder ["w", "out"] start start := .of_new (by decide) (by decide)
  have hyields : labelsAfterBuild o "out" start (fun h stored =>
      decide (h.SameFile ⟨text⟩ builtArtifact.binaryPath) && h.isFile ⟨text⟩ && stored.length == 2 &&
        stored.all (·.label.library == some "my_lib") &&
        Manifest.enclosing? h builtArtifact.binaryPath == some .empty &&
        (binaryPath h text).toOption == some builtArtifact.binaryPath) = true := by
    unfold labelsAfterBuild openDatabase
    rw [Store.Connection.openAt_eq_openByVersion]
    decide +kernel
  obtain ⟨h, h', said, c, g, stored, hruns, hload, hlabels, hopen, hquery, hp⟩ :=
    exists_of_labelsAfterBuild writesAndDelivers_confined hset ho hyields
  simp only [Bool.and_eq_true, decide_eq_true_eq, beq_iff_eq] at hp
  obtain ⟨⟨⟨⟨⟨hsame, hfile⟩, htwo⟩, hlibraries⟩, hnested⟩, hbinary⟩ := hp
  have hpath : binaryPath h text = .ok builtArtifact.binaryPath := by
    cases hb : binaryPath h text with
    | error e =>
      rw [hb] at hbinary
      cases hbinary
    | ok p =>
      rw [hb] at hbinary
      exact congrArg Except.ok (Option.some.inj hbinary)
  obtain ⟨fs, g', hrecover⟩ := exists_recover (t := ⟨o.runner, ListingTool.programOn h, symbolLimit⟩)
    writesPrologues_answers builtArtifact.binaryPath h
  have hname : (Labeler.ofManifest .empty).labelOf builtArtifact.binaryPath =
      ⟨"Unknown", some "my-lib", some "riscv", some "-O0", some "f", true⟩ := by
    decide +kernel
  exact ⟨writesAndDelivers_confined, writesPrologues_answers, hset, ho, h, h', said, c, g, _, fs, g', hruns,
    hload, hlabels, hsame, hfile, hopen, hquery, (List.length_mergeSort stored).trans htwo,
    fun f hf => eq_of_beq (List.all_eq_true.mp hlibraries f (List.mem_mergeSort.mp hf)),
    by rw [← hname]; exact (label_prints hpath hnested hrecover false).runs_outcome⟩

end CipherCorpus
