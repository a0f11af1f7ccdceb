import CipherCorpus.Proofs.Json.Shapes
import CipherCorpus.Proofs.Manifest.File

/-!
# Every record is read back from its text

Each record type has one fact about reading (its decoder reads the JSON value) and one about the way back
(the value gives the record); together they are `Document.Faithful`, from which both layouts of the text are
read back (`Document.Faithful.roundTrips`):

    read (compact text of x) = x,      read (pretty text of x) = x                 (records_round_trip)
-/

namespace CipherCorpus.Json

/-- Every record is read back from both layouts of its text. -/
def RoundTrips (α : Type) [Document α] : Prop := ∀ x : α,
  Document.read α (.ofChars (toJson x).compactText.toList) = .ok x ∧
  Document.read α (.ofChars (toJson x).prettyText.toList) = .ok x

theorem Document.Faithful.roundTrips {α : Type} [Document α] (h : Document.Faithful α depthLimit) :
    RoundTrips α := by
  intro x
  refine ⟨?_, h.read_prettyText x⟩
  unfold Value.compactText
  rw [String.toList_ofList, compact_eq_written 0]
  exact h.read_written .dense 0 x

/-! ## Fields that may be missing -/

/-- A field that is there or may be left out. -/
theorem Fits.present {depth : Nat} {f : Field} {fs : List Field} {v? : Option Value}
    {more : List (String × Option Value)} (hr : ∀ v, v? = some v → Reads f.decoder depth v)
    (hp : v? = none → f.presence ≠ .required)
    (h : Fits depth fs (more.filterMap fun f => f.2.map fun v => (f.1, v))) :
    Fits depth (f :: fs) (((f.name, v?) :: more).filterMap fun f => f.2.map fun v => (f.1, v)) := by
  cases v? with
  | none => exact .skip (hp rfl) h
  | some v => exact .cons (hr v rfl) h

/-- A value or null is read where there is a value. -/
theorem reads_some {α : Type} {d : Decoder} {depth : Nat} {f : α → Value} (h : ∀ x, Reads d depth (f x))
    (hv : ∀ x, f x ≠ .null) {o : Option α} : ∀ v, o.map f = some v → Reads (nullable d) depth v := by
  intro v he
  obtain ⟨x, -, rfl⟩ := Option.map_eq_some_iff.mp he
  exact reads_nullable (h x) (hv x)

theorem mapM_back {α : Type} {f : α → Value} {back : Value → Option α} (h : ∀ x, back (f x) = some x)
    (xs : List α) : (xs.map f).mapM back = some xs := by
  induction xs with
  | nil => rfl
  | cons x xs ih =>
    rw [List.map_cons, List.mapM_cons, ih, h]
    rfl

theorem texts?_texts (ss : List String) : (Value.texts ss).texts? = some ss := by
  show (ss.map Value.text).mapM Value.text? = some ss
  exact mapM_back (f := .text) (fun _ => rfl) ss

theorem reads_texts (depth : Nat) (ss : List String) : Reads (list text) (depth + 1) (.texts ss) := by
  refine reads_list fun v hv => ?_
  obtain ⟨s, -, rfl⟩ := List.mem_map.mp hv
  exact reads_text _ s

theorem reads_word (depth : Nat) (n : UInt64) : Reads count depth (.word n) := reads_count depth n.toNat_lt

/-! ## Records of a build -/

theorem cell_faithful (depth : Nat) : Document.Faithful Cell (depth + 1) where
  reads _ := reads_record (by decide)
    (.cons (reads_text _ _) (.cons (reads_text _ _) (.cons (reads_text _ _) .nil)))
  back _ := rfl

theorem artifact_faithful (depth : Nat) : Document.Faithful Artifact (depth + 1) where
  reads a := by
    refine reads_record (by decide) ?_
    exact .cons (reads_text _ _) (.cons (reads_text _ _) (.cons (reads_text _ _) (.cons (reads_text _ _)
      (.cons (reads_text _ _) (.cons (reads_text _ _) (.cons (reads_text _ _) (.cons (reads_word _ _)
        (.cons (reads_text _ _) .nil))))))))
  back a := by
    have hsize : (toJson a).wordField? "size" = some a.size := word?_word a.size
    show (do
      let size ← (toJson a).wordField? "size"
      return { a with size := size }) = some a
    rw [hsize]
    rfl

/-- The hash of a run may be missing. -/
theorem reads_optional (depth : Nat) (o : Option String) : Reads (nullable text) depth (.optional o) := by
  cases o with
  | none => exact reads_null text depth
  | some s => exact reads_nullable (reads_text depth s) nofun

theorem run_faithful (depth : Nat) : Document.Faithful BuildRun (depth + 1) where
  reads r := by
    have hstatus : r.status.name ∈ ["succeeded", "partial", "failed"] := by
      cases r.status <;> decide
    refine reads_record (by decide) ?_
    exact .cons (reads_optional _ _) (.cons (reads_oneOfWith _ hstatus) (.cons (reads_word _ _)
      (.cons (reads_word _ _) (.cons (reads_word _ _) (.cons (reads_word _ _) (.cons (reads_text _ _)
        (.cons (reads_text _ _) .nil)))))))
  back r := by
    have hhash : (toJson r).maybeField "config_hash" Value.text? = some r.configHash := by
      obtain ⟨hash, _⟩ := r
      cases hash <;> rfl
    have hstatus : ((toJson r).textField? "status").bind RunStatus.ofName? = some r.status := by
      obtain ⟨_, status, _⟩ := r
      cases status <;> rfl
    have hattempted : (toJson r).wordField? "attempted" = some r.attempted := word?_word _
    have hsucceeded : (toJson r).wordField? "succeeded" = some r.succeeded := word?_word _
    have hfailed : (toJson r).wordField? "failed" = some r.failed := word?_word _
    have hbuilt : (toJson r).wordField? "libraries_built" = some r.builtLibraries := word?_word _
    unfold Document.ofJson?
    simp only [instDocumentBuildRun, hhash, hstatus, hattempted, hsucceeded, hfailed, hbuilt]
    rfl

/-! ## Records of functions -/

theorem fits_functionJson {depth : Nat} {words : Decoder} (hw : ∀ e : Evidence, Reads words depth (.text e.name))
    (f : FoundFunction) : Fits depth (functionFields words) (functionJson f) :=
  .cons (reads_text _ _) (.cons (reads_word _ _) (.cons (reads_getD_null (reads_word _) (fun _ => nofun) _)
    (.cons (reads_text _ _) (.cons (hw _) .nil))))

theorem name_mem_evidenceWords (e : Evidence) : e.name ∈ evidenceWords := by
  cases e <;> decide

theorem functionOf?_of_fields {f : FoundFunction} {v : Value}
    (hv : ∀ name ∈ (functionJson f).map Prod.fst, v.field? name = (functionJson f).lookup name) :
    functionOf? v = some f := by
  have hbinary : v.textField? "binary_path" = some f.binaryPath.text := by
    unfold Value.textField?
    rw [hv _ (by simp [functionJson])]
    rfl
  have haddress : v.wordField? "address" = some f.address := by
    unfold Value.wordField?
    rw [hv _ (by simp [functionJson])]
    exact word?_word f.address
  have hsize : v.maybeField "size" Value.word? = some f.size := by
    unfold Value.maybeField
    rw [hv _ (by simp [functionJson])]
    have hlook : (functionJson f).lookup "size" = some ((f.size.map Value.word).getD .null) := rfl
    rw [hlook]
    cases f.size with
    | none => rfl
    | some n => exact congrArg (Option.map some) (word?_word n)
  have hname : v.textField? "name" = some f.name := by
    unfold Value.textField?
    rw [hv _ (by simp [functionJson])]
    rfl
  have hevidence : (v.textField? "provenance").bind Evidence.ofName? = some f.evidence := by
    unfold Value.textField?
    rw [hv _ (by simp [functionJson])]
    exact Evidence.ofName?_name f.evidence
  unfold functionOf?
  rw [hbinary, haddress, hsize, hname, hevidence]
  rfl

theorem function_faithful (depth : Nat) : Document.Faithful FoundFunction (depth + 1) where
  reads f := reads_record (by decide)
    (fits_functionJson (fun e => reads_oneOfWith depth (name_mem_evidenceWords e)) f)
  back f := functionOf?_of_fields fun _ _ => rfl

theorem label_faithful (depth : Nat) : Document.Faithful Label (depth + 1) where
  reads l := by
    have hmaybe : ∀ (o : Option String) (v : Value), o.map .text = some v → Reads (nullable text) depth v :=
      fun o => reads_some (reads_text depth) (fun _ => nofun)
    refine reads_record (by decide) ?_
    refine .present (fun v hv => ?_) nofun (.present (hmaybe _) (fun _ => nofun) (.present (hmaybe _)
      (fun _ => nofun) (.present (hmaybe _) (fun _ => nofun) (.present (hmaybe _) (fun _ => nofun)
        (.present (fun v hv => ?_) nofun .nil)))))
    · cases hv
      exact reads_text _ _
    · cases hv
      exact reads_truth _ _
  back l := by
    obtain ⟨algorithm, library, architecture, optimization, functionName, isCrypto⟩ := l
    cases library <;> cases architecture <;> cases optimization <;> cases functionName <;> rfl

theorem labeled_faithful (depth : Nat) : Document.Faithful LabeledFunction (depth + 2) where
  reads f := by
    have hpass : ∀ e ∈ functionJson f.function, Passes (depth + 1) e.2 := by
      unfold functionJson
      simp only [List.forall_mem_cons]
      refine ⟨passes_text _ _, passes_count _ f.function.address.toNat_lt, ?_, passes_text _ _,
        passes_text _ _, nofun⟩
      cases f.function.size with
      | none => exact passes_null _
      | some n => exact passes_count _ n.toNat_lt
    have hevidence : ∀ e : Evidence, Reads (oneOfWith looseUnit evidenceWords) (depth + 1) (.text e.name) :=
      fun e => reads_oneOfWith (depth + 1) (name_mem_evidenceWords e)
    have hfits := fits_functionJson hevidence f.function
    exact reads_flattened (by decide) (by decide) hfits hpass ((label_faithful depth).reads f.label)
  back f := by
    have hfunction : functionOf? (toJson f) = some f.function := functionOf?_of_fields fun name hn => by
      simp only [functionJson, List.map_cons, List.map_nil, List.mem_cons, List.not_mem_nil, or_false] at hn
      rcases hn with rfl | rfl | rfl | rfl | rfl <;> rfl
    have hlabel : ((toJson f).field? "label").bind Document.ofJson? = some f.label :=
      (label_faithful depth).back f.label
    show (do return ⟨← functionOf? (toJson f), ← ((toJson f).field? "label").bind Document.ofJson?⟩) = some f
    rw [hfunction, hlabel]
    rfl

/-! ## Totals -/

theorem counts_faithful (depth : Nat) : Document.Faithful CorpusCounts (depth + 3) where
  reads s := by
    refine reads_record (by decide) ?_
    refine .cons (reads_word _ _) (.cons (reads_word _ _) (.cons (reads_word _ _) (.cons ?_ .nil)))
    refine reads_list fun v hv => ?_
    obtain ⟨a, -, rfl⟩ := List.mem_map.mp hv
    exact reads_pair (reads_text _ _) (reads_word _ _)
  back s := by
    have hfunctions : (toJson s).wordField? "functions" = some s.functions := word?_word _
    have hcrypto : (toJson s).wordField? "crypto_functions" = some s.cryptoFunctions := word?_word _
    have hbinaries : (toJson s).wordField? "binaries" = some s.binaries := word?_word _
    have halgorithms : (((toJson s).field? "by_algorithm").bind Value.list?).bind (·.mapM countOf?) =
        some s.byAlgorithm := mapM_back (fun a => by
          show (do return (← (Value.text a.1).text?, ← (Value.word a.2).word?)) = some a
          rw [word?_word]
          rfl) s.byAlgorithm
    unfold Document.ofJson?
    simp only [instDocumentCorpusCounts, hfunctions, hcrypto, hbinaries, halgorithms]
    rfl

/-! ## Configurations -/

theorem library_faithful (depth : Nat) : Document.Faithful Library (depth + 2) where
  reads l := by
    have hmaybe : ∀ (o : Option String) (v : Value), o.map .text = some v → Reads (nullable text) (depth + 1) v :=
      fun o => reads_some (reads_text _) (fun _ => nofun)
    refine reads_record (by decide) ?_
    refine .present (fun v hv => ?_) nofun (.present (hmaybe _) (fun _ => nofun) (.present (hmaybe _)
      (fun _ => nofun) (.present (reads_some (reads_texts depth) (fun _ => nofun)) (fun _ => nofun) .nil)))
    cases hv
    exact reads_text _ _
  back l := by
    obtain ⟨name, version, url, functions⟩ := l
    cases functions with
    | none => cases version <;> cases url <;> rfl
    | some fs =>
      have hback : ∀ version url : Option String,
          ((Value.texts fs).texts?.map some).bind (fun functions => some (⟨name, version, url, functions⟩ : Library)) =
            some ⟨name, version, url, some fs⟩ := by
        intro version url
        rw [texts?_texts]
        rfl
      cases version <;> cases url <;> exact hback _ _

theorem config_faithful (depth : Nat) : Document.Faithful Config (depth + 4) where
  reads c := by
    refine reads_record (by decide) ?_
    refine .cons (reads_list fun v hv => ?_) (.cons (reads_texts _ _) (.cons (reads_text _ _)
      (.cons (reads_word _ _) (.cons (reads_word _ _) (.cons (reads_word _ _) .nil)))))
    obtain ⟨l, -, rfl⟩ := List.mem_map.mp hv
    exact (library_faithful depth).reads l
  back c := by
    have hlibraries : settingOr Config.standard.libraries (toJson c) "crypto_libraries"
        (fun w => w.list?.bind (·.mapM Document.ofJson?)) = some c.libraries :=
      mapM_back (library_faithful depth).back c.libraries
    have hlevels : settingOr Config.standard.levels (toJson c) "optimization_levels" Value.texts? =
        some c.levels := texts?_texts c.levels
    have hjobs : settingOr Config.standard.jobs (toJson c) "jobs" Value.word? = some c.jobs := word?_word _
    have hcompile : settingOr Config.standard.compileSeconds (toJson c) "compile_timeout_secs" Value.word? =
        some c.compileSeconds := word?_word _
    have hsymbol : settingOr Config.standard.symbolSeconds (toJson c) "symbol_timeout_secs" Value.word? =
        some c.symbolSeconds := word?_word _
    unfold Document.ofJson?
    simp only [instDocumentConfig, hlibraries, hlevels, hjobs, hcompile, hsymbol]
    rfl

/-! ## Main result -/

/-- **Every record is read back** from both layouts of its text, whatever characters its texts hold and
whatever is missing; and a manifest that was saved is loaded again. -/
theorem records_round_trip :
    RoundTrips Manifest ∧ RoundTrips ManifestEntry ∧ RoundTrips Artifact ∧ RoundTrips Cell ∧
    RoundTrips FoundFunction ∧ RoundTrips Label ∧ RoundTrips LabeledFunction ∧ RoundTrips BuildRun ∧
    RoundTrips CorpusCounts ∧ RoundTrips Library ∧ RoundTrips Config ∧
    ∀ (m : Manifest) (p : Path) (h h' : Host), Runs (m.save p).outcome h (.ok ()) h' →
      Runs (Manifest.load p).outcome h' (.ok m) h' :=
  ⟨(manifest_faithful 124).roundTrips, (entry_faithful 126).roundTrips, (artifact_faithful 126).roundTrips,
    (cell_faithful 126).roundTrips, (function_faithful 126).roundTrips, (label_faithful 126).roundTrips,
    (labeled_faithful 125).roundTrips, (run_faithful 126).roundTrips, (counts_faithful 124).roundTrips,
    (library_faithful 125).roundTrips, (config_faithful 123).roundTrips,
    fun _ _ _ _ hs => Manifest.load_of_saved hs⟩

/-- A manifest with quotes, a backslash, control characters and the largest size is saved and loaded again. -/
theorem awkward_manifest_is_loaded_again :
    let library := "a\"b\\\n"
    let m := Manifest.empty.add library
      [⟨library, "f\u0001", "x86", "-O2", "gcc", ⟨"/b.bin"⟩, ⟨"/s.c"⟩, 18446744073709551615, "é"⟩]
    let h : Host := ⟨.empty, [], [], ⟨0, 0⟩, "", 1, .empty⟩
    ∃ h', Runs (m.save ⟨"/m.json"⟩).outcome h (.ok ()) h' ∧ Runs (Manifest.load ⟨"/m.json"⟩).outcome h' (.ok m) h' := by
  intro library m h
  have hsaves : ((m.save ⟨"/m.json"⟩).outcome.run h).toOption.any (·.1.isOk) = true := by decide +kernel
  obtain ⟨h', hr⟩ : ∃ h', Runs (m.save ⟨"/m.json"⟩).outcome h (.ok ()) h' := by
    cases hrun : (m.save ⟨"/m.json"⟩).outcome.run h with
    | error e =>
      rw [hrun] at hsaves
      cases hsaves
    | ok r =>
      obtain ⟨answer, h'⟩ := r
      rw [hrun] at hsaves
      cases answer with
      | error e => cases hsaves
      | ok u => exact ⟨h', hrun⟩
  obtain ⟨-, -, -, -, -, -, -, -, -, -, -, hload⟩ := records_round_trip
  exact ⟨h', hr, hload m ⟨"/m.json"⟩ h h' hr⟩

end CipherCorpus.Json
