import CipherCorpus.Algorithm
import CipherCorpus.Manifest
import CipherCorpus.Origin

/-!
# Labeling binaries

A labeler knows the origins that a manifest records, by the parts of the binary's path; a later entry
for equal parts counts. Other binaries are labeled by their names. Labels depend on the binary alone,
never on the functions in it.
-/

namespace CipherCorpus

/-- Origins of known binaries, by the parts of their paths. -/
structure Labeler where
  known : List (List PathPart × Origin)

namespace Labeler

/-- Knows no binary. -/
def empty : Labeler := ⟨[]⟩

def originOf (library : String) (e : ManifestEntry) : Origin :=
  ⟨library, e.function, e.architecture, e.optimization⟩

/-- Knows the binaries of a manifest. -/
def ofManifest (m : Manifest) : Labeler :=
  ⟨(m.entries.map fun e => (e.2.2.binaryPath.parts, originOf e.1 e.2.2)).reverse⟩

/-- What a binary was built from, by the manifest or else by its name. -/
def origin? (l : Labeler) (binary : Path) : Option Origin :=
  match l.known.lookup binary.parts with
  | some o => some o
  | none => Origin.ofBinaryName? binary

end Labeler

/-- The label of an origin. -/
def Origin.label (o : Origin) : Label :=
  ⟨Algorithm.ofName o.function, some o.library, some o.architecture, some o.optimization,
    some o.function, true⟩

namespace Labeler

def labelOf (l : Labeler) (binary : Path) : Label :=
  match l.origin? binary with
  | some o => o.label
  | none => .unknown

/-- Label the functions of one binary. -/
def labelAll (l : Labeler) (binary : Path) (functions : List FoundFunction) :
    List LabeledFunction :=
  let label := l.labelOf binary
  functions.map fun f => ⟨f, label⟩

end Labeler

end CipherCorpus
