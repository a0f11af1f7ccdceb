import CipherCorpus.Labeler
import CipherCorpus.Store.Connection
import CipherCorpus.Symbols.Recovery

/-!
# Labeling a dataset

The functions of every recorded binary, in manifest order, each with the label of its binary. Storing
them replaces all that is stored for these binaries.
-/

namespace CipherCorpus.Dataset

/-- The labeled functions of some binaries. -/
def labelBinaries (reader : SymbolSource) (l : Labeler) :
    List Path → Action (List LabeledFunction)
  | [] => return []
  | binary :: rest => do
    let functions ← recoverFunctions reader binary
    return l.labelAll binary functions ++ (← labelBinaries reader l rest)

/-- The labeled functions of a manifest's binaries. -/
def labelManifest (reader : SymbolSource) (m : Manifest) : Action (List LabeledFunction) :=
  labelBinaries reader (.ofManifest m) m.binaries

/-- Store the labeled functions of a manifest's binaries in place of what is stored for them. -/
def storeLabels (reader : SymbolSource) (m : Manifest) (c : Store.Connection) :
    Attempt Store.DatabaseError (Nat × Store.Connection) := do
  let labeled ← .ofAction (labelManifest reader m)
  c.transact (Store.Database.replaceFunctions m.binaries labeled)

end CipherCorpus.Dataset
