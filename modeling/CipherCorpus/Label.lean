import CipherCorpus.Function

/-!
# Labels

A label states what a binary was built from. `Label.unknown` is the label of a binary whose origin
cannot be recovered.
-/

namespace CipherCorpus

/-- The algorithm name when no keyword of the catalog applies. -/
def noAlgorithm : String := "Unknown"

/-- Ground truth for the functions of a binary. -/
structure Label where
  algorithm : String
  library : Option String
  architecture : Option String
  optimization : Option String
  functionName : Option String
  isCrypto : Bool
deriving DecidableEq, Repr

def Label.unknown : Label := ⟨noAlgorithm, none, none, none, none, false⟩

/-- A function with the label of its binary. -/
structure LabeledFunction where
  function : FoundFunction
  label : Label
deriving DecidableEq, Repr

end CipherCorpus
