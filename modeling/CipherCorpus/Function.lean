import CipherCorpus.Path

/-!
# Functions found in binaries

A function has an address and a name, and a size when a symbol table gives one; a function guessed
from its prologue has none.
-/

namespace CipherCorpus

/-- Where the bounds of a function come from. -/
inductive Evidence where
  /-- A symbol-table entry. -/
  | symbol
  /-- A prologue pattern in the code. -/
  | heuristic
deriving DecidableEq, Repr, Inhabited

def Evidence.name : Evidence → String
  | symbol => "symbol"
  | heuristic => "heuristic"

def Evidence.ofName? (s : String) : Option Evidence :=
  if s = "symbol" then some .symbol else if s = "heuristic" then some .heuristic else none

theorem Evidence.ofName?_name (e : Evidence) : ofName? e.name = some e := by
  cases e <;> rfl

/-- A function of one binary. -/
structure FoundFunction where
  binaryPath : Path
  address : UInt64
  size : Option UInt64
  name : String
  evidence : Evidence
deriving DecidableEq, Repr

end CipherCorpus
