import CipherCorpus.Compile.Matrix
import CipherCorpus.Json.Value
import CipherCorpus.Manifest

/-!
# Verifying a manifest

Every recorded binary is hashed again. One that cannot be read is missing, one with another hash is
mismatched; the order is that of the manifest.
-/

namespace CipherCorpus.Dataset

/-- The outcome of a verification. -/
structure Verification where
  checked : Nat
  missing : List Path
  mismatched : List Path
deriving DecidableEq, Repr

namespace Verification

def isOk (r : Verification) : Bool := r.missing.isEmpty && r.mismatched.isEmpty

/-- How many binaries are not as recorded. -/
def faults (r : Verification) : Nat := r.missing.length + r.mismatched.length

def toJson (r : Verification) : Json.Value :=
  .record [("checked", .count r.checked), ("missing", .list (r.missing.map fun p => .text p.text)),
    ("mismatched", .list (r.mismatched.map fun p => .text p.text))]

end Verification

/-- How a binary compares with its record. -/
inductive Finding where
  | sound
  | missing
  | mismatched
deriving DecidableEq, Repr

/-- Compare one binary with its record. -/
def findingOf (h : Host) (e : ManifestEntry) : Finding :=
  match Compiler.md5Of h e.binaryPath with
  | .error _ => .missing
  | .ok md5 => if md5 = e.md5 then .sound else .mismatched

/-- Compare every binary of a manifest with its record. -/
def verify (h : Host) (m : Manifest) : Verification :=
  let entries := m.entries.map (·.2.2)
  let pathsOf (f : Finding) : List Path :=
    (entries.filter fun e => findingOf h e = f).map (·.binaryPath)
  ⟨entries.length, pathsOf .missing, pathsOf .mismatched⟩

end CipherCorpus.Dataset
