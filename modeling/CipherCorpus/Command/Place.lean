import CipherCorpus.Command.Report
import CipherCorpus.Layout

/-!
# Paths given on the command line

A path that exists becomes its canonical path. One that does not exist yet is put below the working
directory as it is written.
-/

namespace CipherCorpus.Command

/-- The absolute path of an argument. -/
def absolutePath (h : Host) (text : String) : Path :=
  let p : Path := ⟨text⟩
  if p.same ⟨"."⟩ then h.cwdPath
  else
    match h.files.canonical h.cwd p with
    | .ok canonical => canonical
    | .error _ => h.cwdPath.join p

/-- The path of a binary that is there. -/
def binaryPath (h : Host) (text : String) : Except Failure Path :=
  let p := absolutePath h text
  if h.isFile p then .ok p else .error (.ofMessage s!"Binary file does not exist: {p.text}")

/-- The layout of a dataset root. -/
def layoutOf (h : Host) (text : String) : Layout := .ofRoot (absolutePath h text)

/-- A size in a listing. -/
def sizeText (size : Option UInt64) : String := (size.map toString).getD "-"

/-- An address in a listing. -/
def addressText (n : UInt64) : String := String.ofList ('0' :: 'x' :: Text.hex n.toNat)

end CipherCorpus.Command
