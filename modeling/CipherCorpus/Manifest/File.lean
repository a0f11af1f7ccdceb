import CipherCorpus.Host
import CipherCorpus.Json.Records
import CipherCorpus.Layout

/-!
# The manifest as a file
-/

namespace CipherCorpus

/-- Why a manifest is not read or written. -/
inductive ManifestError where
  | files (path : Path) (error : FileError)
  | json (path : Path) (fault : Json.Fault)
deriving DecidableEq, Repr

namespace ManifestError

def message : ManifestError → String
  | files path error => s!"I/O error on metadata file {path.text}: {error.message}"
  | json path _ => s!"Invalid metadata JSON in {path.text}"

/-- The message and those of its causes. -/
def causes (e : ManifestError) : List String :=
  match e with
  | files _ error => [e.message, error.message]
  | json _ _ => [e.message]

end ManifestError

namespace Manifest

/-- The text of a manifest file. -/
def fileText (m : Manifest) : String := (Json.toJson m).prettyText

/-- The manifest in a text. -/
def ofFileText (text : List Char) : Except Json.Fault Manifest :=
  Json.Document.read Manifest (Json.Input.ofChars text)

def load (p : Path) : Attempt ManifestError Manifest := do
  let h ← get
  match h.files.readText h.cwd p with
  | .error e => throw (.files p e)
  | .ok text =>
    match ofFileText text with
    | .ok m => return m
    | .error fault => throw (.json p fault)

/-- Write a manifest; the directory it goes into is made first. -/
def save (m : Manifest) (p : Path) : Attempt ManifestError Unit := do
  match p.parent? with
  | some parent => (change fun t cwd => t.makeDirectories cwd parent).inWords (.files parent)
  | none => pure ()
  (change fun t cwd => t.writeBytes cwd p (Text.bytesOf m.fileText)).inWords (.files p)

/-- The manifest of the dataset that a binary lies in: the innermost one above it, if it is sound. -/
def enclosing? (h : Host) (binary : Path) : Option Manifest :=
  let candidates := (binary.ancestors.drop 1).map (·.child manifestFileName)
  match candidates.find? h.isFile with
  | none => none
  | some p =>
    match h.files.readText h.cwd p with
    | .ok text => (ofFileText text).toOption
    | .error _ => none

end Manifest

end CipherCorpus
