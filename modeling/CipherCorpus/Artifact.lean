import CipherCorpus.Cell
import CipherCorpus.Path

/-!
# Compiled artifacts

What is known about one binary after a successful compile.
-/

namespace CipherCorpus

/-- A binary together with the cell it was built for. -/
structure Artifact where
  library : String
  function : String
  architecture : String
  optimization : String
  compiler : String
  binaryPath : Path
  sourcePath : Path
  /-- Length of the binary in bytes. -/
  size : UInt64
  /-- MD5 of the binary in hexadecimal. -/
  md5 : String
deriving DecidableEq, Repr

def Artifact.cell (a : Artifact) : Cell := ⟨a.architecture, a.optimization, a.function⟩

end CipherCorpus
