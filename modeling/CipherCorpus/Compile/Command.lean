import CipherCorpus.Path
import CipherCorpus.Toolchain

/-!
# The command line of one compile

The arguments are the level, the flags of the architecture, the cross target, the fixed flags, output,
source and extra flags; empty ones are dropped.
-/

namespace CipherCorpus

/-- The architectures that one clang driver compiles for. -/
def targetTriplets : List String := ["x86", "x86-64"]

/-- Program and cross-target flag. -/
def compilerFor (a : Architecture) (compiler : String) : String × String :=
  if compiler = "clang" && targetTriplets.contains a.id then ("clang", "--target=" ++ a.triplet)
  else (a.compiler, "")

/-- Program and arguments for one compile. -/
def commandFor (a : Architecture) (level compiler : String) (source output : Path)
    (extra : List String) : String × List String :=
  let (program, target) := compilerFor a compiler
  let arguments :=
    level :: a.flags ++ [target, "-static", "-fno-stack-protector", "-o", output.text, source.text] ++
      extra
  (program, arguments.filter (· != ""))

end CipherCorpus
