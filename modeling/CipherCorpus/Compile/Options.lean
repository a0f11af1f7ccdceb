import CipherCorpus.Duration

/-!
# Options of a matrix run
-/

namespace CipherCorpus

/-- The levels that are compiled when nothing else is asked for. -/
def standardLevels : List String := ["-O0", "-O1", "-O2", "-O3", "-Os"]

/-- The compilers that a configuration may name. -/
def knownCompilers : List String := ["gcc", "clang"]

def standardCompiler : String := "gcc"

/-- Time for one compile. -/
def compileLimit : Duration := .ofSeconds 300

/-- Time for one symbol listing. -/
def symbolLimit : Duration := .ofSeconds 30

/-- How a matrix is compiled. -/
structure CompileSettings where
  levels : List String
  compiler : String
  /-- Worker threads; zero leaves the number to the host. -/
  jobs : UInt64
  limit : Duration
deriving DecidableEq, Repr

def CompileSettings.standard : CompileSettings := ⟨standardLevels, standardCompiler, 0, compileLimit⟩

end CipherCorpus
