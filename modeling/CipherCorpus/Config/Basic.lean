import CipherCorpus.Compile.Options

/-!
# The configuration of a dataset

Which libraries are built, at which levels, with which compiler and limits.
-/

namespace CipherCorpus

/-- One library to build. -/
structure Library where
  name : String
  version : Option String
  /-- Archive to download when the sources are not cached. -/
  url : Option String
  /-- Functions to compile, in place of the catalog's. -/
  functions : Option (List String)
deriving DecidableEq, Repr

def Library.named (name : String) : Library := ⟨name, none, none, none⟩

/-- Settings of one dataset build. -/
structure Config where
  libraries : List Library
  levels : List String
  compiler : String
  jobs : UInt64
  compileSeconds : UInt64
  symbolSeconds : UInt64
deriving DecidableEq, Repr

namespace Config

def standard : Config := ⟨[], standardLevels, standardCompiler, 0, 300, 30⟩

instance : Inhabited Config := ⟨standard⟩

def compileLimit (c : Config) : Duration := .ofSeconds c.compileSeconds.toNat

def symbolLimit (c : Config) : Duration := .ofSeconds c.symbolSeconds.toNat

def compileSettings (c : Config) : CompileSettings := ⟨c.levels, c.compiler, c.jobs, c.compileLimit⟩

end Config

end CipherCorpus
