import CipherCorpus.Process.Basic
import CipherCorpus.Symbols.Elf
import CipherCorpus.Symbols.Listing
import CipherCorpus.Symbols.Prologue

/-!
# Recovering the functions of a binary

A source of symbols answers none when it could not run. Functions come from its symbols alone when there
are any, and from prologues otherwise; a file that cannot be read has no functions.
-/

namespace CipherCorpus

/-- Gives the functions of a binary, none when it could not run. -/
abbrev SymbolSource := Path → Action (Option (List FoundFunction))

/-- The listing tool and its time limit. -/
structure ListingTool where
  runner : Runner
  program : String
  limit : Duration

namespace ListingTool

/-- The program that the environment names, or `readelf`. -/
def programOn (h : Host) : String := (h.environmentValue? "READELF_BIN").getD "readelf"

/-- The call that lists the symbols of a binary with full names. -/
def invocation (t : ListingTool) (binary : Path) : Invocation :=
  ⟨t.program, ["-s", "-W", binary.text], t.limit⟩

/-- The functions that the tool lists. -/
def read (t : ListingTool) : SymbolSource := fun binary => do
  match ← t.runner (t.invocation binary) with
  | .ok output =>
    if output.success then return some (Symbols.ofListing output.stdout.toList binary)
    else return none
  | .error _ => return none

end ListingTool

/-- Reads ELF files without a tool. -/
def Elf.read : SymbolSource := fun binary => do
  match ← inspect (·.read binary) with
  | .ok data => return functions? data binary
  | .error _ => return none

/-- The functions guessed from the prologues of a binary. -/
def Prologue.read (binary : Path) : Action (List FoundFunction) := do
  match ← inspect (·.read binary) with
  | .ok data => return functions data binary
  | .error _ => return []

/-- The functions of a binary, by symbols if there are any. -/
def recoverFunctions (reader : SymbolSource) (binary : Path) : Action (List FoundFunction) := do
  match ← reader binary with
  | some (f :: more) => return f :: more
  | _ => Prologue.read binary

end CipherCorpus
