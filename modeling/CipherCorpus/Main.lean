import CipherCorpus.Archive.Unpack
import CipherCorpus.Command.Arguments

/-!
# The program

The program works on a tree of files of its own. A gzip-compressed tar stream on standard input is
unpacked into the working directory before the command runs; what the command prints goes to standard
output, and the line that tells of a failure to standard error.
-/

namespace CipherCorpus.Program

/-- The directory that a command starts in. -/
def workingDirectory : Key := ["work"]

/-- A machine with an empty working directory. -/
def emptyHost (environment : List (String × String)) : Host where
  files := FileTree.empty.put workingDirectory .directory
  cwd := workingDirectory
  environment := environment
  uptime := .ofSeconds 1
  date := "1970-01-01T00:00:00+00:00"
  threadLimit := UInt64.size
  trace := .empty

/-- The machine with the archive unpacked, as far as it can be. -/
def hostWith (environment : List (String × String)) (archive : List UInt8) : Host :=
  let h := emptyHost environment
  if archive.isEmpty then h
  else { h with files := ((Archive.unpackTar h.cwd archive ⟨"."⟩).run.run h.files).2 }

/-- How the program ends on a machine. -/
def exitOn (h : Host) (arguments : List String) : Command.Exit :=
  match (Command.run arguments).run h with
  | .ok (exit, _) => exit
  | .error (.clockOverflow limit) =>
    ⟨101, "", some s!"no point in time lies {limit.render} ahead"⟩

/-- The variables that a command looks at. -/
def variableNames : List String :=
  ["PATH", "READELF_BIN"] ++
    (["JOBS", "COMPILER", "COMPILE_TIMEOUT_SECS", "SYMBOL_TIMEOUT_SECS", "OPTIMIZATION_LEVELS"].map
      (overrideLead ++ ·))

partial def readAll (input : IO.FS.Stream) (bytes : ByteArray) : IO ByteArray := do
  let more ← input.read 65536
  if more.isEmpty then return bytes else readAll input (bytes ++ more)

def environment : IO (List (String × String)) :=
  variableNames.filterMapM fun name => do
    return (← IO.getEnv name).map fun value => (name, value)

end CipherCorpus.Program

def main (arguments : List String) : IO UInt32 := do
  let archive ← CipherCorpus.Program.readAll (← IO.getStdin) ByteArray.empty
  let host := CipherCorpus.Program.hostWith (← CipherCorpus.Program.environment) archive.toList
  let exit := CipherCorpus.Program.exitOn host arguments
  IO.print exit.output
  exit.errorLine.forM IO.eprintln
  return UInt32.ofNat exit.code
