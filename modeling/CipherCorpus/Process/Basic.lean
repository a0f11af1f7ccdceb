import CipherCorpus.Host

/-!
# Running tools

A runner starts a tool and waits for it, no longer than the limit of the invocation.
-/

namespace CipherCorpus

/-- What a finished tool leaves. -/
structure ToolOutput where
  success : Bool
  /-- None when a signal ended it. -/
  exitCode : Option Nat
  stdout : String
  stderr : String
deriving DecidableEq, Repr

/-- Why a tool gave no output. -/
inductive ToolError where
  | notStarted (program : String) (error : FileError)
  | timedOut (program : String) (limit : Duration)
  | waitFailed (program : String) (error : FileError)
deriving DecidableEq, Repr

def ToolError.message : ToolError → String
  | notStarted program error => s!"failed to spawn {program}: {error.message}"
  | timedOut program limit => s!"{program} timed out after {limit.render}"
  | waitFailed program error => s!"failed waiting for {program}: {error.message}"

/-- A way to run tools. -/
abbrev Runner := Invocation → Action (Except ToolError ToolOutput)

/-- Ask the runner, and note the call in the trace once it has answered. -/
def Runner.noting (run : Runner) : Runner := fun call => do
  let answer ← run call
  modify fun h => { h with trace := { h.trace with compiles := h.trace.compiles ++ [call] } }
  return answer

end CipherCorpus
