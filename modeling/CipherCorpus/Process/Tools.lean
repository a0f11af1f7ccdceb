import CipherCorpus.Process.Basic
import CipherCorpus.Shell.Evaluate
import CipherCorpus.Toolchain

/-!
# Tools on the search path

A tool runs as a process with the environment of the host and nothing to read. It is looked after
every 20 ms: a process that has ended by then is never too late, one that still runs at the first
look after its limit is stopped, with what it has done so far left in place.
-/

namespace CipherCorpus.Tools

/-- Nanoseconds between two looks at a running process. -/
def lookInterval : Nat := 20000000

/-- When a process with a limit is looked after for the last time. -/
def lastLook (limit : Duration) : Nat :=
  (limit.total + lookInterval - 1) / lookInterval * lookInterval

/-- The directories that are searched when the environment names none. -/
def standardSearch : String := "/bin:/usr/bin"

/-- The program of a name on the search path of the host. -/
def find (h : Host) (name : String) : Except FileError Shell.Program :=
  let search := (h.environmentValue? "PATH").getD standardSearch
  (Shell.Program.find h.files h.cwd search name).map (·.2)

def holdsZero (s : String) : Bool := s.toList.contains (Char.ofNat 0)

/-- The output of a process that has ended. -/
def outputOf (e : Shell.Execution) : Option ToolOutput :=
  let finished (code : Option Nat) : ToolOutput :=
    { success := code == some 0, exitCode := code
      stdout := String.ofList (Text.decodeLossy e.stdout)
      stderr := String.ofList (Text.decodeLossy e.stderr) }
  match e.ending with
  | .exited status => some (finished (some status))
  | .killed _ => some (finished none)
  | .timedOut => none

/-- Run a tool as a process. -/
def run : Runner := fun i => do
  let h ← get
  if (i.program :: i.arguments).any holdsZero then
    return .error (.notStarted i.program .zeroInArgument)
  match find h i.program with
  | .error e => return .error (.notStarted i.program e)
  | .ok program =>
    if (Duration.after? h.uptime i.limit).isNone then throw (.clockOverflow i.limit)
    if i.limit.total = 0 then return .error (.timedOut i.program i.limit)
    let e := program.run i.program i.arguments h.files h.cwd h.environment (lastLook i.limit)
    set { h with files := e.files }
    match outputOf e with
    | some output => return .ok output
    | none => return .error (.timedOut i.program i.limit)

/-- Whether a compiler is an executable file on the search path. -/
def hasCompiler (h : Host) (a : Architecture) : Bool :=
  match h.environmentValue? "PATH" with
  | none => false
  | some search =>
    (Shell.Program.candidates search a.compiler).any fun p =>
      match h.files.stat h.cwd p with
      | .ok (_, .file _ executable) => executable
      | _ => false

end CipherCorpus.Tools
