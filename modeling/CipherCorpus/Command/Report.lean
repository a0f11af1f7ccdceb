import CipherCorpus.Failure
import CipherCorpus.Process.Tools
import CipherCorpus.Sources.Cache
import CipherCorpus.Symbols.Recovery

/-!
# What commands print and use

A command prints lines and may fail; lines printed before a failure stay printed. What it asks of the
outside is given to it; the program gives it the tools of the host.
-/

namespace CipherCorpus.Command

/-- A step of a command: it prints lines and may fail. -/
abbrev Report := ExceptT Failure (StateT (List String) Action)

/-- Print a line. -/
def tell (line : String) : Report Unit := modifyThe (List String) (· ++ [line])

/-- An attempt as a step that prints nothing. -/
def perform {α : Type} (a : Attempt Failure α) : Report α :=
  ExceptT.mk (StateT.lift a.outcome)

/-- An action as a step that prints nothing. -/
def act {α : Type} (a : Action α) : Report α := ExceptT.lift (StateT.lift a)

def look {α : Type} (f : Host → α) : Report α := act (inspect f)

/-- The outcome of a command and the text it printed. -/
def Report.outcome (r : Report Unit) : Action (Except Failure Unit × String) := do
  let (outcome, lines) ← r.run.run []
  return (outcome, String.join (lines.map (· ++ "\n")))

/-- Where addresses lead when there is no network. -/
def unreachable : Fetcher := fun url _ => throw (.download url "network unreachable")

/-- What a command asks of the outside: tools to run, and addresses to fetch from. -/
structure Outside where
  runner : Runner
  fetcher : Fetcher

namespace Outside

/-- The tools of the host, and no network. -/
def ofHost : Outside := ⟨Tools.run, unreachable⟩

/-- The reader that runs the symbol lister which the host names. -/
def lister (o : Outside) (h : Host) (limit : Duration) : SymbolSource :=
  (⟨o.runner, ListingTool.programOn h, limit⟩ : ListingTool).read

end Outside

/-- The reader that runs the symbol lister of the host. -/
def listingReader (h : Host) (limit : Duration) : SymbolSource := Outside.ofHost.lister h limit

end CipherCorpus.Command
