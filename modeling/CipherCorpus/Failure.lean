import CipherCorpus.Host
import CipherCorpus.Store.Connection

/-!
# Failures of a command

A failure is told by a chain of messages, the outermost first, each followed by its cause.
-/

namespace CipherCorpus

/-- Messages from the outermost to the innermost. -/
structure Failure where
  chain : List String
deriving DecidableEq, Repr

namespace Failure

def ofMessage (text : String) : Failure := ⟨[text]⟩

/-- The failure under a message that tells what was being done. -/
def under (text : String) (f : Failure) : Failure := ⟨text :: f.chain⟩

def ofFile (e : FileError) : Failure := ⟨[e.message]⟩

/-- The outermost message. -/
def message (f : Failure) : String := f.chain.headD ""

end Failure

/-- The message of a database error inside a chain. -/
def Store.DatabaseError.chainMessage (e : Store.DatabaseError) : String :=
  match e with
  | .unsupportedVersion _ => e.message
  | .engine fault => "SQLite error: " ++ fault.message

def Failure.ofDatabase (e : Store.DatabaseError) : Failure := ⟨[e.chainMessage]⟩

end CipherCorpus
