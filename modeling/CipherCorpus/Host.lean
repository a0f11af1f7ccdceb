import CipherCorpus.Duration
import CipherCorpus.FileTree.Change

/-!
# The machine that a command runs on

A host is a tree of files with a working directory, the environment, a clock, and a trace of what was
asked of the outside: tools started, archives fetched, cells finished. An `Action` changes the host
and may be cut short by an `Abort`; an `Attempt` may in addition fail with an error of its own, which
keeps the changes made so far.
-/

namespace CipherCorpus

/-- A tool to run: program, arguments and time limit. -/
structure Invocation where
  program : String
  arguments : List String
  limit : Duration
deriving DecidableEq, Repr

/-- One finished cell, as shown to an observer of a matrix run. -/
structure Progress where
  completed : Nat
  total : Nat
deriving DecidableEq, Repr

/-- What was asked of the outside, in order. -/
structure Trace where
  compiles : List Invocation
  fetches : List String
  progress : List Progress

def Trace.empty : Trace := ⟨[], [], []⟩

/-- The state of the machine. -/
structure Host where
  files : FileTree
  cwd : Key
  environment : List (String × String)
  /-- Time since the machine was started. -/
  uptime : Duration
  /-- Date and time as written into records. -/
  date : String
  /-- How many worker threads can be started at once. -/
  threadLimit : Nat
  trace : Trace

/-- What ends a run at once. -/
inductive Abort where
  /-- A time limit reaches beyond the last point in time. -/
  | clockOverflow (limit : Duration)
deriving DecidableEq, Repr

abbrev Action := StateT Host (Except Abort)

abbrev Attempt (ε : Type) := ExceptT ε Action

namespace Host

def environmentValue? (h : Host) (name : String) : Option String := h.environment.lookup name

def setVariable (h : Host) (name value : String) : Host :=
  { h with environment := (name, value) :: h.environment.filter (·.1 != name) }

/-- The absolute path of the working directory. -/
def cwdPath (h : Host) : Path := FileTree.pathOf h.cwd

def isThere (h : Host) (p : Path) : Bool := h.files.isThere h.cwd p

def isFile (h : Host) (p : Path) : Bool := h.files.isFile h.cwd p

def isDirectory (h : Host) (p : Path) : Bool := h.files.isDirectory h.cwd p

def read (h : Host) (p : Path) : Except FileError (List UInt8) := h.files.read h.cwd p

end Host

/-- Look at the host. -/
def inspect {m : Type → Type} {α : Type} [Monad m] [MonadStateOf Host m] (f : Host → α) : m α := do
  return f (← get)

/-- Change the files, or fail and leave them. -/
def change (f : FileTree → Key → Except FileError FileTree) : Attempt FileError Unit := do
  let h ← get
  match f h.files h.cwd with
  | .ok files => set { h with files := files }
  | .error e => throw e

/-- Say an error in the words of the caller. -/
def Attempt.inWords {ε ε' α : Type} (a : Attempt ε α) (f : ε → ε') : Attempt ε' α := ExceptT.adapt f a

/-- An action as an attempt that does not fail. -/
def Attempt.ofAction {ε α : Type} (a : Action α) : Attempt ε α := ExceptT.lift a

/-- The outcome of an attempt as a value. -/
def Attempt.outcome {ε α : Type} (a : Attempt ε α) : Action (Except ε α) := a.run

/-- Fail with the error of an outcome. -/
def Attempt.ofOutcome {ε α : Type} (x : Except ε α) : Attempt ε α := ExceptT.mk (pure x)

end CipherCorpus
