import CipherCorpus.Store.Database

/-!
# Sessions

A change of the functions table, statement by statement. For each connection the engine keeps the
stored database and, while a transaction is open, the database that the transaction works on. The
connection and the handle of its transaction both act on this session: a statement outside of a
transaction is stored at once, one inside of it by `commit`. When the handle of a transaction is
dropped, what is not committed is rolled back.

`Database.transact` is what the calls here come to.
-/

namespace CipherCorpus.Store

/-- How the engine refuses a statement: with a fault, and with what it leaves in the open transaction,
or nothing when it has rolled that back. -/
structure Refusal where
  fault : Fault
  left : Option Database
deriving DecidableEq, Repr

/-- What the engine keeps for a connection, and how many statements were run on it. -/
structure Session where
  stored : Database
  working : Option Database
  ran : Nat
deriving DecidableEq, Repr

/-- Statements on a session, until one fails. -/
abbrev Call (α : Type) := ExceptT Fault (StateM Session) α

namespace Session

/-- A session outside of a transaction. -/
def idle (db : Database) : Session := ⟨db, none, 0⟩

/-- The database that statements see. -/
def seen (s : Session) : Database := s.working.getD s.stored

/-- Outside of a transaction a change is stored. -/
def change (db : Database) (s : Session) : Session :=
  if s.working.isSome then { s with working := some db } else { s with stored := db }

/-- Outside of a transaction a refused statement leaves nothing. -/
def refuse (r : Refusal) (s : Session) : Session :=
  { s with working := s.working.bind fun _ => r.left }

/-- The session with one more statement run on it. -/
def counted (s : Session) : Session := { s with ran := s.ran + 1 }

/-- Run a call. -/
def perform {α : Type} (call : Call α) (s : Session) : Except Fault α × Session := call.run.run s

/-- How a statement ends: it fails on what it sees, it is refused, or it has its effect. -/
def ending {α : Type} (counted : Session) :
    Except Fault (α × Session) → Option Refusal → Except Fault α × Session
  | .error fault, _ => (.error fault, counted)
  | .ok _, some r => (.error r.fault, counted.refuse r)
  | .ok (x, after), none => (.ok x, after)

variable (refused : Nat → Option Refusal)

/-- Run the next statement; `refused` says which of them the engine refuses. -/
def step {α : Type} (effect : Session → Except Fault (α × Session)) : Call α :=
  ExceptT.mk fun s => ending s.counted (effect s.counted) (refused s.ran)

/-- Run a statement on the functions table; the answer counts its insertions. -/
def execute (statement : Database.Statement) : Call Nat :=
  step refused fun s => do
    let rows ← s.seen.functionRows
    let after := statement.apply rows
    return (after.2, s.change { s.seen with functions := some after.1 })

/-- Open a transaction. -/
def begin : Call Unit :=
  step refused fun s =>
    if s.working.isSome then
      .error (.refused "cannot start a transaction within a transaction")
    else .ok ((), { s with working := some s.stored })

/-- Store what the transaction works on. -/
def commit : Call Unit :=
  step refused fun s =>
    match s.working with
    | some db => .ok ((), { s with stored := db, working := none })
    | none => .error (.refused "cannot commit - no transaction is active")

/-- Drop the handle of a transaction at the end of a call, however it ends. -/
def dropping {α : Type} (call : Call α) : Call α :=
  ExceptT.mk fun s =>
    let ended := perform call s
    (ended.1, { ended.2 with working := none })

/-- Run a part of a call in a transaction of its own. -/
def inTransaction {α : Type} (part : Call α) : Call α := do
  begin refused
  dropping do
    let x ← part
    commit refused
    return x

def deleteRows (binaries : List Path) : Call Unit :=
  binaries.forM fun b => do
    let _ ← execute refused (.delete b.text)

def insertRows (functions : List LabeledFunction) : Call Nat := do
  let _ ← execute refused .prepare
  functions.foldlM (fun written f => return written + (← execute refused (.insert (.ofLabeled f)))) 0

/-- Store functions; the answer counts the insertions. -/
def insertFunctions (functions : List LabeledFunction) : Call Nat :=
  inTransaction refused (insertRows refused functions)

/-- Drop what is stored for `binaries` and store `functions` instead. -/
def replaceFunctions (binaries : List Path) (functions : List LabeledFunction) : Call Nat :=
  inTransaction refused do
    deleteRows refused binaries
    insertRows refused functions

end Session

end CipherCorpus.Store
