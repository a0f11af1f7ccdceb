import CipherCorpus.Sources.Cache

/-!
# Callers of one cache

Several callers may look for sources at once. A caller looks up the lock of its cached tree, waits until
it has the lock, tests the path of the tree, fills the cache step by step and gives the lock back.
Between any two steps of one caller others may take theirs: `Crew.advance` is the next step of one
caller, and a run of the crew is any sequence of such steps (`Crew.Reaches`).

Locks are numbered. The table of locks is kept under the texts of the cached paths; a text that is looked
up for the first time gets a new lock.
-/

namespace CipherCorpus.SourceCache

/-- What a caller asks for. -/
structure Call where
  name : String
  version : Option String
  url : Option String

/-- The steps of filling the cache. -/
inductive Work where
  | fetch
  | reset
  | unpack
  | place
  | discard
deriving DecidableEq, Repr

def perform (a : SourceCache) (cached : Path) (r : Request) : Work → Attempt SourceError Unit
  | .fetch => a.fetchArchive r
  | .reset => resetStaging (scratchPath cached)
  | .unpack => Archive.unpackFile r.kind (a.downloads.child r.fileName) (scratchPath cached)
  | .place => putInPlace (scratchPath cached) cached
  | .discard => discard (a.downloads.child r.fileName)

/-- All steps that fill the cache, in order. -/
def filling : List Work := [.fetch, .reset, .unpack, .place, .discard]

/-- How far a caller is. -/
inductive Stage where
  | arriving
  | waiting (lock : Nat)
  /-- The lock is taken, the path is not tested yet. -/
  | holding (lock : Nat)
  /-- The cache is being filled; `next` and then `rest` are to be done. -/
  | working (lock : Nat) (r : Request) (next : Work) (rest : List Work)
  | leaving (lock : Nat) (answer : Except SourceError Path)
  | returned (answer : Except SourceError Path)

namespace Stage

/-- The stage of a caller that has its lock and has these steps before it. -/
def toDo (lock : Nat) (r : Request) (cached : Path) : List Work → Stage
  | [] => leaving lock (.ok cached)
  | w :: rest => working lock r w rest

/-- The caller has taken its lock. -/
def isInside : Stage → Bool
  | holding _ => true
  | working .. => true
  | leaving .. => true
  | _ => false

def isReturned : Stage → Bool
  | returned _ => true
  | _ => false

end Stage

/-- What a caller does in one step. -/
inductive Move where
  | lookUp
  | take
  | test
  | perform (w : Work)
  | release
deriving DecidableEq, Repr

/-- Callers with the machine they run on, the table of locks and the locks that are taken. -/
structure Crew (n : Nat) where
  host : Host
  locks : List (String × Nat)
  taken : List Nat
  stages : Fin n → Stage

namespace Crew

variable {n : Nat}

/-- No caller has begun. -/
def starting (n : Nat) (h : Host) : Crew n := ⟨h, [], [], fun _ => .arriving⟩

def setStage (s : Crew n) (i : Fin n) (stage : Stage) : Crew n :=
  { s with stages := fun j => if j = i then stage else s.stages j }

/-- The lock of a path, which may be a new one. -/
def lookUp (s : Crew n) (i : Fin n) (cached : Path) : Crew n :=
  match s.locks.lookup cached.text with
  | some lock => s.setStage i (.waiting lock)
  | none =>
    let lock := s.locks.length
    { s with locks := (cached.text, lock) :: s.locks }.setStage i (.waiting lock)

/-- The cached tree is there, nothing can be fetched, or the cache is to be filled. -/
def test (a : SourceCache) (c : Call) (s : Crew n) (i : Fin n) (lock : Nat) : Crew n :=
  let cached := a.treePath c.name c.version
  if s.host.isThere cached then s.setStage i (.leaving lock (.ok cached))
  else
    match request c.name c.url with
    | .ok r => s.setStage i (.toDo lock r cached filling)
    | .error e => s.setStage i (.leaving lock (.error e))

/-- The next step of a caller: none when it waits for a lock that is taken, when its work is cut short, or
when it has returned. -/
def advance (a : SourceCache) (calls : Fin n → Call) (s : Crew n) (i : Fin n) : Option (Move × Crew n) :=
  let cached := a.treePath (calls i).name (calls i).version
  match s.stages i with
  | .arriving => some (.lookUp, s.lookUp i cached)
  | .waiting lock =>
    if lock ∈ s.taken then none
    else some (.take, { s with taken := lock :: s.taken }.setStage i (.holding lock))
  | .holding lock => some (.test, s.test a (calls i) i lock)
  | .working lock r w rest =>
    match (a.perform cached r w).outcome.run s.host with
    | .ok (.ok (), h) => some (.perform w, { s with host := h }.setStage i (.toDo lock r cached rest))
    | .ok (.error e, h) => some (.perform w, { s with host := h }.setStage i (.leaving lock (.error e)))
    | .error _ => none
  | .leaving lock answer =>
    some (.release, { s with taken := s.taken.erase lock }.setStage i (.returned answer))
  | .returned _ => none

/-- The steps of a run, each with the caller that took it, lead from `s` to a state. -/
inductive Reaches (a : SourceCache) (calls : Fin n → Call) (s : Crew n) :
    List (Fin n × Move) → Crew n → Prop where
  | start : Reaches a calls s [] s
  | step {trace m i s1 s2} : Reaches a calls s trace s1 → s1.advance a calls i = some (m, s2) →
      Reaches a calls s (trace ++ [(i, m)]) s2

end Crew

end CipherCorpus.SourceCache
