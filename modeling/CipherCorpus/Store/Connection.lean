import CipherCorpus.Host

/-!
# Open databases

A database lives in a file or in memory. Opening one finds its file, creates it when nothing is there,
and brings its schema up to date. The path of a database is cleaned of dots before anything is looked
up, so a missing directory that is left again does no harm.
-/

namespace CipherCorpus.Store

/-- An open database: its file, and the image to use when the file is gone. -/
structure Connection where
  key : Option Key
  image : Database

namespace Connection

/-- Where a walk over the names of a database path stops. -/
inductive Stop where
  | place (key : Key)
  | link (base : Key) (target : String) (rest : List String)

/-- Walk names up to the next link; missing names are kept. -/
def scan (t : FileTree) (place : Key) : List String → Option Stop
  | [] => some (.place place)
  | name :: rest =>
    if name = "." then scan t place rest
    else if name = ".." then scan t place.dropLast rest
    else if FileTree.nameLimit < name.utf8ByteSize then none
    else
      let key := place ++ [name]
      match t.get? key with
      | some (.link target) => some (.link place target rest)
      | some (.file ..) => if rest = [] then some (.place key) else none
      | _ => scan t key rest

/-- Walk names through at most `links` links. -/
def walk (t : FileTree) : Nat → Key → List String → Option Key
  | links, place, names =>
    match scan t place names with
    | none => none
    | some (.place key) => some key
    | some (.link base target rest) =>
      match links with
      | 0 => none
      | links + 1 =>
        walk t links (FileTree.startOf base target.toList) (namesOf target.toList ++ rest)
where
  /-- The names of a path, a separator at the end left out. -/
  namesOf (text : List Char) : List String :=
    ((Text.splitOn '/' text).filter (· != [])).map String.ofList

/-- How many links a database path may go through. -/
def linkLimit : Nat := 200

/-- The place of a database file: its key, and what is there. -/
def find? (t : FileTree) (cwd : Key) (p : Path) : Option (Key × Option Body) := do
  let text := p.text.toList
  if text.any (·.toNat == 0) then none
  let key ← walk t linkLimit (FileTree.startOf cwd text) (walk.namesOf text)
  match t.get? key, t.get? key.dropLast with
  | some (.file body _), _ => return (key, some body)
  | none, some .directory => return (key, none)
  | _, _ => none

/-- The database in a file. -/
def imageOf (body : Option Body) : Except Fault Database :=
  match body with
  | none => .ok .fresh
  | some (.database db) => .ok db
  | some (.bytes []) => .ok .fresh
  | some (.bytes _) => .error .notADatabase

/-- Put an image into a file; the mode of the file stays. -/
def writeImage (key : Key) (db : Database) (t : FileTree) : FileTree :=
  match t.get? key with
  | some (.file _ executable) => t.put key (.file (.database db) executable)
  | _ => t

/-- Create the file of a database when there is none. -/
def createFile (key : Key) (t : FileTree) : FileTree :=
  match t.get? key with
  | none => t.put key (.file (.bytes []) false)
  | some _ => t

/-- A path that stands for no file. -/
def isMemory (p : Path) : Bool := p.text == "" || p.text == ":memory:"

/-- Open a file as it is. -/
def openRaw (p : Path) : Attempt Fault Connection := do
  if isMemory p then return ⟨none, .fresh⟩
  let h ← get
  match find? h.files h.cwd p with
  | none => throw (.cannotOpen p)
  | some (key, body) =>
    set { h with files := createFile key h.files }
    match imageOf body with
    | .ok db => return ⟨some key, db⟩
    | .error fault => throw fault

/-- The database behind a connection. -/
def load (c : Connection) (h : Host) : Database :=
  match c.key.bind h.files.get? with
  | some (.file (.database db) _) => db
  | _ => c.image

/-- Store a changed database. -/
def save (c : Connection) (db : Database) : Action Connection := do
  match c.key with
  | some key => modify fun h => { h with files := writeImage key db h.files }
  | none => pure ()
  return { c with image := db }

/-- Open a database and bring its schema up to date. -/
def openAt (p : Path) : Attempt DatabaseError Connection := do
  let c ← (openRaw p).inWords .engine
  let db ← Attempt.ofOutcome (c.image.migrate)
  if db = c.image then return c else .ofAction (c.save db)

/-- A new database in memory. -/
def inMemory : Connection :=
  match Database.fresh.migrate with
  | .ok db => ⟨none, db⟩
  | .error _ => ⟨none, .fresh⟩

/-- Look at the database. -/
def query {α : Type} (c : Connection) (f : Database → Except Fault α) : Attempt DatabaseError α := do
  (Attempt.ofOutcome (f (c.load (← get)))).inWords .engine

/-- Change the database; on a fault nothing is stored. -/
def update {α : Type} (c : Connection) (f : Database → Except Fault (α × Database)) :
    Attempt DatabaseError (α × Connection) := do
  match f (c.load (← get)) with
  | .ok (x, db) => return (x, ← .ofAction (c.save db))
  | .error fault => throw (.engine fault)

/-- Run a transaction on the functions table. -/
def transact (c : Connection) (f : Database → Except Fault Nat × Database) :
    Attempt DatabaseError (Nat × Connection) :=
  c.update fun db =>
    match f db with
    | (.ok n, db) => .ok (n, db)
    | (.error fault, _) => .error fault

end Connection

end CipherCorpus.Store
