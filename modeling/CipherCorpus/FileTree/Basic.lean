import CipherCorpus.FileTree.Error
import CipherCorpus.Store.Database
import CipherCorpus.Text.Utf8

/-!
# A tree of files

The tree maps keys, lists of names from the top, to files, directories and symbolic links. A file
holds bytes or the image of a database.

* `get?_put_self`, `get?_put_ne`, `get?_erase_ne`: the tree as a map.
* `below k` is what lies under a key.
-/

namespace CipherCorpus

/-- The names from the top of the tree to an entry. -/
abbrev Key := List String

/-- What a file holds. -/
inductive Body where
  | bytes (data : List UInt8)
  | database (db : Store.Database)
deriving DecidableEq

/-- The first bytes of every database file. -/
def databaseMagic : List UInt8 := Text.bytesOf "SQLite format 3" ++ [0]

/-- The bytes that a reader of the file sees. -/
def Body.data : Body → List UInt8
  | .bytes data => data
  | .database _ => databaseMagic

/-- One place of the tree. -/
inductive Entry where
  | file (body : Body) (executable : Bool)
  | directory
  | link (target : String)
deriving DecidableEq

def Entry.isDirectory : Entry → Bool
  | directory => true
  | _ => false

def Entry.isFile : Entry → Bool
  | file .. => true
  | _ => false

/-- Entries by key; the top itself is a directory that is always there. -/
structure FileTree where
  entries : List (Key × Entry)
deriving Inhabited

namespace FileTree

def empty : FileTree := ⟨[]⟩

def get? (t : FileTree) (k : Key) : Option Entry :=
  if k = [] then some .directory else t.entries.lookup k

def erase (t : FileTree) (k : Key) : FileTree := ⟨t.entries.filter (·.1 != k)⟩

def put (t : FileTree) (k : Key) (e : Entry) : FileTree := ⟨(k, e) :: (t.erase k).entries⟩

theorem lookup_filter_ne (es : List (Key × Entry)) {j k : Key} (h : j ≠ k) :
    (es.filter (·.1 != k)).lookup j = es.lookup j := by
  induction es with
  | nil => rfl
  | cons e rest ih =>
    obtain ⟨i, v⟩ := e
    by_cases hi : i = k
    · subst hi
      have hj : (j == i) = false := by simpa using h
      simp [List.lookup_cons, hj, ih]
    · simp [hi, List.lookup_cons, ih]

theorem get?_put_self (t : FileTree) {k : Key} (e : Entry) (h : k ≠ []) :
    (t.put k e).get? k = some e := by
  simp [get?, put, h]

theorem get?_put_ne (t : FileTree) {j k : Key} (e : Entry) (h : j ≠ k) :
    (t.put k e).get? j = t.get? j := by
  have hj : (j == k) = false := by simpa using h
  simp [get?, put, erase, List.lookup_cons, hj, lookup_filter_ne t.entries h]

theorem get?_erase_ne (t : FileTree) {j k : Key} (h : j ≠ k) : (t.erase k).get? j = t.get? j := by
  simp [get?, erase, lookup_filter_ne t.entries h]

/-- Whether `k` lies strictly under `top`. -/
def isBelow (top k : Key) : Bool := top.isPrefixOf k && k != top

/-- The entries strictly under `top`. -/
def below (t : FileTree) (top : Key) : List (Key × Entry) := t.entries.filter (isBelow top ·.1)

/-- The names directly under `top`. -/
def names (t : FileTree) (top : Key) : List String :=
  (t.below top).filterMap fun e => (e.1.drop top.length).head?.filter fun _ =>
    e.1.length = top.length + 1

/-- Drop an entry and all under it. -/
def eraseAll (t : FileTree) (top : Key) : FileTree :=
  ⟨t.entries.filter fun e => !top.isPrefixOf e.1⟩

/-- Move an entry and all under it from `source` to `target`. -/
def move (t : FileTree) (source target : Key) : FileTree :=
  ⟨((t.eraseAll target).entries).map fun e =>
    if source.isPrefixOf e.1 then (target ++ e.1.drop source.length, e.2) else e⟩

end FileTree

end CipherCorpus
