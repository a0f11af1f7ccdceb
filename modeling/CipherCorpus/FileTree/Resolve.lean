import CipherCorpus.FileTree.Basic

/-!
# Finding the place that a path names

A path is walked name by name from the top or from a working directory. Symbolic links on the way are
replaced by their targets; the last one only if asked. `scan` walks up to the next link and is
structural on the names, `walk` is structural on the number of links that may still be followed.
-/

namespace CipherCorpus.FileTree

/-- How many links one path may go through. -/
def linkLimit : Nat := 40

/-- The longest name in bytes. -/
def nameLimit : Nat := 255

/-- What a path names: an entry, or a free name in a directory. -/
inductive Place where
  | present (key : Key) (entry : Entry)
  | absent (key : Key)

def Place.key : Place → Key
  | present key _ => key
  | absent key => key

/-- Where a scan stops. -/
inductive Stop where
  | place (p : Place)
  /-- A link in directory `base`, with the names that follow it. -/
  | link (base : Key) (target : String) (rest : List String)

/-- The names to walk; a separator at the end asks for a directory. -/
def walkNames (text : List Char) : List String :=
  let pieces := (Text.splitOn '/' text).filter (· != [])
  let wantsDirectory := text.getLast? == some '/' && !pieces.isEmpty
  (pieces ++ if wantsDirectory then [['.']] else []).map String.ofList

/-- Walk names from directory `place` up to the end or the next link. -/
def scan (t : FileTree) (follow : Bool) (place : Key) : List String → Except FileError Stop
  | [] => .ok (.place (.present place .directory))
  | name :: rest =>
    if name = "." then scan t follow place rest
    else if name = ".." then scan t follow place.dropLast rest
    else if nameLimit < name.utf8ByteSize then .error .nameTooLong
    else
      let key := place ++ [name]
      match t.get? key with
      | none => if rest = [] then .ok (.place (.absent key)) else .error .notFound
      | some .directory => scan t follow key rest
      | some (.link target) =>
        if rest = [] && !follow then .ok (.place (.present key (.link target)))
        else .ok (.link place target rest)
      | some (.file body executable) =>
        if rest = [] then .ok (.place (.present key (.file body executable)))
        else .error .notDirectory

/-- Where a path text starts. -/
def startOf (cwd : Key) (text : List Char) : Key := if text.head? == some '/' then [] else cwd

/-- Walk names, going through at most `links` links. -/
def walk (t : FileTree) (follow : Bool) : Nat → Key → List String → Except FileError Place
  | links, place, names => do
    match ← scan t follow place names with
    | .place p => return p
    | .link base target rest =>
      match links with
      | 0 => throw .tooManyLinks
      | links + 1 =>
        walk t follow links (startOf base target.toList) (walkNames target.toList ++ rest)

/-- The place that a path names; `follow` says whether a link at the end is followed. -/
def resolve (t : FileTree) (cwd : Key) (follow : Bool) (p : Path) : Except FileError Place :=
  let text := p.text.toList
  if text.any (·.toNat == 0) then .error .zeroInPath
  else if text.isEmpty then .error .notFound
  else walk t follow linkLimit (startOf cwd text) (walkNames text)

/-- The entry that a path names, links followed. -/
def stat (t : FileTree) (cwd : Key) (p : Path) : Except FileError (Key × Entry) := do
  match ← t.resolve cwd true p with
  | .present key entry => return (key, entry)
  | .absent _ => throw .notFound

/-- The entry that a path names, a link at the end as itself. -/
def linkStat (t : FileTree) (cwd : Key) (p : Path) : Except FileError (Key × Entry) := do
  match ← t.resolve cwd false p with
  | .present key entry => return (key, entry)
  | .absent _ => throw .notFound

/-- The path names something, links followed. -/
def isThere (t : FileTree) (cwd : Key) (p : Path) : Bool := (t.stat cwd p).isOk

def isDirectory (t : FileTree) (cwd : Key) (p : Path) : Bool :=
  match t.stat cwd p with
  | .ok (_, e) => e.isDirectory
  | .error _ => false

def isFile (t : FileTree) (cwd : Key) (p : Path) : Bool :=
  match t.stat cwd p with
  | .ok (_, e) => e.isFile
  | .error _ => false

/-- The absolute path of a key. -/
def pathOf (k : Key) : Path := ⟨"/" ++ "/".intercalate k⟩

/-- The absolute path without links and dots; the entry has to exist. -/
def canonical (t : FileTree) (cwd : Key) (p : Path) : Except FileError Path := do
  return pathOf (← t.stat cwd p).1

end CipherCorpus.FileTree
