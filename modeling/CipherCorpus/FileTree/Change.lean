import CipherCorpus.FileTree.Resolve

/-!
# Reading and changing files

Every operation takes a path as the system takes it and gives the changed tree or the system's error.
-/

namespace CipherCorpus.FileTree

/-- The key of a file or directory to open for reading. -/
def openRead (t : FileTree) (cwd : Key) (p : Path) : Except FileError Entry := do
  return (← t.stat cwd p).2

/-- The bytes of an opened entry. -/
def readEntry : Entry → Except FileError (List UInt8)
  | .file body _ => .ok body.data
  | .directory => .error .isDirectory
  | .link _ => .error .tooManyLinks

/-- The bytes of a file. -/
def read (t : FileTree) (cwd : Key) (p : Path) : Except FileError (List UInt8) := do
  readEntry (← t.openRead cwd p)

/-- The bytes of a file as text. -/
def readText (t : FileTree) (cwd : Key) (p : Path) : Except FileError (List Char) := do
  match Text.decode? (← t.read cwd p) with
  | some text => return text
  | none => throw .notText

def endsWithSeparator (p : Path) : Bool := p.text.toList.getLast? == some '/'

/-- The path without separators at its end, the root kept. -/
def withoutSeparator (p : Path) : Path :=
  let kept := (p.text.toList.reverse.dropWhile (· == '/')).reverse
  if kept.isEmpty then p else ⟨String.ofList kept⟩

/-- Create a file or replace the content of one; an existing file keeps its mode. -/
def write (t : FileTree) (cwd : Key) (p : Path) (body : Body) : Except FileError FileTree := do
  if endsWithSeparator p then
    match t.resolve cwd true (withoutSeparator p) with
    | .error e => throw e
    | .ok _ => throw .isDirectory
  match ← t.resolve cwd true p with
  | .present key (.file _ executable) => return t.put key (.file body executable)
  | .present _ _ => throw .isDirectory
  | .absent key => return t.put key (.file body false)

def writeBytes (t : FileTree) (cwd : Key) (p : Path) (data : List UInt8) :
    Except FileError FileTree :=
  t.write cwd p (.bytes data)

/-- Set the mode of a file. -/
def setExecutable (t : FileTree) (cwd : Key) (p : Path) (executable : Bool) :
    Except FileError FileTree := do
  match ← t.stat cwd p with
  | (key, .file body _) => return t.put key (.file body executable)
  | _ => return t

def makeDirectory (t : FileTree) (cwd : Key) (p : Path) : Except FileError FileTree := do
  match ← t.resolve cwd false (withoutSeparator p) with
  | .present _ _ => throw .alreadyExists
  | .absent key => return t.put key .directory

/-- A directory was made, or one is there already. -/
def orDirectory (t : FileTree) (cwd : Key) (p : Path) :
    Except FileError FileTree → Except FileError FileTree
  | .ok made => .ok made
  | .error e => if t.isDirectory cwd p then .ok t else .error e

/-- Make the first path, and before it its parents, which follow it in the list. -/
def makeChain (t : FileTree) (cwd : Key) : List Path → Except FileError FileTree
  | [] => .error .notFound
  | p :: parents =>
    if p.text = "" then .ok t
    else
      match t.makeDirectory cwd p with
      | .ok made => .ok made
      | .error .notFound => do
        let t ← makeChain t cwd parents
        orDirectory t cwd p (t.makeDirectory cwd p)
      | .error e => orDirectory t cwd p (.error e)

/-- Make a directory and its missing parents. -/
def makeDirectories (t : FileTree) (cwd : Key) (p : Path) : Except FileError FileTree :=
  t.makeChain cwd p.ancestors

/-- Remove a file or link. -/
def removeFile (t : FileTree) (cwd : Key) (p : Path) : Except FileError FileTree := do
  match ← t.linkStat cwd p with
  | (_, .directory) => throw .isDirectory
  | (key, _) => return t.erase key

/-- Remove an empty directory. -/
def removeDirectory (t : FileTree) (cwd : Key) (p : Path) : Except FileError FileTree := do
  match ← t.linkStat cwd p with
  | (key, .directory) => if (t.below key).isEmpty then return t.erase key else throw .notEmpty
  | _ => throw .notDirectory

/-- Remove a directory and all under it; a link is removed alone. -/
def removeTree (t : FileTree) (cwd : Key) (p : Path) : Except FileError FileTree := do
  match ← t.linkStat cwd p with
  | (key, .directory) => return t.eraseAll key
  | (key, .link _) => return t.erase key
  | _ => throw .notDirectory

/-- Move an entry to another path. A directory takes the place of an empty directory only, anything
else the place of anything but a directory. -/
def rename (t : FileTree) (cwd : Key) (source target : Path) : Except FileError FileTree := do
  let (key, entry) ← t.linkStat cwd source
  let targetPath := if entry.isDirectory then withoutSeparator target else target
  let place ← t.resolve cwd false targetPath
  if entry.isDirectory && FileTree.isBelow key place.key then throw .invalidArgument
  match place with
  | .absent destination => return t.move key destination
  | .present destination there =>
    if destination = key then return t
    else if entry.isDirectory then
      if !there.isDirectory then throw .notDirectory
      else if !(t.below destination).isEmpty then throw .notEmpty
      else return t.move key destination
    else if there.isDirectory then throw .isDirectory
    else return t.move key destination

/-- Make a symbolic link; its target need not be there, but it has to be a path. -/
def makeLink (t : FileTree) (cwd : Key) (p : Path) (target : String) : Except FileError FileTree := do
  if target.toList.any (·.toNat == 0) then throw .zeroInPath
  if target.isEmpty then throw .notFound
  match ← t.resolve cwd false p with
  | .present _ _ => throw .alreadyExists
  | .absent key => return t.put key (.link target)

/-- The names in a directory. -/
def list (t : FileTree) (cwd : Key) (p : Path) : Except FileError (List String) := do
  match ← t.stat cwd p with
  | (key, .directory) => return t.names key
  | _ => throw .notDirectory

end CipherCorpus.FileTree
