import CipherCorpus.Archive.Kind
import CipherCorpus.Archive.Tar
import CipherCorpus.Archive.Zip
import CipherCorpus.FileTree.Change

/-!
# Unpacking archives into the file tree

Members are unpacked in order, directories of a tar stream last. Nothing is written outside of the
destination through a name; what has been unpacked before a fault stays.
-/

namespace CipherCorpus.Archive

/-- A fault while unpacking; its cause is not told apart. -/
inductive UnpackFault where
  | unpackFault
deriving DecidableEq, Repr

abbrev Unpacking := ExceptT UnpackFault (StateM FileTree)

namespace Unpacking

def fail {α : Type} : Unpacking α := throw .unpackFault

/-- Change the tree; every error of the file system is a fault. -/
def alter (f : FileTree → Except FileError FileTree) : Unpacking Unit := do
  match f (← get) with
  | .ok t => set t
  | .error _ => fail

/-- Look at the tree; every error is a fault. -/
def consult {α : Type} (f : FileTree → Except FileError α) : Unpacking α := do
  match f (← get) with
  | .ok x => return x
  | .error _ => fail

/-- Change the tree and tell whether that worked. -/
def attempt (f : FileTree → Except FileError FileTree) : Unpacking (Except FileError Unit) := do
  match f (← get) with
  | .ok t => set t; return .ok ()
  | .error e => return .error e

end Unpacking

open Unpacking

/-! ## Tar -/

/-- The names of a member's path; none when it goes up, which leaves the member out. -/
def memberNames? (path : List UInt8) : Option (List String) :=
  (Path.parts ⟨String.ofList (Text.decodeLossy path)⟩).foldrM (fun part (names : List String) =>
    match part with
    | .root => some names
    | .here => some names
    | .up => none
    | .name n => some (n :: names)) []

def under (top : Path) (names : List String) : Path := names.foldl Path.child top

/-- The key that a path leads to lies at or under `top`. -/
def checkInside (top : Key) (p : Path) : Unpacking Unit := do
  let (key, _) ← consult (·.stat [] p)
  if top.isPrefixOf key then return () else fail

/-- Make the missing directories on the way to a member, each checked before it is made. -/
def makeParents (top : Key) (topPath : Path) : List String → Path → Unpacking Unit
  | [], _ => return ()
  | name :: rest, above => do
    let p := above.child name
    match (← get).linkStat [] p with
    | .ok _ => makeParents top topPath rest p
    | .error _ =>
      checkInside top above
      alter (·.makeDirectories [] p)
      makeParents top topPath rest p

/-- Make a new file; one that is there already is removed first. -/
def writeFresh (p : Path) (data : List UInt8) : Unpacking Unit := do
  match (← get).resolve [] false p with
  | .ok (.absent _) => alter (·.writeBytes [] p data)
  | .ok (.present _ _) =>
    alter (·.removeFile [] p)
    alter (·.writeBytes [] p data)
  | .error _ => fail

/-- Make a link; one that is there already, or a file, is removed first. -/
def linkFresh (p : Path) (target : String) : Unpacking Unit := do
  match ← attempt (·.makeLink [] p target) with
  | .ok () => return ()
  | .error .alreadyExists =>
    alter (·.removeFile [] p)
    alter (·.makeLink [] p target)
  | .error _ => fail

/-- Make a second name for an entry that is no directory. -/
def shareFile (source p : Path) : Unpacking Unit := do
  match ← consult (·.linkStat [] source) with
  | (_, .directory) => fail
  | (_, entry) =>
    match (← get).resolve [] false p with
    | .ok (.absent key) => modify (·.put key entry)
    | _ => fail

def makeDirectoryOnce (p : Path) : Unpacking Unit := do
  match ← attempt (·.makeDirectory [] p) with
  | .ok () => return ()
  | .error .alreadyExists => if (← get).isDirectory [] p then return () else fail
  | .error _ => fail

/-- Unpack one member under the destination. -/
def unpackMember (top : Key) (m : Tar.Member) : Unpacking Unit := do
  let topPath := FileTree.pathOf top
  match memberNames? m.path with
  | none => return ()
  | some [] => return ()
  | some (name :: more) =>
    let names := name :: more
    let p := under topPath names
    makeParents top topPath names.dropLast topPath
    checkInside top (under topPath names.dropLast)
    match m.kind with
    | .note => return ()
    | .directory => makeDirectoryOnce p
    | .file => writeFresh p m.content
    | .symbolicLink =>
      match m.target with
      | none => fail
      | some target => if target.isEmpty then fail else linkFresh p (String.ofList (Text.decodeLossy target))
    | .hardLink =>
      match m.target with
      | none => fail
      | some target =>
        if target.isEmpty then fail
        let source := topPath.join ⟨String.ofList (Text.decodeLossy target)⟩
        checkInside top source
        shareFile source p

/-- Members in order, directories kept for later. -/
def unpackMembers (top : Key) : List Tar.Member → Unpacking Unit
  | [] => return ()
  | m :: rest => do
    if m.kind ≠ .directory then unpackMember top m
    unpackMembers top rest

def unpackAll (top : Key) : List Tar.Member → Unpacking Unit
  | [] => return ()
  | m :: rest => do
    unpackMember top m
    unpackAll top rest

/-- Directories in descending order of their paths. -/
def directoriesOf (members : List Tar.Member) : List Tar.Member :=
  (members.filter (·.kind = .directory)).mergeSort fun a b => decide (¬ a.path < b.path)

/-- The destination as a key; it is made if nothing is there. -/
def prepare (cwd : Key) (dest : Path) : Unpacking Key := do
  match (← get).linkStat cwd dest with
  | .ok _ => pure ()
  | .error _ => alter (·.makeDirectories cwd dest)
  return (← consult (·.stat cwd dest)).1

/-- Unpack a gzip-compressed tar stream. -/
def unpackTar (cwd : Key) (file : List UInt8) (dest : Path) : Unpacking Unit := do
  let top ← prepare cwd dest
  let (members, endedWell) := Tar.read (gunzip file)
  unpackMembers top members
  if endedWell then unpackAll top (directoriesOf members) else fail

/-! ## Zip -/

/-- Unpack one entry under the destination. -/
def unpackEntry (input : ByteArray) (topPath : Path) (e : Zip.Entry) : Unpacking Unit := do
  let some content := Zip.content? input e | fail
  let some names := e.names? | fail
  let p := under topPath names
  if e.isDirectory then alter (·.makeDirectories [] p)
  else if e.isLink then
    if !content.isSound then fail
    let some target := Text.decode? content.bytes | fail
    alter (·.makeDirectories [] (p.parent?.getD topPath))
    alter (·.makeLink [] p (String.ofList target))
  else
    alter (·.makeDirectories [] (p.parent?.getD topPath))
    alter (·.writeBytes [] p content.bytes)
    if !content.isSound then fail

def unpackEntries (input : ByteArray) (topPath : Path) : List Zip.Entry → Unpacking Unit
  | [] => return ()
  | e :: rest => do
    unpackEntry input topPath e
    unpackEntries input topPath rest

/-- Unpack a zip archive; its directory is read before anything is made. -/
def unpackZip (cwd : Key) (file : List UInt8) (dest : Path) : Unpacking Unit := do
  let input := file.toByteArray
  let some entries := Zip.entries? input | fail
  alter (·.makeDirectories cwd dest)
  let (top, _) ← consult (·.stat cwd dest)
  unpackEntries input (FileTree.pathOf top) entries

/-- Unpack an archive of a kind into a directory. -/
def unpack (kind : Kind) (cwd : Key) (file : List UInt8) (dest : Path) : Unpacking Unit :=
  match kind with
  | .tarGzip => unpackTar cwd file dest
  | .zip => unpackZip cwd file dest

end CipherCorpus.Archive
