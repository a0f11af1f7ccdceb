import CipherCorpus.Archive.Unpack
import CipherCorpus.Host
import CipherCorpus.Layout

/-!
# The cache of source trees

The sources of a library are cached under its name and version. A tree that is there is used as it is.
Otherwise the archive is fetched into the downloads directory, unpacked into a staging directory beside
the place of the tree, moved to its place, and removed. Each step is a function of its own;
`SourceCache.tree` is the steps in order.
-/

namespace CipherCorpus

/-- Why sources cannot be had. -/
inductive SourceError where
  | missingSource (name : String)
  | unsupportedArchive (fileName : String)
  | download (url message : String)
  | unpacking (archive : Path)
  | files (path : Path) (error : FileError)
deriving DecidableEq, Repr

def SourceError.message : SourceError → String
  | missingSource name => s!"Library {name} not found in the source cache and no URL provided"
  | unsupportedArchive fileName => s!"Unsupported archive format: {fileName}"
  | download url message => s!"Download of {url} failed: {message}"
  | unpacking archive => s!"Failed to extract {archive.text}"
  | files path error => s!"I/O error at {path.text}: {error.message}"

/-- Write what an address leads to into a file. -/
abbrev Fetcher := String → Path → Attempt SourceError Unit

/-- A source cache and the way to fill it. -/
structure SourceCache where
  sources : Path
  fetcher : Fetcher

namespace Archive

/-- Unpack an archive file into a directory. -/
def unpackFile (kind : Kind) (archive dest : Path) : Attempt SourceError Unit := do
  let h ← get
  match h.files.openRead h.cwd archive with
  | .error e => throw (.files archive e)
  | .ok entry =>
    let data := match FileTree.readEntry entry with
      | .ok data => data
      | .error _ => []
    let (outcome, files) := (unpack kind h.cwd data dest).run.run h.files
    set { h with files := files }
    match outcome with
    | .ok () => return ()
    | .error _ => throw (.unpacking archive)

end Archive

namespace SourceCache

/-- Name of the cached tree of a library. -/
def cacheName (name : String) (version : Option String) : String :=
  match version with
  | some v => name ++ "-" ++ v
  | none => name

def treePath (a : SourceCache) (name : String) (version : Option String) : Path :=
  a.sources.child (cacheName name version)

def downloads (a : SourceCache) : Path := Layout.downloadsOf a.sources

/-- Where the archive of a cached tree is unpacked. -/
def scratchPath (cached : Path) : Path :=
  cached.withFileName (".staging-" ++ cached.fileName?.getD "")

/-- What is fetched for a library: address, file name and kind of the archive. -/
structure Request where
  url : String
  fileName : String
  kind : Archive.Kind

/-- What to fetch, if it can be used at all. -/
def request (name : String) (url : Option String) : Except SourceError Request :=
  match url with
  | none => .error (.missingSource name)
  | some url =>
    let fileName := Archive.fileNameOf url
    match Archive.Kind.ofFileName? fileName with
    | some kind => .ok ⟨url, fileName, kind⟩
    | none => .error (.unsupportedArchive fileName)

/-- An operation on files whose error names a path. -/
def filesAt (path : Path) (f : FileTree → Key → Except FileError FileTree) : Attempt SourceError Unit :=
  (change f).inWords (.files path)

/-- Fetch the archive into the downloads directory. -/
def fetchArchive (a : SourceCache) (r : Request) : Attempt SourceError Unit := do
  filesAt a.downloads fun t cwd => t.makeDirectories cwd a.downloads
  modify fun h => { h with trace := { h.trace with fetches := h.trace.fetches ++ [r.url] } }
  a.fetcher r.url (a.downloads.child r.fileName)

/-- Make the staging directory anew. -/
def resetStaging (staging : Path) : Attempt SourceError Unit := do
  if ← inspect (·.isThere staging) then
    filesAt staging fun t cwd => t.removeTree cwd staging
  filesAt staging fun t cwd => t.makeDirectories cwd staging

/-- Move the staged tree to its cache path. A directory that is alone in it is moved in its place. -/
def putInPlace (staging cached : Path) : Attempt SourceError Unit := do
  let h ← get
  match h.files.list h.cwd staging with
  | .error e => throw (.files staging e)
  | .ok [single] =>
    let inner := staging.child single
    if h.isDirectory inner then
      filesAt cached fun t cwd => t.rename cwd inner cached
      filesAt staging fun t cwd => t.removeDirectory cwd staging
    else filesAt cached fun t cwd => t.rename cwd staging cached
  | .ok _ => filesAt cached fun t cwd => t.rename cwd staging cached

/-- Remove a fetched archive. -/
def discard (archive : Path) : Attempt SourceError Unit :=
  filesAt archive fun t cwd => t.removeFile cwd archive

/-- The source tree of a library, fetched when it is not cached. -/
def tree (a : SourceCache) (name : String) (version url : Option String) :
    Attempt SourceError Path := do
  let cached := a.treePath name version
  if ← inspect (·.isThere cached) then return cached
  let r ← Attempt.ofOutcome (request name url)
  let archive := a.downloads.child r.fileName
  let staging := scratchPath cached
  a.fetchArchive r
  resetStaging staging
  Archive.unpackFile r.kind archive staging
  putInPlace staging cached
  discard archive
  return cached

end SourceCache

end CipherCorpus
