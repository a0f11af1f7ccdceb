import CipherCorpus.FileTree.Resolve

/-!
# The source file of a function

Among the regular files below a directory, the name decides in four tiers: `f.c`, `f.cpp`, any `.c`
file whose name holds `f`, any such `.cpp` file. In the first tier that has a file, the first path in
path order is chosen, so the order of directories plays no part.
-/

namespace CipherCorpus

namespace FileTree

/-- The regular files at or below a directory, links not followed on the way. -/
def regularFiles (t : FileTree) (cwd : Key) (root : Path) : List Path :=
  let filesUnder (top : Key) : List Path :=
    ((t.below top).filter (·.2.isFile)).map fun e =>
      (e.1.drop top.length).foldl Path.child root
  match t.linkStat cwd root with
  | .error _ => []
  | .ok (_, .file ..) => [root]
  | .ok (key, .directory) => filesUnder key
  | .ok (_, .link _) =>
    match t.stat cwd root with
    | .ok (key, .directory) => filesUnder key
    | _ => []

end FileTree

namespace Sources

/-- The tests of the four tiers on a file name. -/
def tiers (function : List Char) : List (List Char → Bool) :=
  let c := ".c".toList
  let cpp := ".cpp".toList
  [fun name => name == function ++ c,
    fun name => name == function ++ cpp,
    fun name => Text.occursIn function name && c.isSuffixOf name,
    fun name => Text.occursIn function name && cpp.isSuffixOf name]

def nameMatches (accepts : List Char → Bool) (p : Path) : Bool :=
  p.fileName?.any fun name => accepts name.toList

/-- The first path in path order. -/
def least (ps : List Path) : Option Path :=
  match ps with
  | [] => none
  | p :: rest => some (rest.foldl (fun best q => if q.before best then q else best) p)

/-- The file that a function is compiled from, among given files. -/
def choose (files : List Path) (function : String) : Option Path :=
  (tiers function.toList).findSome? fun accepts => least (files.filter (nameMatches accepts))

/-- The file below a directory that a function is compiled from. -/
def find? (t : FileTree) (cwd : Key) (directory : Path) (function : String) : Option Path :=
  choose (t.regularFiles cwd directory) function

end Sources

end CipherCorpus
