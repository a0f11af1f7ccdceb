import CipherCorpus.Text.Pieces

/-!
# Archives by name

The name of a download is the last segment of the path of its address, and the ending of the name
tells the kind of archive.
-/

namespace CipherCorpus.Archive

/-- The kinds of archive that are unpacked. -/
inductive Kind where
  | tarGzip
  | zip
deriving DecidableEq, Repr

def Kind.ofFileName? (name : String) : Option Kind :=
  let lowered := name.toList.map Char.toLower
  if ".tar.gz".toList.isSuffixOf lowered || ".tgz".toList.isSuffixOf lowered then some .tarGzip
  else if ".zip".toList.isSuffixOf lowered then some .zip
  else none

/-- The address without query and fragment. -/
def addressPath (url : List Char) : List Char := url.takeWhile fun c => c != '?' && c != '#'

/-- The last segment of an address, or `download` when there is none. -/
def fileNameOf (url : String) : String :=
  let trimmed := (addressPath url.toList).reverse.dropWhile (· == '/')
  let name := (trimmed.takeWhile (· != '/')).reverse
  if name.isEmpty then "download" else String.ofList name

end CipherCorpus.Archive
