import CipherCorpus.Text.Lowercase
import CipherCorpus.Text.Pieces

/-!
# Optimization levels in file names

A level flag such as `-O2` is written into file names without dashes and in lower case (`tag`), and
read back from there (`flagOfTag`). The names of binaries join library, function, architecture and tag.
-/

namespace CipherCorpus.Level

/-- The form of a level in file names. -/
def tag (level : String) : String :=
  String.ofList (Text.lower (level.toList.filter (· != '-')))

/-- The flag of a tag; what is no tag stays as it is. -/
def flagOfTag (t : String) : String :=
  match t.toList with
  | 'o' :: c :: rest => String.ofList ('-' :: 'O' :: c :: rest)
  | 'O' :: c :: rest => String.ofList ('-' :: 'O' :: c :: rest)
  | _ => t

/-- Name of the binary of one cell; underscores of the library become dashes. -/
def binaryName (library function architecture level : String) : String :=
  String.ofList (Text.replaceChar '_' '-' library.toList) ++ "_" ++ function ++ "_" ++ architecture ++
    "_" ++ tag level ++ ".bin"

end CipherCorpus.Level
