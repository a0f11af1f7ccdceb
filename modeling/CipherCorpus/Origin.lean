import CipherCorpus.Compile.Level
import CipherCorpus.Path

/-!
# What a binary was built from

The origin of a binary is read from its name, `library_function_architecture_tag.bin`. The function
may hold underscores of its own; names with fewer than four fields have no origin.
-/

namespace CipherCorpus

/-- Library, function, architecture and level of a binary. -/
structure Origin where
  library : String
  function : String
  architecture : String
  optimization : String
deriving DecidableEq, Repr

namespace Origin

/-- The fields between the first and the last two, as the function's name. -/
def ofFields? (fields : List (List Char)) : Option Origin :=
  match fields with
  | library :: rest =>
    match rest.reverse with
    | tag :: architecture :: f :: more =>
      some {
        library := String.ofList library
        function := String.ofList (Text.joinWith '_' (f :: more).reverse)
        architecture := String.ofList architecture
        optimization := Level.flagOfTag (String.ofList tag) }
    | _ => none
  | [] => none

/-- The origin that the name of a binary tells. -/
def ofBinaryName? (binary : Path) : Option Origin :=
  binary.fileStem?.bind fun stem => ofFields? (Text.splitOn '_' stem.toList)

end Origin

end CipherCorpus
