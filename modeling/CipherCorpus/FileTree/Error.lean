/-!
# File system errors

Each error is shown with the system's text and number.
-/

namespace CipherCorpus

/-- Why a file operation fails. -/
inductive FileError where
  | notFound
  | badFormat
  | denied
  | alreadyExists
  | notDirectory
  | isDirectory
  | invalidArgument
  | nameTooLong
  | notEmpty
  | tooManyLinks
  /-- A path that holds the zero character. -/
  | zeroInPath
  /-- A command line that holds the zero character. -/
  | zeroInArgument
  /-- File content that should be text is not. -/
  | notText
deriving DecidableEq, Repr

namespace FileError

/-- The system's number for an error, if it is the system's. -/
def number? : FileError → Option Nat
  | notFound => some 2
  | badFormat => some 8
  | denied => some 13
  | alreadyExists => some 17
  | notDirectory => some 20
  | isDirectory => some 21
  | invalidArgument => some 22
  | nameTooLong => some 36
  | notEmpty => some 39
  | tooManyLinks => some 40
  | zeroInPath => none
  | zeroInArgument => none
  | notText => none

def description : FileError → String
  | notFound => "No such file or directory"
  | badFormat => "Exec format error"
  | denied => "Permission denied"
  | alreadyExists => "File exists"
  | notDirectory => "Not a directory"
  | isDirectory => "Is a directory"
  | invalidArgument => "Invalid argument"
  | nameTooLong => "File name too long"
  | notEmpty => "Directory not empty"
  | tooManyLinks => "Too many levels of symbolic links"
  | zeroInPath => "file name contained an unexpected NUL byte"
  | zeroInArgument => "nul byte found in provided data"
  | notText => "stream did not contain valid UTF-8"

def message (e : FileError) : String :=
  match e.number? with
  | some n => s!"{e.description} (os error {n})"
  | none => e.description

end FileError

end CipherCorpus
