import CipherCorpus.Shell.Utility
import CipherCorpus.Text.Pieces

/-!
# Programs

The program of a path is a tool of the system, or a script whose first line names the program that
runs it. Bare names are looked for in the directories of the search path.
-/

namespace CipherCorpus.Shell

/-- A tool of the system and the arguments that come before those of the caller. -/
structure Program where
  tool : String
  arguments : List ByteText

namespace Program

/-- Where the system keeps its tools. -/
def systemDirectories : List String := ["/bin/", "/usr/bin/"]

def isTool (name : String) : Bool :=
  Utility.shellNames.contains name || (Utility.system? name name).isSome

/-- The tool at a path of the system. -/
def toolAt? (path : String) : Option String :=
  systemDirectories.findSome? fun directory =>
    match Text.afterStart? directory.toList path.toList with
    | some name => if isTool (String.ofList name) then some (String.ofList name) else none
    | none => none

/-- The words of a script's first line: the program that runs the script, and one argument. -/
def interpreterOf (data : List UInt8) : Option (ByteText × Option ByteText) :=
  match ofBytes data with
  | '#' :: '!' :: rest =>
    let isGap : Char → Bool := fun c => c == ' ' || c == '\t'
    let line := ((rest.takeWhile (· != '\n')).take 253).dropWhile isGap
    let program := line.takeWhile (!isGap ·)
    let argument := ((line.drop program.length).dropWhile isGap).reverse.dropWhile isGap
    if program.isEmpty then none
    else some (program, if argument.isEmpty then none else some argument.reverse)
  | _ => none

/-- The program at a path, scripts run by scripts at most `fuel` deep. -/
def load (files : FileTree) (cwd : Key) : Nat → Path → Except FileError Program
  | 0, _ => .error .tooManyLinks
  | fuel + 1, path =>
    match toolAt? path.text with
    | some tool => .ok ⟨tool, []⟩
    | none => do
      match ← files.stat cwd path with
      | (_, .file body executable) =>
        if !executable then throw .denied
        match interpreterOf body.data with
        | none => throw .badFormat
        | some (interpreter, argument) =>
          let outer ← load files cwd fuel ⟨toText interpreter⟩
          return ⟨outer.tool, outer.arguments ++ argument.toList ++ [ofText path.text]⟩
      | _ => throw .denied

/-- How deep scripts may be run by scripts. -/
def depth : Nat := 6

/-- The paths that a bare name may stand for. -/
def candidates (search : String) (name : String) : List Path :=
  (Text.splitOn ':' search.toList).map fun directory => Path.child ⟨String.ofList directory⟩ name

/-- The program of a name: a path when it has a separator, else looked for on the search path. The
first hit counts; a hit that may not be run is passed over, but remembered. -/
def find (files : FileTree) (cwd : Key) (search : String) (name : String) :
    Except FileError (Path × Program) :=
  if name.toList.contains '/' then (load files cwd depth ⟨name⟩).map fun p => (⟨name⟩, p)
  else if name.isEmpty then .error .notFound
  else go .notFound (candidates search name)
where
  go (fault : FileError) : List Path → Except FileError (Path × Program)
    | [] => .error fault
    | path :: rest =>
      match load files cwd depth path with
      | .ok program => .ok (path, program)
      | .error .denied => go .denied rest
      | .error e =>
        if e = .notFound || e = .notDirectory then go (if fault = .denied then fault else e) rest
        else .error e

end Program

end CipherCorpus.Shell
