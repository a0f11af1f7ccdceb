import CipherCorpus.Command.Dataset
import CipherCorpus.Command.Inspect

/-!
# The command line

Arguments are read from left to right. Every option is given at most once; an option takes the rest of
its argument after an equals sign, or the next argument if that does not start with a dash. Help and
version are shown as soon as they are asked for.
-/

namespace CipherCorpus.Command

/-- A command with its settings. -/
inductive Request where
  | toolchains (json : Bool)
  | buildDataset (config output : String) (withLabels : Bool)
  | extractFunctions (binary : String) (json : Bool)
  | label (binary : String) (json : Bool)
  | labelBinaries (output : String)
  | verify (output : String) (json : Bool)
  | listFunctions (output : String) (json : Bool)
deriving DecidableEq, Repr

/-- What a command line asks for. -/
inductive Parsed where
  | run (r : Request)
  | version
  | help
  /-- No valid command line. -/
  | refused
deriving DecidableEq, Repr

/-- Name, options with a value, and flags of a command. -/
structure Shape where
  name : String
  options : List String
  flags : List String

def shapes : List Shape := [
  ⟨"toolchains", [], ["json"]⟩,
  ⟨"build-dataset", ["config", "output"], ["label"]⟩,
  ⟨"extract-functions", ["binary"], ["json"]⟩,
  ⟨"label", ["binary"], ["json"]⟩,
  ⟨"label-corpus", ["output"], []⟩,
  ⟨"verify", ["output"], ["json"]⟩,
  ⟨"list-functions", ["output"], ["json"]⟩]

/-- Options and flags that have been read. -/
structure Given where
  options : List (String × String)
  flags : List String

/-- The command of a shape, if all its options are given. -/
def request? (s : Shape) (g : Given) : Option Request :=
  let flag (name : String) : Bool := g.flags.contains name
  match s.name with
  | "toolchains" => some (.toolchains (flag "json"))
  | "build-dataset" => do
    return .buildDataset (← g.options.lookup "config") (← g.options.lookup "output") (flag "label")
  | "extract-functions" => do
    return .extractFunctions (← g.options.lookup "binary") (flag "json")
  | "label" => do return .label (← g.options.lookup "binary") (flag "json")
  | "label-corpus" => do return .labelBinaries (← g.options.lookup "output")
  | "verify" => do return .verify (← g.options.lookup "output") (flag "json")
  | "list-functions" => do return .listFunctions (← g.options.lookup "output") (flag "json")
  | _ => none

/-- An argument that is read as an option where one may stand. -/
def isOption (a : String) : Bool := a.toList.head? == some '-' && a != "-"

/-- What a run of short options asks for: `none` goes on with `-v` given. -/
def readLetters (mayShowVersion given : Bool) : List Char → Option Parsed
  | [] => none
  | c :: rest =>
    if c == 'v' then if given then some .refused else readLetters mayShowVersion true rest
    else if c == 'h' then some .help
    else if c == 'V' && mayShowVersion then some .version
    else some .refused

/-- The name of a long option and the value after its equals sign. -/
def cutLong (a : String) : String × Option String :=
  let body := a.toList.drop 2
  let name := body.takeWhile (· != '=')
  let value := body.drop (name.length + 1)
  (String.ofList name, if name.length < body.length then some (String.ofList value) else none)

/-- Read the arguments of a command. -/
def readCommand (s : Shape) (g : Given) : List String → Parsed
  | [] =>
    match request? s g with
    | some r => .run r
    | none => .refused
  | ["--"] =>
    match request? s g with
    | some r => .run r
    | none => .refused
  | a :: rest =>
    if "--".isPrefixOf a then
      let (name, value) := cutLong a
      if s.options.contains name then
        if (g.options.lookup name).isSome then .refused
        else
          match value, rest with
          | some v, rest => readCommand s { g with options := (name, v) :: g.options } rest
          | none, v :: rest =>
            if isOption v then .refused
            else readCommand s { g with options := (name, v) :: g.options } rest
          | none, [] => .refused
      else if value.isSome then .refused
      else if s.flags.contains name || name = "verbose" then
        if g.flags.contains name then .refused
        else readCommand s { g with flags := name :: g.flags } rest
      else if name = "help" then .help
      else .refused
    else if isOption a then
      match readLetters false (g.flags.contains "verbose") (a.toList.drop 1) with
      | some parsed => parsed
      | none => readCommand s { g with flags := "verbose" :: g.flags } rest
    else .refused

/-- Whether the words after `help` name a command. -/
def isHelpTopic : List String → Bool
  | [] => true
  | [name] => name = "help" || shapes.any (·.name = name)
  | _ => false

/-- Read a command line from its first argument on. -/
def readFrom (verbose : Bool) : List String → Parsed
  | [] => .refused
  | a :: rest =>
    if a = "--verbose" then if verbose then .refused else readFrom true rest
    else if a = "--help" then .help
    else if a = "--version" then .version
    else if "--".isPrefixOf a then .refused
    else if isOption a then
      match readLetters true verbose (a.toList.drop 1) with
      | some parsed => parsed
      | none => readFrom true rest
    else if a = "help" then if isHelpTopic rest then .help else .refused
    else
      match shapes.find? (·.name = a) with
      | some s => readCommand s ⟨[], []⟩ rest
      | none => .refused

def parse (arguments : List String) : Parsed := readFrom false arguments

/-- Carry out a command. -/
def Request.reportWith (o : Outside) : Request → Report Unit
  | .toolchains json => Command.toolchains json
  | .buildDataset config output withLabels => Command.buildDataset o config output withLabels
  | .extractFunctions binary json => Command.extractFunctions o binary json
  | .label binary json => Command.label o binary json
  | .labelBinaries output => Command.labelBinaries o output
  | .verify output json => Command.verify output json
  | .listFunctions output json => Command.listFunctions output json

/-- Carry out a command with the tools of the host. -/
def Request.report (r : Request) : Report Unit := r.reportWith .ofHost

/-- How the program ended: exit code, what it printed, and the line that tells of a failure. -/
structure Exit where
  code : Nat
  output : String
  errorLine : Option String
deriving DecidableEq, Repr

/-- What the program calls itself, with its version. -/
def versionText : String := "0.1.0"

def programName : String := "crypto-corpus"

/-- The first line of a text. -/
def firstLine (s : String) : String := String.ofList (s.toList.takeWhile (· != '\n'))

/-- Run the program on its arguments. -/
def run (arguments : List String) : Action Exit := do
  match parse arguments with
  | .version => return ⟨0, s!"{programName} {versionText}\n", none⟩
  | .help => return ⟨0, "", none⟩
  | .refused => return ⟨2, "", none⟩
  | .run r =>
    match ← r.report.outcome with
    | (.ok (), output) => return ⟨0, output, none⟩
    | (.error e, output) => return ⟨1, output, some (firstLine s!"Error: {e.message}")⟩

end CipherCorpus.Command
