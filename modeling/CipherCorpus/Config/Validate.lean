import CipherCorpus.Config.Basic
import CipherCorpus.Config.Error
import CipherCorpus.Text.Blank
import CipherCorpus.Text.Quoted

/-!
# Checking a configuration

Four rules are checked in order: the compiler is known, there are levels, every level is a `-O` flag,
and every library has a name.
-/

namespace CipherCorpus

/-- An optional value in a message. -/
def shownOption {α : Type} (shown : α → String) : Option α → String
  | some x => "Some(" ++ shown x ++ ")"
  | none => "None"

/-- A list of quoted texts in a message. -/
def shownList (items : List String) : String :=
  "[" ++ ", ".intercalate (items.map Text.quoted) ++ "]"

/-- A library in a message, with all its fields. -/
def Library.shown (l : Library) : String :=
  "LibraryConfig \x7b name: " ++ Text.quoted l.name ++
  ", version: " ++ shownOption Text.quoted l.version ++
  ", url: " ++ shownOption Text.quoted l.url ++
  ", functions: " ++ shownOption shownList l.functions ++ " \x7d"

namespace Config

def isLevelFlag (level : String) : Bool := "-O".isPrefixOf level

def hasBlankName (l : Library) : Bool := (Text.trim l.name.toList).isEmpty

/-- Why the settings cannot be used, if they cannot. -/
def fault? (c : Config) : Option String :=
  if !knownCompilers.contains c.compiler then
    some ("unsupported compiler " ++ Text.quoted c.compiler ++ "; expected one of " ++
      ", ".intercalate knownCompilers)
  else if c.levels.isEmpty then some "optimization_levels must not be empty"
  else
    match c.levels.find? (!isLevelFlag ·) with
    | some level => some ("optimization level " ++ Text.quoted level ++ " is not a -O flag")
    | none => (c.libraries.find? hasBlankName).map fun l => "library entry " ++ l.shown ++ " has no name"

def validate (c : Config) : Except ConfigError Unit :=
  match c.fault? with
  | some reason => .error (.invalid reason)
  | none => .ok ()

end Config

end CipherCorpus
