import CipherCorpus.Shell.Pattern
import CipherCorpus.Shell.Session

/-!
# From words to fields

An expanded word is a list of atoms: characters with a mark that tells where they come from, and seams.
Only results of expansions are split, at the characters of `IFS`; quoted characters are never part of
a pattern.
-/

namespace CipherCorpus.Shell

/-- Where a character of an expanded word comes from. -/
inductive Mark where
  | literal
  | result
  | quoted
deriving DecidableEq

inductive Atom where
  | char (c : Char) (mark : Mark)
  /-- The seam between two parameters of the shell. -/
  | split
  /-- A quoted part, empty or not, starts. -/
  | edge
  /-- The parameters of the shell, when there are none. -/
  | void

namespace Atom

def ofText (mark : Mark) (s : ByteText) : List Atom := s.map (.char · mark)

/-- The text of atoms without splitting. -/
def textOf (atoms : List Atom) : ByteText :=
  atoms.filterMap fun
    | .char c _ => some c
    | .split => some ' '
    | _ => none

/-- The text of atoms with its quoted characters marked. -/
def markedOf (atoms : List Atom) : MarkedText :=
  atoms.filterMap fun
    | .char c mark => some (c, mark == .quoted)
    | .split => some (' ', true)
    | _ => none

/-- Fields that are done, the last first, and the field being read. -/
structure Splitting where
  done : List MarkedText
  current : Option MarkedText
  afterBlank : Bool

def Splitting.finish (s : Splitting) : Splitting :=
  match s.current with
  | some field => ⟨field.reverse :: s.done, none, true⟩
  | none => s

def Splitting.push (s : Splitting) (x : Char × Bool) : Splitting :=
  { s with current := some (x :: s.current.getD []), afterBlank := false }

def isIfsBlank (c : Char) : Bool := c == ' ' || c == '\t' || c == '\n'

def splitStep (ifs : ByteText) (s : Splitting) : Atom → Splitting
  | .char c mark =>
    if mark == .result && ifs.contains c then
      if isIfsBlank c then s.finish
      else
        match s.current with
        | some _ => { s.finish with afterBlank := false }
        | none => if s.afterBlank then { s with afterBlank := false } else ⟨[] :: s.done, none, false⟩
    else s.push (c, mark == .quoted)
  | .split => s.finish
  | .edge => { s with current := some (s.current.getD []) }
  | .void => { s with current := s.current.filter (!·.isEmpty) }

/-- The fields of an expanded word. -/
def fieldsOf (ifs : ByteText) (atoms : List Atom) : List MarkedText :=
  ((atoms.foldl (splitStep ifs) ⟨[], none, false⟩).finish).done.reverse

end Atom

/-! ## Names of files -/

/-- Cut a pattern at its separators. -/
def patternParts : MarkedText → List MarkedText
  | [] => [[]]
  | (c, literal) :: rest =>
    match patternParts rest with
    | part :: parts => if c == '/' then [] :: part :: parts else ((c, literal) :: part) :: parts
    | [] => [[(c, literal)]]

/-- The paths that begin with one of `bases` and go on as the parts of a pattern. -/
def expandParts (files : FileTree) (cwd : Key) (bases : List ByteText) : List MarkedText → List ByteText
  | [] => bases
  | part :: rest =>
    let literal := part.map (·.1)
    let ending : ByteText := if rest.isEmpty then [] else ['/']
    let next :=
      if !Pattern.isOpen part then bases.map (· ++ literal ++ ending)
      else bases.flatMap fun base =>
        match files.list cwd ⟨if base.isEmpty then "." else toText base⟩ with
        | .error _ => []
        | .ok names =>
          let hits := names.filter fun n =>
            (literal.head? == some '.' || !".".isPrefixOf n) &&
              Pattern.accepts (Pattern.ofMarked part) (CipherCorpus.Shell.ofText n)
          (hits.mergeSort fun a b => decide (a ≤ b)).map fun n =>
            base ++ CipherCorpus.Shell.ofText n ++ ending
    expandParts files cwd next rest

/-- The files that a field matches, or its text when there are none. -/
def fileNames (files : FileTree) (cwd : Key) (field : MarkedText) : List ByteText :=
  let text := field.map (·.1)
  if !Pattern.isOpen field then [text]
  else
    let hits := (expandParts files cwd [[]] (patternParts field)).filter fun p =>
      (files.linkStat cwd ⟨toText p⟩).isOk
    if hits.isEmpty then [text] else hits

end CipherCorpus.Shell
