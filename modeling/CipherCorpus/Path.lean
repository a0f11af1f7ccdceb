import CipherCorpus.Text.Pieces

/-!
# Paths

A path keeps the text it was written as. Its parts are read from that text: a separator run counts
once and an inner or final `.` does not count, so `a//b`, `a/./b` and `a/b/` have equal parts
(`Path.parts`) although their texts differ.

* `join` puts an absolute second path in place of the first.
* `parent?` and `fileName?` cut at the last part and keep the text before it as written.
* `Path.before` is the order of the parts, compared from the front.
-/

namespace CipherCorpus

open Text

/-- A path as written. -/
structure Path where
  text : String
deriving DecidableEq, Repr, Inhabited, Hashable

/-- One step of a path. -/
inductive PathPart where
  | root
  | here
  | up
  | name (s : String)
deriving DecidableEq, Repr

namespace PathPart

/-- Root, then `.`, then `..`, then names by their bytes. -/
def rank : PathPart → Nat
  | root => 0
  | here => 1
  | up => 2
  | name _ => 3

def before : PathPart → PathPart → Bool
  | name a, name b => decide (a < b)
  | a, b => decide (a.rank < b.rank)

end PathPart

namespace Path

def pieces (p : Path) : List (List Char) := splitOn '/' p.text.toList

def isAbsolute (p : Path) : Bool := p.text.toList.head? == some '/'

/-- A piece after the first that adds no part. -/
def isFiller (piece : List Char) : Bool := piece == [] || piece == ['.']

def partOf (piece : List Char) : PathPart :=
  if piece == ['.', '.'] then .up else .name (String.ofList piece)

/-- The parts of a path. -/
def parts (p : Path) : List PathPart :=
  match p.pieces with
  | [] => []
  | first :: rest =>
    let tail := (rest.filter (!isFiller ·)).map partOf
    if p.isAbsolute then .root :: tail
    else if first == [] then tail
    else if first == ['.'] then .here :: tail
    else partOf first :: tail

/-- Equal as paths: the parts agree. -/
def same (p q : Path) : Bool := p.parts == q.parts

/-- Order on parts, the first difference decides. -/
def partsBefore : List PathPart → List PathPart → Bool
  | _, [] => false
  | [], _ :: _ => true
  | a :: as, b :: bs => a.before b || (a == b && partsBefore as bs)

/-- The order in which candidate files are preferred. -/
def before (p q : Path) : Bool := partsBefore p.parts q.parts

/-- The path `q` below `p`, or `q` itself when it is absolute. -/
def join (p q : Path) : Path :=
  if q.isAbsolute then q
  else if p.text.isEmpty || p.text.toList.getLast? == some '/' then ⟨p.text ++ q.text⟩
  else ⟨p.text ++ "/" ++ q.text⟩

def child (p : Path) (name : String) : Path := p.join ⟨name⟩

/-- Pieces in reverse order, without fillers at the end of the path. -/
def trimFiller : List (List Char) → List (List Char)
  | [] => []
  | [first] => [first]
  | last :: more => if isFiller last then trimFiller more else last :: more

/-- The pieces in reverse order up to the last part. -/
def significant (p : Path) : List (List Char) := trimFiller p.pieces.reverse

/-- The path without its last part; none for the empty path and the root. -/
def parent? (p : Path) : Option Path :=
  match p.significant with
  | [] => none
  | [only] => if only == [] then none else some ⟨""⟩
  | _ :: more =>
    match trimFiller more with
    | [[]] => some ⟨"/"⟩
    | kept => some ⟨String.ofList (joinWith '/' kept.reverse)⟩

/-- The last part, when it is a name. -/
def fileName? (p : Path) : Option String :=
  match p.significant with
  | [] => none
  | last :: _ => if isFiller last || last == ['.', '.'] then none else some (String.ofList last)

/-- A file name cut at its last dot; a dot in front does not count. -/
def cutAtDot (name : List Char) : List Char × Option (List Char) :=
  let after := (name.reverse.takeWhile (· != '.')).reverse
  if after.length = name.length then (name, none)
  else
    let stem := name.take (name.length - after.length - 1)
    if stem.isEmpty then (name, none) else (stem, some after)

def fileStem? (p : Path) : Option String :=
  p.fileName?.map fun n => String.ofList (cutAtDot n.toList).1

def extension? (p : Path) : Option String :=
  p.fileName?.bind fun n => (cutAtDot n.toList).2.map String.ofList

/-- The path with another name in place of its last one. -/
def withFileName (p : Path) (name : String) : Path :=
  match p.fileName? with
  | some _ => (p.parent?.getD ⟨""⟩).child name
  | none => p.child name

/-- The path and its parents, innermost first. -/
def ancestors (p : Path) : List Path :=
  go p.pieces.length p
where
  go : Nat → Path → List Path
    | 0, q => [q]
    | n + 1, q =>
      match q.parent? with
      | some up => q :: go n up
      | none => [q]

end Path

end CipherCorpus
