/-!
# A place in a YAML text

A cursor holds the characters to come and counts characters, lines and columns. A `Scan` moves the
cursor and gives a value, or gives up.
-/

namespace CipherCorpus.Yaml

/-- The characters to come, and how far the ones before them reach. -/
structure Cursor where
  rest : List Char
  index : Nat
  line : Nat
  column : Nat

abbrev Scan := StateT Cursor Option

/-- A character that ends a line. -/
def isBreak (c : Char) : Bool :=
  c == '\n' || c == '\r' || c.toNat == 0x85 || c.toNat == 0x2028 || c.toNat == 0x2029

def isSpace (c : Char) : Bool := c == ' ' || c == '\t'

/-- The characters of anchors and handles. -/
def isWordChar (c : Char) : Bool := c.isAlphanum || c == '_' || c == '-'

/-- What no text may hold. -/
def isForbidden (c : Char) : Bool :=
  let n := c.toNat
  !(n == 9 || n == 10 || n == 13 || (0x20 ≤ n && n ≤ 0x7e) || n == 0x85 ||
    (0xa0 ≤ n && n ≤ 0xd7ff) || (0xe000 ≤ n && n ≤ 0xfffd) || 0x10000 ≤ n)

/-- Nothing, a space or a line end. -/
def isGap : Option Char → Bool
  | none => true
  | some c => isSpace c || isBreak c

/-- Nothing or a line end. -/
def isLineEnd : Option Char → Bool
  | none => true
  | some c => isBreak c

namespace Cursor

def ofText (text : List Char) : Cursor := ⟨text, 0, 0, 0⟩

def at? (c : Cursor) (n : Nat) : Option Char := c.rest[n]?

def peek (c : Cursor) : Option Char := c.rest.head?

/-- The cursor after one character within a line. -/
def skip (c : Cursor) : Cursor :=
  ⟨c.rest.tail, c.index + 1, c.line, c.column + 1⟩

/-- The cursor after a line end. -/
def skipLine (c : Cursor) : Cursor :=
  match c.rest with
  | '\r' :: '\n' :: rest => ⟨rest, c.index + 2, c.line + 1, 0⟩
  | x :: rest => if isBreak x then ⟨rest, c.index + 1, c.line + 1, 0⟩ else c
  | [] => c

/-- The text of a line end: most of them become a line feed. -/
def lineEndText (c : Cursor) : List Char :=
  match c.rest with
  | x :: _ => if !isBreak x then [] else if x.toNat == 0x2028 || x.toNat == 0x2029 then [x] else ['\n']
  | [] => []

/-- Three equal characters and a gap at the start of a line. -/
def isMarker (c : Cursor) (x : Char) : Bool :=
  c.column == 0 && c.rest.take 3 == [x, x, x] && isGap (c.at? 3)

/-- A line that separates documents. -/
def isSeparator (c : Cursor) : Bool := c.isMarker '-' || c.isMarker '.'

end Cursor

def fail {α : Type} : Scan α := StateT.lift none

def need (condition : Bool) : Scan Unit := if condition then pure () else fail

def peek : Scan (Option Char) := return (← get).peek

def skip : Scan Unit := modify Cursor.skip

def skipLine : Scan Unit := modify Cursor.skipLine

/-- The text of a line end, which is skipped. -/
def takeLineEnd : Scan (List Char) := do
  let text := (← get).lineEndText
  skipLine
  return text

/-- The characters of a class that come next; at most `fuel`. -/
def takeWhile (accepts : Char → Bool) : Nat → Scan (List Char)
  | 0 => return []
  | fuel + 1 => do
    match ← peek with
    | some c =>
      if accepts c then
        skip
        return c :: (← takeWhile accepts fuel)
      else return []
    | none => return []

/-- A bound on the number of characters to come. -/
def remaining : Scan Nat := return (← get).rest.length + 1

def takeAll (accepts : Char → Bool) : Scan (List Char) := do takeWhile accepts (← remaining)

def skipSpaces : Scan Unit := do discard (takeAll isSpace)

/-- Skip a comment, if one starts here. -/
def skipComment : Scan Unit := do
  if (← peek) == some '#' then discard (takeAll (!isBreak ·))

end CipherCorpus.Yaml
