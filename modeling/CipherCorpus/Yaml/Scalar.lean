import CipherCorpus.Text.Number
import CipherCorpus.Text.Utf8
import CipherCorpus.Yaml.Cursor

/-!
# Scalars

A scalar is written plain, between quotes, or as a block of lines. Inside plain and quoted scalars a
line end counts as a space, and empty lines after it as line ends (`Fold.join`); the lines of a literal
block stay, those of a folded block are joined unless a line starts with a space.
-/

namespace CipherCorpus.Yaml

/-- How a scalar is written. -/
inductive Style where
  | plain
  | quoted
  | literal
  | folded
deriving DecidableEq, Repr

/-- White space that waits for the next character: spaces of a line, or line ends. -/
structure Fold where
  spaces : List Char
  /-- A line has ended. -/
  broken : Bool
  first : List Char
  more : List Char

namespace Fold

def empty : Fold := ⟨[], false, [], []⟩

def isEmpty (f : Fold) : Bool := !f.broken && f.spaces.isEmpty

/-- What the white space adds to the text. -/
def join (f : Fold) : List Char :=
  if !f.broken then f.spaces
  else if f.first == ['\n'] then if f.more.isEmpty then [' '] else f.more
  else f.first ++ f.more

def addLineEnd (f : Fold) (text : List Char) : Fold :=
  if f.broken then { f with more := f.more ++ text } else ⟨[], true, text, []⟩

def addSpace (f : Fold) (c : Char) : Fold :=
  if f.broken then f else { f with spaces := f.spaces ++ [c] }

end Fold

/-- Take spaces and line ends. In lines that have broken, a tab before column `indent` is refused. -/
def foldFrom (indent : Nat) : Nat → Fold → Scan Fold
  | 0, f => return f
  | fuel + 1, f => do
    match ← peek with
    | some c =>
      if isSpace c then
        if f.broken && (← get).column < indent && c == '\t' then fail
        skip
        foldFrom indent fuel (f.addSpace c)
      else if isBreak c then foldFrom indent fuel (f.addLineEnd (← takeLineEnd))
      else return f
    | none => return f

/-! ## Plain scalars -/

/-- Characters that stand for themselves only outside of flow collections. -/
def isFlowMark (c : Char) : Bool :=
  c == ',' || c == '[' || c == ']' || c.toNat == 123 || c.toNat == 125

/-- The characters of a plain scalar up to a gap or an indicator. -/
def plainRun (flow : Bool) : Nat → Scan (List Char)
  | 0 => return []
  | fuel + 1 => do
    let cursor ← get
    match cursor.peek with
    | none => return []
    | some c =>
      let following := cursor.at? 1
      if isSpace c || isBreak c then return []
      if flow && c == ':' && following.any (fun d => isFlowMark d || d == '?') then fail
      if (c == ':' && isGap following) || (flow && isFlowMark c) then return []
      skip
      return c :: (← plainRun flow fuel)

/-- Runs and the white space between them; the flag tells that the last white space held a line end. -/
def plainFrom (flow : Bool) (indent : Nat) : Nat → Fold → Scan (List Char × Bool)
  | 0, f => return ([], f.broken)
  | fuel + 1, f => do
    let cursor ← get
    if cursor.isSeparator || cursor.peek == some '#' then return ([], f.broken)
    let run ← plainRun flow (← remaining)
    let text := if run.isEmpty then [] else f.join ++ run
    let f := if run.isEmpty then f else .empty
    match ← peek with
    | some c =>
      if isSpace c || isBreak c then
        let f ← foldFrom indent (← remaining) f
        if !flow && (← get).column < indent then return (text, f.broken)
        let (more, broken) ← plainFrom flow indent fuel f
        return (text ++ more, broken)
      else return (text, f.broken)
    | none => return (text, f.broken)

/-! ## Quoted scalars -/

/-- The value of `n` hexadecimal digits. -/
def takeHex : Nat → Nat → Scan Nat
  | 0, value => return value
  | n + 1, value => do
    match (← peek).bind (Text.digitValue? 16) with
    | some d =>
      skip
      takeHex n (value * 16 + d)
    | none => fail

/-- A character given by `n` hexadecimal digits. -/
def takeCode (n : Nat) : Scan Char := do
  let value ← takeHex n 0
  need (!(0xd800 ≤ value && value ≤ 0xdfff) && value ≤ 0x10ffff)
  return Char.ofNat value

/-- The code points of one-letter escapes. -/
def escapes : List (Char × Nat) := [
  ('0', 0), ('a', 7), ('b', 8), ('t', 9), ('\t', 9), ('n', 10), ('v', 11), ('f', 12), ('r', 13),
  ('e', 27), (' ', 32), ('"', 34), ('/', 47), ('\\', 92), ('N', 0x85), ('_', 0xa0), ('L', 0x2028),
  ('P', 0x2029)]

/-- An escape from after its backslash. -/
def takeEscape : Scan Char := do
  let some c ← peek | fail
  skip
  if c == 'x' then takeCode 2
  else if c == 'u' then takeCode 4
  else if c == 'U' then takeCode 8
  else
    match escapes.lookup c with
    | some n => return Char.ofNat n
    | none => fail

/-- Characters up to a gap or the closing quote; the flag tells that an escaped line end came last. -/
def quotedRun (quote : Char) : Nat → Scan (List Char × Bool)
  | 0 => fail
  | fuel + 1 => do
    let cursor ← get
    match cursor.peek with
    | none => return ([], false)
    | some c =>
      let following := cursor.at? 1
      if isSpace c || isBreak c then return ([], false)
      if quote == '\'' && c == quote && following == some quote then
        skip
        skip
        let (more, broken) ← quotedRun quote fuel
        return (quote :: more, broken)
      if c == quote then return ([], false)
      if quote == '"' && c == '\\' then
        skip
        if following.any isBreak then
          skipLine
          return ([], true)
        let x ← takeEscape
        let (more, broken) ← quotedRun quote fuel
        return (x :: more, broken)
      skip
      let (more, broken) ← quotedRun quote fuel
      return (c :: more, broken)

/-- The content of a quoted scalar and its closing quote. -/
def quotedFrom (quote : Char) : Nat → Scan (List Char)
  | 0 => fail
  | fuel + 1 => do
    let cursor ← get
    if cursor.isSeparator || cursor.peek.isNone then fail
    let (run, escaped) ← quotedRun quote (← remaining)
    if (← peek) == some quote then
      skip
      return run
    let f ← foldFrom 0 (← remaining) ⟨[], escaped, [], []⟩
    return run ++ f.join ++ (← quotedFrom quote fuel)

/-- A scalar between quotes. -/
def takeQuoted (quote : Char) : Scan (List Char) := do
  skip
  quotedFrom quote (← remaining)

/-! ## Block scalars -/

/-- What becomes of the line ends at the end of a block. -/
inductive Chomping where
  | strip
  | clip
  | keep
deriving DecidableEq

/-- Spaces up to column `indent`, or all of them while no column is known. -/
def skipIndent (indent : Nat) : Nat → Scan Unit
  | 0 => return ()
  | fuel + 1 => do
    let cursor ← get
    if (indent == 0 || cursor.column < indent) && cursor.peek == some ' ' then
      skip
      skipIndent indent fuel

/-- Empty lines and indentation: the line ends, and the widest column seen. -/
def blockBreaks (indent : Nat) : Nat → Nat → Scan (List Char × Nat)
  | 0, widest => return ([], widest)
  | fuel + 1, widest => do
    skipIndent indent (← remaining)
    let cursor ← get
    let widest := max widest cursor.column
    if (indent == 0 || cursor.column < indent) && cursor.peek == some '\t' then fail
    if cursor.peek.any isBreak then
      let text ← takeLineEnd
      let (more, widest) ← blockBreaks indent fuel widest
      return (text ++ more, widest)
    else return ([], widest)

/-- The lines of a block from column `indent` on; `lineEnd` is the end of the line before, `breaks` the
empty lines after it. Gives the text without the end that is left over, and that end. -/
def blockLines (literal : Bool) (indent : Nat) :
    Nat → List Char → List Char → Bool → Scan (List Char × List Char × List Char)
  | 0, lineEnd, breaks, _ => return ([], lineEnd, breaks)
  | fuel + 1, lineEnd, breaks, afterSpace => do
    let cursor ← get
    if cursor.column == indent && cursor.peek.isSome then
      let startsWithSpace := cursor.peek.any isSpace
      let lead :=
        if !literal && lineEnd == ['\n'] && !afterSpace && !startsWithSpace then
          (if breaks.isEmpty then [' '] else []) ++ breaks
        else lineEnd ++ breaks
      let line ← takeAll (!isBreak ·)
      let lineEnd ← takeLineEnd
      let (breaks, _) ← blockBreaks indent (← remaining) 0
      let (more, rest) ← blockLines literal indent fuel lineEnd breaks startsWithSpace
      return (lead ++ line ++ more, rest)
    else return ([], lineEnd, breaks)

def isIndentDigit (c : Option Char) : Bool := c.any Char.isDigit

/-- One digit from one to nine. -/
def takeIndentDigit : Scan (Option Nat) := do
  match ← peek with
  | some c =>
    if !c.isDigit then return none
    if c == '0' then fail
    skip
    return some (c.toNat - 48)
  | none => return none

def takeChomping : Scan (Option Chomping) := do
  match ← peek with
  | some '+' => skip; return some .keep
  | some '-' => skip; return some .strip
  | _ => return none

/-- Chomping and indentation, in either order. -/
def blockHeader : Scan (Chomping × Option Nat) := do
  match ← takeChomping with
  | some chomping => return (chomping, ← takeIndentDigit)
  | none =>
    let digit ← takeIndentDigit
    if digit.isSome then return ((← takeChomping).getD .clip, digit) else return (.clip, none)

/-- A block scalar; `parent` is the first column that belongs to its content. -/
def takeBlock (literal : Bool) (parent : Nat) : Scan (List Char) := do
  skip
  let (chomping, digit) ← blockHeader
  skipSpaces
  skipComment
  need (isLineEnd (← peek))
  skipLine
  let given := match digit with
    | some n => if parent = 0 then n else parent - 1 + n
    | none => 0
  let (breaks, widest) ← blockBreaks given (← remaining) 0
  let indent := if given = 0 then max (max widest parent) 1 else given
  let (text, lineEnd, trailing) ← blockLines literal indent (← remaining) [] breaks false
  match chomping with
  | .strip => return text
  | .clip => return text ++ lineEnd
  | .keep => return text ++ lineEnd ++ trailing

end CipherCorpus.Yaml
