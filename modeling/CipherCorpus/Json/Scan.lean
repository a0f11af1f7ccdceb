import CipherCorpus.Json.Value
import CipherCorpus.Text.Number
import CipherCorpus.Text.Utf8
import CipherCorpus.Total

/-!
# The lexical level of JSON

The input is a list of characters with `none` for malformed bytes. A fault says whether the text is
malformed, ended too early, or is sound but of the wrong kind (`Fault`); the first fault in reading
order is reported.

Texts are read in two ways: `readText` wants sound characters and paired surrogates, `skipText` only
looks for the end.
-/

namespace CipherCorpus.Json

/-- What is wrong with a document. -/
inductive Fault where
  /-- It is not JSON. -/
  | malformed
  /-- It ends too early. -/
  | ended
  /-- It is JSON so far, but of the wrong kind. -/
  | mismatch
deriving DecidableEq, Repr

/-- Characters, or `none` for a malformed piece of the bytes. -/
abbrev Input := List (Option Char)

def Input.ofBytes (bytes : List UInt8) : Input := Text.pieces bytes

def Input.ofChars (s : List Char) : Input := s.map some

def isGap (c : Option Char) : Bool :=
  c == some ' ' || c == some '\n' || c == some '\t' || c == some '\r'

/-- The input from the next character that is not a gap. -/
def skipGap (s : Input) : Input := s.dropWhile isGap

/-- Read the rest of a fixed word. -/
def readWord : List Char → Input → Except Fault Input
  | [], s => .ok s
  | _ :: _, [] => .error .ended
  | c :: word, x :: s => if x = some c then readWord word s else .error .malformed

/-! ## Texts -/

/-- The number of bytes that a piece stands for. -/
def byteCount (c : Option Char) : Nat := (c.map Char.utf8Size).getD 1

/-- Four hexadecimal digits; when fewer than four bytes are left the text has ended. -/
def readHex4 (s : Input) : Except Fault Nat :=
  let four := s.take 4
  if total (four.map byteCount) < 4 then .error .ended
  else
    match four.mapM (fun c => c.bind (Text.digitValue? 16)) with
    | some [a, b, c, d] => .ok (((a * 16 + b) * 16 + c) * 16 + d)
    | _ => .error .malformed

/-- The character of a one-letter escape. -/
def shortEscape? (c : Option Char) : Option Char :=
  if c = some '"' then some '"'
  else if c = some '\\' then some '\\'
  else if c = some '/' then some '/'
  else if c = some 'b' then some (Char.ofNat 8)
  else if c = some 'f' then some (Char.ofNat 12)
  else if c = some 'n' then some '\n'
  else if c = some 'r' then some '\r'
  else if c = some 't' then some '\t'
  else none

def isHighSurrogate (n : Nat) : Bool := 0xd800 ≤ n && n ≤ 0xdbff

def isLowSurrogate (n : Nat) : Bool := 0xdc00 ≤ n && n ≤ 0xdfff

/-- The second half of a surrogate pair. -/
def readLowHalf (high : Nat) (s : Input) : Except Fault Char :=
  match s with
  | [] => .error .ended
  | x :: s =>
    if x ≠ some '\\' then .error .malformed
    else
      match s with
      | [] => .error .ended
      | y :: s =>
        if y ≠ some 'u' then .error .malformed
        else do
          let low ← readHex4 s
          if isLowSurrogate low then
            return Char.ofNat (0x10000 + (high - 0xd800) * 0x400 + (low - 0xdc00))
          else throw .malformed

/-- The character of an escape and how many pieces it takes, from after the backslash. -/
def readEscape (s : Input) : Except Fault (Char × Nat) :=
  match s with
  | [] => .error .ended
  | x :: rest =>
    if x = some 'u' then do
      let n ← readHex4 rest
      if isLowSurrogate n then throw .malformed
      else if isHighSurrogate n then return (← readLowHalf n (rest.drop 4), 11)
      else return (Char.ofNat n, 5)
    else
      match shortEscape? x with
      | some c => .ok (c, 1)
      | none => .error .malformed

/-- The pieces of a text up to its closing quote, from after the opening one. -/
def readPieces (s : Input) : Except Fault (List (Option Char) × Input) :=
  match s with
  | [] => .error .ended
  | x :: rest =>
    if x = some '"' then .ok ([], rest)
    else if x = some '\\' then
      match readEscape rest with
      | .error f => .error f
      | .ok (c, used) =>
        match readPieces (rest.drop used) with
        | .error f => .error f
        | .ok (more, after) => .ok (some c :: more, after)
    else if x.any (·.toNat < 32) then .error .malformed
    else
      match readPieces rest with
      | .error f => .error f
      | .ok (more, after) => .ok (x :: more, after)
termination_by s.length
decreasing_by all_goals simp only [List.length_drop, List.length_cons]; omega

/-- A text from after its opening quote. -/
def readText (s : Input) : Except Fault (String × Input) := do
  let (ps, rest) ← readPieces s
  match ps.mapM id with
  | some cs => return (String.ofList cs, rest)
  | none => throw .malformed

/-- The input after a text whose content does not matter, from after the opening quote. -/
def skipText (s : Input) : Except Fault Input :=
  match s with
  | [] => .error .ended
  | x :: rest =>
    if x = some '"' then .ok rest
    else if x = some '\\' then
      match rest with
      | [] => .error .ended
      | y :: rest =>
        if y = some 'u' then
          match readHex4 rest with
          | .error f => .error f
          | .ok _ => skipText (rest.drop 4)
        else if (shortEscape? y).isSome then skipText rest
        else .error .malformed
    else if x.any (·.toNat < 32) then .error .malformed
    else skipText rest
termination_by s.length
decreasing_by all_goals simp only [List.length_drop, List.length_cons]; omega

/-! ## Numbers -/

def isDigit (c : Option Char) : Bool := c.any fun c => decide ('0' ≤ c) && decide (c ≤ '9')

/-- The digits in front and the rest. -/
def cutDigits (s : Input) : List Nat × Input :=
  ((s.takeWhile isDigit).filterMap fun c => c.map (·.toNat - 48), s.dropWhile isDigit)

/-- At least one digit. -/
def needDigits (s : Input) : Except Fault (List Nat × Input) :=
  match s with
  | [] => .error .ended
  | x :: _ => if isDigit x then .ok (cutDigits s) else .error .malformed

/-- A number as written. -/
structure Numeral where
  negative : Bool
  whole : List Nat
  fraction : List Nat
  /-- There is a fraction or an exponent. -/
  isReal : Bool
  exponent : Int

def natOfDigits (ds : List Nat) : Nat := ds.foldl (fun n d => n * 10 + d) 0

/-- The exponent of a number, from after the letter. -/
def readExponent (s : Input) : Except Fault (Int × Input) := do
  match s with
  | some '-' :: s =>
    let (ds, s) ← needDigits s
    return (-(natOfDigits ds : Int), s)
  | some '+' :: s =>
    let (ds, s) ← needDigits s
    return ((natOfDigits ds : Int), s)
  | s =>
    let (ds, s) ← needDigits s
    return ((natOfDigits ds : Int), s)

/-- The digits before the point: a zero stands alone. -/
def readWhole (s : Input) : Except Fault (List Nat × Input) :=
  match s with
  | [] => .error .ended
  | x :: rest =>
    if x = some '0' then
      if rest.head?.any isDigit then .error .malformed else .ok ([0], rest)
    else if isDigit x then .ok (cutDigits s)
    else .error .malformed

/-- A fraction, when a point comes next. -/
def readFraction (s : Input) : Except Fault (Option (List Nat) × Input) :=
  match s with
  | some '.' :: rest => do
    let (ds, rest) ← needDigits rest
    return (some ds, rest)
  | s => .ok (none, s)

def isExponentMark (c : Option Char) : Bool := c == some 'e' || c == some 'E'

/-- A number, from its sign or first digit. -/
def readNumeral (s : Input) : Except Fault (Numeral × Input) := do
  let negative := s.head? == some (some '-')
  let (whole, s) ← readWhole (if negative then s.tail else s)
  let (fraction?, s) ← readFraction s
  let fraction := fraction?.getD []
  if s.head?.any isExponentMark then
    let (exponent, s) ← readExponent s.tail
    return (⟨negative, whole, fraction, true, exponent⟩, s)
  else return (⟨negative, whole, fraction, fraction?.isSome, 0⟩, s)

/-- The least magnitude that no double-precision number is near. -/
def realLimit : Nat := Nat.pow 2 1024 - Nat.pow 2 970

/-- The magnitude is beyond double precision. -/
def Numeral.isHuge (n : Numeral) : Bool :=
  let digits := n.whole ++ n.fraction
  let value := natOfDigits digits
  let exponent := n.exponent - n.fraction.length
  if value = 0 then false
  else if 400 < exponent then true
  else if exponent + digits.length < 300 then false
  else if 0 ≤ exponent then realLimit ≤ value * Nat.pow 10 exponent.toNat
  else realLimit * Nat.pow 10 (-exponent).toNat ≤ value

/-- The number, when it is whole, not negative and fits 64 bits. -/
def Numeral.toWord? (n : Numeral) : Option Nat :=
  let value := natOfDigits n.whole
  if n.negative || n.isReal || Text.wordLimit ≤ value then none else some value

/-- A number that has to be within double precision. -/
def readNumber (s : Input) : Except Fault (Numeral × Input) := do
  let (n, s) ← readNumeral s
  if (n.isReal || Text.wordLimit ≤ natOfDigits n.whole) && n.isHuge then throw .malformed
  return (n, s)

end CipherCorpus.Json
