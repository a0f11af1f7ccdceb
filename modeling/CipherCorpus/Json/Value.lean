import CipherCorpus.Text.Quoted

/-!
# JSON values and their text

Records are written in the order of their fields. `compactText` has no blanks; `prettyText` puts every item
on its own line, two blanks deeper, and writes an empty list or record on one line.
-/

namespace CipherCorpus.Json

/-- The values that this library writes. -/
inductive Value where
  | null
  | truth (b : Bool)
  | count (n : Nat)
  | text (s : String)
  | list (items : List Value)
  | record (fields : List (String × Value))
deriving Repr, Inhabited

namespace Value

/-- The text, or null when there is none. -/
def optional : Option String → Value
  | some s => text s
  | none => null

def word (n : UInt64) : Value := count n.toNat

end Value

def escapeChar (c : Char) : List Char :=
  let n := c.toNat
  if c = '"' then ['\\', '"']
  else if c = '\\' then ['\\', '\\']
  else if n = 8 then ['\\', 'b']
  else if n = 9 then ['\\', 't']
  else if n = 10 then ['\\', 'n']
  else if n = 12 then ['\\', 'f']
  else if n = 13 then ['\\', 'r']
  else if n < 32 then
    ['\\', 'u', '0', '0', Text.hexDigit (n / 16), Text.hexDigit (n % 16)]
  else [c]

/-- A text between quotes. -/
def textChars (s : String) : List Char := '"' :: s.toList.flatMap escapeChar ++ ['"']

/-- The brace that opens a record. -/
def openBrace : Char := Char.ofNat 123

/-- The brace that closes a record. -/
def closeBrace : Char := Char.ofNat 125

def truthChars (b : Bool) : List Char := (if b then "true" else "false").toList

mutual

/-- A value without blanks. -/
def compact : Value → List Char
  | .null => "null".toList
  | .truth b => truthChars b
  | .count n => Nat.toDigits 10 n
  | .text s => textChars s
  | .list items => '[' :: compactItems items ++ [']']
  | .record fields => openBrace :: compactFields fields ++ [closeBrace]

def compactItems : List Value → List Char
  | [] => []
  | [v] => compact v
  | v :: w :: rest => compact v ++ ',' :: compactItems (w :: rest)

def compactFields : List (String × Value) → List Char
  | [] => []
  | [(k, v)] => textChars k ++ ':' :: compact v
  | (k, v) :: f :: rest => textChars k ++ ':' :: compact v ++ ',' :: compactFields (f :: rest)

end

/-- A new line, `depth` levels deep. -/
def newLine (depth : Nat) : List Char := '\n' :: List.replicate (2 * depth) ' '

mutual

/-- A value over several lines, the first of them not indented. -/
def prettyAt (depth : Nat) : Value → List Char
  | .null => "null".toList
  | .truth b => truthChars b
  | .count n => Nat.toDigits 10 n
  | .text s => textChars s
  | .list [] => ['[', ']']
  | .list (v :: rest) =>
    '[' :: newLine (depth + 1) ++ prettyAt (depth + 1) v ++ prettyItems (depth + 1) rest ++
      newLine depth ++ [']']
  | .record [] => [openBrace, closeBrace]
  | .record ((k, v) :: rest) =>
    openBrace :: newLine (depth + 1) ++ textChars k ++ ':' :: ' ' :: prettyAt (depth + 1) v ++
      prettyFields (depth + 1) rest ++ newLine depth ++ [closeBrace]

/-- The items after the first. -/
def prettyItems (depth : Nat) : List Value → List Char
  | [] => []
  | v :: rest => ',' :: newLine depth ++ prettyAt depth v ++ prettyItems depth rest

/-- The fields after the first. -/
def prettyFields (depth : Nat) : List (String × Value) → List Char
  | [] => []
  | (k, v) :: rest =>
    ',' :: newLine depth ++ textChars k ++ ':' :: ' ' :: prettyAt depth v ++
      prettyFields depth rest

end

def Value.compactText (v : Value) : String := String.ofList (compact v)

def Value.prettyText (v : Value) : String := String.ofList (prettyAt 0 v)

end CipherCorpus.Json
