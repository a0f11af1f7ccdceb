import CipherCorpus.Text.Lowercase
import CipherCorpus.Text.PrintableTable

/-!
# Quoted text for messages

`quoted` writes a text between double quotes so that it stays on one line: quotes, backslashes and
the common controls get a letter, anything that would not show gets its code point in hexadecimal.
-/

namespace CipherCorpus.Text

/-- Digit below sixteen, in lower case. -/
def hexDigit (n : Nat) : Char :=
  if n < 10 then Char.ofNat (48 + n) else Char.ofNat (87 + n)

/-- Lower-case hexadecimal without leading zeros. -/
def hex (n : Nat) : List Char := Nat.toDigits 16 n

/-- Shown as itself: printable, and not joined to the character before it. -/
def showsAlone (c : Char) : Bool :=
  !inRanges graphemeExtendRanges c && !inRanges unprintableRanges c

def quoteChar (c : Char) : List Char :=
  if c = '"' then ['\\', '"']
  else if c = '\\' then ['\\', '\\']
  else if c = '\n' then ['\\', 'n']
  else if c = '\r' then ['\\', 'r']
  else if c = '\t' then ['\\', 't']
  else if c.toNat = 0 then ['\\', '0']
  else if 32 ≤ c.toNat && c.toNat < 127 then [c]
  else if showsAlone c then [c]
  else '\\' :: 'u' :: Char.ofNat 123 :: hex c.toNat ++ [Char.ofNat 125]

def quotedChars (s : List Char) : List Char := '"' :: s.flatMap quoteChar ++ ['"']

/-- The text between quotes, on one line. -/
def quoted (s : String) : String := String.ofList (quotedChars s.toList)

end CipherCorpus.Text
