/-!
# Blank characters, words and lines

* `isBlank` is the `White_Space` property.
* `trim` drops blanks at both ends; `words` cuts at runs of blanks; `lines` cuts after every line feed.
-/

namespace CipherCorpus.Text

/-- The `White_Space` property: 25 characters. -/
def isBlank (c : Char) : Bool :=
  let n := c.toNat
  (9 ≤ n && n ≤ 13) || n == 32 || n == 0x85 || n == 0xa0 || n == 0x1680 ||
  (0x2000 ≤ n && n ≤ 0x200a) || n == 0x2028 || n == 0x2029 || n == 0x202f || n == 0x205f ||
  n == 0x3000

def trimStart (s : List Char) : List Char := s.dropWhile isBlank

def trimEnd (s : List Char) : List Char := (s.reverse.dropWhile isBlank).reverse

/-- Drop blanks at both ends. -/
def trim (s : List Char) : List Char := trimEnd (trimStart s)

/-- Here `word` holds the letters of the unfinished word, last first. -/
def wordsFrom (word : List Char) : List Char → List (List Char)
  | [] => if word.isEmpty then [] else [word.reverse]
  | c :: rest =>
    if isBlank c then
      if word.isEmpty then wordsFrom [] rest else word.reverse :: wordsFrom [] rest
    else wordsFrom (c :: word) rest

/-- The maximal runs of characters that are not blank. -/
def words (s : List Char) : List (List Char) := wordsFrom [] s

/-- Here `line` holds the letters of the unfinished line, last first. -/
def linesFrom (line : List Char) : List Char → List (List Char)
  | [] => if line.isEmpty then [] else [line.reverse]
  | c :: rest =>
    if c = '\n' then
      (match line with
        | '\r' :: before => before.reverse
        | _ => line.reverse) :: linesFrom [] rest
    else linesFrom (c :: line) rest

/-- Lines end at a line feed, with a carriage return before it dropped; a last line needs no end. -/
def lines (s : List Char) : List (List Char) := linesFrom [] s

end CipherCorpus.Text
