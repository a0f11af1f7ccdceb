import CipherCorpus.Text.Utf8

/-!
# Shell scripts

A script is a list of jobs; a job is a chain of pipelines, a pipeline a row of commands. Words are kept
in pieces until they are expanded. Inside the shell a text has one character for each byte.
-/

namespace CipherCorpus.Shell

/-- Text with one character for each byte. -/
abbrev ByteText := List Char

/-- The bytes of a text as the shell sees them. -/
def ofBytes (bytes : List UInt8) : ByteText := bytes.map fun b => Char.ofNat b.toNat

def toBytes (t : ByteText) : List UInt8 := t.map fun c => UInt8.ofNat c.toNat

def ofText (s : String) : ByteText := ofBytes (Text.bytesOf s)

/-- The text that the bytes encode, malformed ones shown as U+FFFD. -/
def toText (t : ByteText) : String := String.ofList (Text.decodeLossy (toBytes t))

/-- What a parameter without a value, or an empty one, is used for. -/
inductive Fallback where
  /-- Take the word instead. -/
  | useWord
  /-- Take the word instead and keep it. -/
  | keepWord
  /-- Take the word when there is a value, else nothing. -/
  | swapWord
  /-- Stop with the word as message. -/
  | stop
deriving DecidableEq, Repr

/-- How a redirection opens its target. -/
inductive Opening where
  | read
  | write
  | append
  /-- Another name for a channel. -/
  | duplicate
  /-- The word itself is the input. -/
  | here
deriving DecidableEq, Repr

mutual

/-- A part of a word. -/
inductive Piece where
  | text (s : ByteText) (quoted : Bool)
  | value (name : ByteText) (quoted : Bool)
  | length (name : ByteText) (quoted : Bool)
  /-- A value with a fallback; `whenEmpty` counts an empty value as none. -/
  | valueOr (name : ByteText) (fallback : Fallback) (whenEmpty : Bool) (word : List Piece)
    (quoted : Bool)
  /-- A value without what a pattern matches at one end. -/
  | cut (name : ByteText) (atEnd longest : Bool) (pattern : List Piece) (quoted : Bool)
  | sum (expression : List Piece) (quoted : Bool)
  | output (body : List Job) (quoted : Bool)

/-- Opening a channel for a command. -/
inductive Redirection where
  | mk (channel : Nat) (opening : Opening) (target : List Piece)

inductive Command where
  | simple (line : Nat) (assignments : List (ByteText × List Piece)) (words : List (List Piece))
    (redirections : List Redirection)
  | group (body : List Job) (redirections : List Redirection)
  | subshell (body : List Job) (redirections : List Redirection)
  | branch (cases : List (List Job × List Job)) (otherwise : List Job)
    (redirections : List Redirection)
  /-- Repeat while the test succeeds, or fails when `negated`. -/
  | loop (negated : Bool) (test body : List Job) (redirections : List Redirection)
  | each (name : ByteText) (items : Option (List (List Piece))) (body : List Job)
    (redirections : List Redirection)
  | select (subject : List Piece) (cases : List (List (List Piece) × List Job))
    (redirections : List Redirection)
  | define (name : ByteText) (body : Command)

inductive Pipeline where
  | mk (negated : Bool) (commands : List Command)

/-- Pipelines, each after the first run only if the one before succeeds (`true`) or fails. -/
inductive Job where
  | mk (first : Pipeline) (rest : List (Bool × Pipeline)) (background : Bool)

end

/-- A word before it is expanded. -/
abbrev Word := List Piece

instance : Inhabited Piece := ⟨.text [] false⟩

instance : Inhabited Command := ⟨.group [] []⟩

end CipherCorpus.Shell
