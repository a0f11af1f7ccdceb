import CipherCorpus.Archive.Gzip
import CipherCorpus.Text.Blank
import CipherCorpus.Text.Number
import CipherCorpus.Text.Utf8
import CipherCorpus.Total

/-!
# Members of a tar stream

A stream is cut into blocks of 512 bytes: a header, then the content rounded up. Members of some kinds
describe the next one: a long name, a long link target, or a list of attributes. Reading ends at a
block of zeros or at the end of the stream; anything else that does not fit is a fault, and the members
before it have been read.

The holes of a sparse member are not filled in: its content is what is stored of it, and a map of holes
that goes on in blocks of its own is not looked for.
-/

namespace CipherCorpus.Archive.Tar

/-- What a member makes. -/
inductive Kind where
  | file
  | hardLink
  | symbolicLink
  | directory
  /-- Describes other members. -/
  | note
deriving DecidableEq, Repr

/-- One member. -/
structure Member where
  kind : Kind
  path : List UInt8
  target : Option (List UInt8)
  content : List UInt8
  /-- All of the content was there. -/
  isWhole : Bool
deriving DecidableEq, Repr

/-- A header with the content after it. -/
structure Block where
  header : List UInt8
  content : List UInt8
  isWhole : Bool
  /-- Offset of the next header. -/
  next : Nat

def blockSize : Nat := 512

def field (header : List UInt8) (offset length : Nat) : List UInt8 := (header.drop offset).take length

/-- Bytes up to the first zero. -/
def upToZero (bytes : List UInt8) : List UInt8 := bytes.takeWhile (· != 0)

/-- An octal number with blanks around it. -/
def octal? (bytes : List UInt8) : Option Nat :=
  (Text.decode? (upToZero bytes)).bind fun text => (Text.readNat 8 (Text.trim text)).toOption

/-- A size is octal, or binary when its first bit is set. -/
def size? (bytes : List UInt8) : Option Nat :=
  match bytes with
  | [] => none
  | b :: _ =>
    if b < 128 then octal? bytes
    else some (((bytes.drop (bytes.length - 8)).foldl (fun n d => n * 256 + d.toNat) 0) % UInt64.size)

/-- The sum over a header with blanks in place of the sum itself. -/
def checksum (header : List UInt8) : Nat :=
  total ((header.take 148 ++ header.drop 156).map (·.toNat)) + 8 * 32

def isUstar (header : List UInt8) : Bool :=
  field header 257 8 == Text.bytesOf "ustar" ++ [0] ++ Text.bytesOf "00"

def isGnu (header : List UInt8) : Bool := field header 257 8 == Text.bytesOf "ustar  " ++ [0]

/-! ## Attributes -/

/-- One line of an attribute list: its length, a blank, key and value. -/
def attribute? (line : List UInt8) : Option (List UInt8 × List UInt8) :=
  let digits := line.takeWhile (· != 32)
  if digits.length = line.length then none
  else
    match (Text.decode? digits).map (Text.readNat 10) with
    | some (.ok n) =>
      let rest := line.drop (digits.length + 1)
      let key := rest.takeWhile (· != 61)
      if n = line.length + 1 && key.length < rest.length then
        some (key, rest.drop (key.length + 1))
      else none
    | _ => none

/-- The bytes cut at every line feed. -/
def linesOf (bytes : List UInt8) : List (List UInt8) :=
  let cut := bytes.foldr (fun b (acc : List UInt8 × List (List UInt8)) =>
    if b == 10 then ([], acc.1 :: acc.2) else (b :: acc.1, acc.2)) ([], [])
  cut.1 :: cut.2

/-- The lines of an attribute list up to the first empty one. -/
def attributeLines (bytes : List UInt8) : List (List UInt8) := (linesOf bytes).takeWhile (!·.isEmpty)

/-- The value of an attribute, lines that are none left out. -/
def attributeValue? (bytes : List UInt8) (key : String) : Option (List UInt8) :=
  ((attributeLines bytes).filterMap attribute?).lookup (Text.bytesOf key)

/-- The size that a list gives; a line that is no attribute ends the search. -/
def attributeSize? (bytes : List UInt8) : Option Nat :=
  let found := ((attributeLines bytes).map attribute?).find? fun a =>
    a.all fun kv => kv.1 == Text.bytesOf "size"
  match found with
  | some (some (_, value)) =>
    (Text.decode? value).bind fun text => (Text.readNat 10 text).toOption
  | _ => none

/-! ## Blocks -/

/-- What comes at an offset. -/
inductive Arrival where
  | ended
  | fault
  | block (b : Block)

/-- The header at an offset, with its content as far as it is there. -/
def arrival (s : Stream) (attributes : Option (List UInt8)) (offset : Nat) : Arrival :=
  let length := s.bytes.size
  if length ≤ offset then if s.broken then .fault else .ended
  else if length < offset + blockSize then .fault
  else
    let header := (s.bytes.extract offset (offset + blockSize)).toList
    if header.all (· == 0) then .ended
    else
      match octal? (field header 148 8), size? (field header 124 12) with
      | some sum, some size =>
        if sum ≠ checksum header then .fault
        else
          let size := (attributes.bind attributeSize?).getD size
          let start := offset + blockSize
          let next := start + (size + blockSize - 1) / blockSize * blockSize
          if UInt64.size ≤ size + blockSize - 1 ∨ UInt64.size ≤ next then .fault
          else
            .block ⟨header, (s.bytes.extract start (min (start + size) length)).toList,
              start + size ≤ length, next⟩
      | _, _ => .fault

def kindByte (b : Block) : UInt8 := (b.header[156]?).getD 0

/-- The name in a header; some headers hold it in two parts. -/
def headerPath (header : List UInt8) : List UInt8 :=
  let name := upToZero (field header 0 100)
  let lead := upToZero (field header 345 155)
  if isUstar header && !lead.isEmpty then lead ++ 47 :: name else name

/-- The link target in a header. -/
def headerTarget (header : List UInt8) : Option (List UInt8) :=
  let target := upToZero (field header 157 100)
  if target.isEmpty then none else some target

/-- What has been said about the next member. -/
structure Notes where
  path : Option (List UInt8)
  target : Option (List UInt8)
  attributes : Option (List UInt8)

def Notes.none : Notes := ⟨.none, .none, .none⟩

def Notes.isEmpty (n : Notes) : Bool := n.path.isNone && n.target.isNone && n.attributes.isNone

/-- A text in a note may end with a zero. -/
def withoutZero (bytes : List UInt8) : List UInt8 :=
  if bytes.getLast? == some 0 then bytes.dropLast else bytes

/-- The kind of a member by its letter and name. -/
def kindOf (letter : UInt8) (header path : List UInt8) : Kind :=
  if letter == 53 then .directory
  else if letter == 49 then .hardLink
  else if letter == 50 then .symbolicLink
  else if letter == 120 || letter == 103 || letter == 76 || letter == 75 then .note
  else if !isUstar header && path.getLast? == some 47 then .directory
  else .file

/-- The member of a block, with what was said about it. -/
def Notes.member (n : Notes) (b : Block) : Member :=
  let fromAttributes (key : String) := n.attributes.bind (attributeValue? · key)
  let path := match n.path with
    | some p => withoutZero p
    | .none => (fromAttributes "path").getD (headerPath b.header)
  let target := match n.target with
    | some t => some (withoutZero t)
    | .none => (fromAttributes "linkpath").orElse fun _ => headerTarget b.header
  ⟨kindOf (kindByte b) b.header path, path, target, b.content, b.isWhole⟩

/-- The notes after a block that describes the next member; none when the block does not. A second
note of one kind is a fault. -/
def Notes.add? (n : Notes) (b : Block) : Option (Option Notes) :=
  let letter := kindByte b
  if !(isUstar b.header || isGnu b.header) then .none
  else if letter == 76 then
    some (if n.path.isSome then .none else some { n with path := some b.content })
  else if letter == 75 then
    some (if n.target.isSome then .none else some { n with target := some b.content })
  else if letter == 120 then
    some (if n.attributes.isSome then .none else some { n with attributes := some b.content })
  else .none

/-- Members from an offset on, and whether reading ended well. -/
def readFrom (s : Stream) : Nat → Nat → Notes → List Member × Bool
  | 0, _, _ => ([], false)
  | fuel + 1, offset, notes =>
    match arrival s notes.attributes offset with
    | .ended => ([], notes.isEmpty)
    | .fault => ([], false)
    | .block b =>
      let onward (notes : Notes) : List Member × Bool :=
        if b.next ≤ s.bytes.size then readFrom s fuel b.next notes else ([], false)
      match notes.add? b with
      | some (some notes) => onward notes
      | some .none => ([], false)
      | .none =>
        let rest := onward .none
        (notes.member b :: rest.1, rest.2)

/-- The members of a stream, and whether reading ended well. -/
def read (s : Stream) : List Member × Bool := readFrom s (s.bytes.size / blockSize + 2) 0 .none

end CipherCorpus.Archive.Tar
