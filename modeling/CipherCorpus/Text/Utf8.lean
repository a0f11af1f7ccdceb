/-!
# Text as bytes

* `pieces` cuts bytes into characters and malformed pieces; a malformed piece is the longest start
  of an encoded character that is there, or one byte.
* `decode?` wants no malformed piece, `decodeLossy` shows each as U+FFFD, `encode` is the way back.
-/

namespace CipherCorpus.Text

def replacement : Char := Char.ofNat 0xfffd

def isContinuation (b : UInt8) : Bool := 0x80 ≤ b && b ≤ 0xbf

/-- What a lead byte announces: how many bytes follow, and the range of the first of them. -/
def leadOf (b : UInt8) : Option (Nat × UInt8 × UInt8) :=
  if 0xc2 ≤ b && b ≤ 0xdf then some (1, 0x80, 0xbf)
  else if b == 0xe0 then some (2, 0xa0, 0xbf)
  else if b == 0xed then some (2, 0x80, 0x9f)
  else if 0xe1 ≤ b && b ≤ 0xef then some (2, 0x80, 0xbf)
  else if b == 0xf0 then some (3, 0x90, 0xbf)
  else if 0xf1 ≤ b && b ≤ 0xf3 then some (3, 0x80, 0xbf)
  else if b == 0xf4 then some (3, 0x80, 0x8f)
  else none

/-- How many of the bytes that `leadOf` announces are there and in range. -/
def followed (more : Nat) (low high : UInt8) (rest : List UInt8) : Nat :=
  match rest with
  | [] => 0
  | b :: rest =>
    if low ≤ b && b ≤ high then 1 + ((rest.take (more - 1)).takeWhile isContinuation).length else 0

/-- The character that starts with byte `b`, if well formed, and how many bytes after `b` belong to
the piece. -/
def firstPiece (b : UInt8) (rest : List UInt8) : Option Char × Nat :=
  if b < 0x80 then (some (Char.ofNat b.toNat), 0)
  else
    match leadOf b with
    | none => (none, 0)
    | some (more, low, high) =>
      let n := followed more low high rest
      if n = more then
        let leadBits := b.toNat % (1 <<< (6 - more))
        (some (Char.ofNat ((rest.take more).foldl (fun v x => v * 64 + x.toNat % 64) leadBits)), more)
      else (none, n)

/-- Here `done` holds the pieces already cut, last first. -/
def piecesFrom (done : List (Option Char)) : List UInt8 → List (Option Char)
  | [] => done.reverse
  | b :: rest =>
    let piece := firstPiece b rest
    piecesFrom (piece.1 :: done) (rest.drop piece.2)
termination_by bytes => bytes.length
decreasing_by simp only [List.length_drop, List.length_cons]; omega

/-- Characters in order, with `none` for a malformed piece. -/
def pieces (bytes : List UInt8) : List (Option Char) := piecesFrom [] bytes

/-- The characters, if every piece is well formed. -/
def decode? (bytes : List UInt8) : Option (List Char) :=
  let ps := pieces bytes
  if ps.all Option.isSome then some (ps.map (·.getD replacement)) else none

/-- The characters, with U+FFFD for each malformed piece. -/
def decodeLossy (bytes : List UInt8) : List Char := (pieces bytes).map (·.getD replacement)

def encode (s : List Char) : List UInt8 := s.flatMap String.utf8EncodeChar

/-- The bytes of a text. -/
def bytesOf (s : String) : List UInt8 := encode s.toList

end CipherCorpus.Text
