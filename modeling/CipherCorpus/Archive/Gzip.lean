import CipherCorpus.Archive.Inflate
import CipherCorpus.Digest.Crc32

/-!
# Gzip members

A member is a header, a compressed stream and a trailer with check value and length. What follows the
first member is not read. The decoded bytes are available before a fault is met, so `gunzip` gives
them together with how reading past them ends.
-/

namespace CipherCorpus.Archive

/-- Bytes to be read in order; `broken` says that reading past them fails instead of ending. -/
structure Stream where
  bytes : ByteArray
  broken : Bool

namespace Gzip

/-- The number in `width` bytes at `offset`, lowest first; none beyond the end. -/
def number? (input : ByteArray) (offset width : Nat) : Option Nat :=
  if input.size < offset + width then none
  else some (((List.range width).reverse.map fun i => (input.get! (offset + i)).toNat).foldl
    (fun n d => n * 256 + d) 0)

/-- The offset after the zero that ends a text. -/
def afterText? (input : ByteArray) : Nat → Nat → Option Nat
  | 0, _ => none
  | fuel + 1, offset =>
    if input.size ≤ offset then none
    else if input.get! offset == 0 then some (offset + 1)
    else afterText? input fuel (offset + 1)

/-- The offset after the header; none when it is not a header or is cut off. -/
def afterHeader? (input : ByteArray) : Option Nat := do
  if input.size < 10 then none
  let magic ← number? input 0 3
  if magic ≠ 0x088b1f then none
  let flags ← number? input 3 1
  if 32 ≤ flags then none
  let has (flag : Nat) : Bool := flags / flag % 2 == 1
  let offset := 10
  let offset ← if has 4 then (number? input offset 2).map (offset + 2 + ·) else some offset
  if input.size < offset then none
  let offset ← if has 8 then afterText? input (input.size + 1) offset else some offset
  let offset ← if has 16 then afterText? input (input.size + 1) offset else some offset
  if has 2 then
    let check ← number? input offset 2
    if (Digest.Crc32.sum (input.extract 0 offset).toList).toNat % UInt16.size = check then some (offset + 2)
    else none
  else some offset

/-- How much of a corrupt stream is still seen: decoded data is handed on in blocks of this size. -/
def windowSize : Nat := 32768

/-- The trailer at `offset` agrees with the decoded bytes. -/
def trailerAgrees (input : ByteArray) (offset : Nat) (bytes : ByteArray) : Bool :=
  match number? input offset 4, number? input (offset + 4) 4 with
  | some check, some length =>
    check == (Digest.Crc32.sum bytes.toList).toNat && length == bytes.size % UInt32.size
  | _, _ => false

end Gzip

/-- The bytes of the first member of a gzip file. -/
def gunzip (file : List UInt8) : Stream :=
  let input := file.toByteArray
  match Gzip.afterHeader? input with
  | none => ⟨ByteArray.empty, true⟩
  | some offset =>
    let body := inflate input offset
    match body.ending with
    | .ok trailer => ⟨body.bytes, !Gzip.trailerAgrees input trailer body.bytes⟩
    | .error .truncated => ⟨body.bytes, true⟩
    | .error .corrupt =>
      ⟨body.bytes.extract 0 (body.bytes.size / Gzip.windowSize * Gzip.windowSize), true⟩

end CipherCorpus.Archive
