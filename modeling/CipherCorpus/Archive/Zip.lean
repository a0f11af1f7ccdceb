import CipherCorpus.Archive.Gzip
import CipherCorpus.Path
import CipherCorpus.Text.Utf8

/-!
# Zip archives

The end of the directory is looked for from the end of the file, so that other data may stand before
and after the archive. The directory gives the entries; the data of an entry stands behind a header of
its own. A name is UTF-8 when its flag says so, else in the code page of the first machines.

The data of an entry is stored or deflated; an entry packed in another way or encrypted cannot be opened
here. Sizes and offsets have 32 bits: the directory of a larger archive is not read.
-/

namespace CipherCorpus.Archive.Zip

/-- Characters of the bytes from 128 on in the old code page. -/
def oldCodePage : Array Nat := #[
  0xc7, 0xfc, 0xe9, 0xe2, 0xe4, 0xe0, 0xe5, 0xe7, 0xea, 0xeb, 0xe8, 0xef,
  0xee, 0xec, 0xc4, 0xc5, 0xc9, 0xe6, 0xc6, 0xf4, 0xf6, 0xf2, 0xfb, 0xf9,
  0xff, 0xd6, 0xdc, 0xa2, 0xa3, 0xa5, 0x20a7, 0x192, 0xe1, 0xed, 0xf3, 0xfa,
  0xf1, 0xd1, 0xaa, 0xba, 0xbf, 0x2310, 0xac, 0xbd, 0xbc, 0xa1, 0xab, 0xbb,
  0x2591, 0x2592, 0x2593, 0x2502, 0x2524, 0x2561, 0x2562, 0x2556, 0x2555, 0x2563, 0x2551, 0x2557,
  0x255d, 0x255c, 0x255b, 0x2510, 0x2514, 0x2534, 0x252c, 0x251c, 0x2500, 0x253c, 0x255e, 0x255f,
  0x255a, 0x2554, 0x2569, 0x2566, 0x2560, 0x2550, 0x256c, 0x2567, 0x2568, 0x2564, 0x2565, 0x2559,
  0x2558, 0x2552, 0x2553, 0x256b, 0x256a, 0x2518, 0x250c, 0x2588, 0x2584, 0x258c, 0x2590, 0x2580,
  0x3b1, 0xdf, 0x393, 0x3c0, 0x3a3, 0x3c3, 0xb5, 0x3c4, 0x3a6, 0x398, 0x3a9, 0x3b4,
  0x221e, 0x3c6, 0x3b5, 0x2229, 0x2261, 0xb1, 0x2265, 0x2264, 0x2320, 0x2321, 0xf7, 0x2248,
  0xb0, 0x2219, 0xb7, 0x221a, 0x207f, 0xb2, 0x25a0, 0xa0]

def decodeOld (bytes : List UInt8) : List Char :=
  bytes.map fun (b : UInt8) => if b < 128 then Char.ofNat b.toNat else Char.ofNat oldCodePage[b.toNat - 128]!

/-- An entry of the directory. -/
structure Entry where
  name : String
  madeBy : Nat
  flags : Nat
  method : Nat
  check : Nat
  packedSize : Nat
  attributes : Nat
  /-- Offset of the entry's own header in the file. -/
  offset : Nat
deriving DecidableEq, Repr

/-- What the entry's mode says about it, on systems that have modes. -/
def Entry.mode? (e : Entry) : Option Nat :=
  if e.attributes = 0 then none
  else if e.madeBy / 256 = 3 then some (e.attributes >>> 16)
  else none

def Entry.isLink (e : Entry) : Bool := e.mode?.any fun m => (m >>> 12) % 16 &&& 10 == 10

def Entry.isDirectory (e : Entry) : Bool :=
  e.name.toList.getLast? == some '/' || e.name.toList.getLast? == some '\\'

/-- The names of the path of an entry; none when it leads out of the archive. -/
def Entry.names? (e : Entry) : Option (List String) :=
  if e.name.toList.any (·.toNat == 0) then none
  else
    (Path.parts ⟨e.name⟩).foldlM (fun (names : List String) part =>
      match part with
      | .root => none
      | .here => some names
      | .up => if names.isEmpty then none else some names.dropLast
      | .name n => some (names ++ [n])) []

def number? := Gzip.number?

/-- The entry at an offset and the offset after it; `shift` is what stands before the archive. -/
def entryAt? (input : ByteArray) (shift offset : Nat) : Option (Entry × Nat) := do
  if (← number? input offset 4) ≠ 0x02014b50 then none
  let flags ← number? input (offset + 8) 2
  let nameLength ← number? input (offset + 28) 2
  let extraLength ← number? input (offset + 30) 2
  let commentLength ← number? input (offset + 32) 2
  let start ← number? input (offset + 42) 4
  let next := offset + 46 + nameLength + extraLength + commentLength
  if input.size < next then none
  let raw := (input.extract (offset + 46) (offset + 46 + nameLength)).toList
  let name := if (flags >>> 11) % 2 = 1 then Text.decodeLossy raw else decodeOld raw
  return ({
    name := String.ofList name
    madeBy := ← number? input (offset + 4) 2
    flags := flags
    method := ← number? input (offset + 10) 2
    check := ← number? input (offset + 16) 4
    packedSize := ← number? input (offset + 20) 4
    attributes := ← number? input (offset + 38) 4
    offset := shift + start }, next)

def entriesFrom? (input : ByteArray) (shift : Nat) : Nat → Nat → Option (List Entry)
  | 0, _ => some []
  | n + 1, offset => do
    let (e, next) ← entryAt? input shift offset
    return e :: (← entriesFrom? input shift n next)

/-- The directory whose end stands at `offset`. -/
def directoryAt? (input : ByteArray) (offset : Nat) : Option (List Entry) := do
  if (← number? input offset 4) ≠ 0x06054b50 then none
  let disk ← number? input (offset + 4) 2
  let directoryDisk ← number? input (offset + 6) 2
  let count ← number? input (offset + 10) 2
  let size ← number? input (offset + 12) 4
  let start ← number? input (offset + 16) 4
  let commentLength ← number? input (offset + 20) 2
  if disk ≠ directoryDisk then none
  if input.size < offset + 22 + commentLength then none
  if offset < size + start then none
  let shift := offset - size - start
  entriesFrom? input shift count (shift + start)

/-- The last offset below `n` at which a directory ends, with its entries. -/
def directoryBelow? (input : ByteArray) : Nat → Option (List Entry)
  | 0 => none
  | n + 1 =>
    match directoryAt? input n with
    | some entries => some entries
    | none => directoryBelow? input n

/-- The entries of an archive. -/
def entries? (input : ByteArray) : Option (List Entry) := directoryBelow? input input.size

/-- The data of an entry as far as it can be read. -/
structure Content where
  bytes : List UInt8
  /-- It was read to its end and agrees with its check value. -/
  isSound : Bool

/-- The data of an entry; none when it cannot be opened. -/
def content? (input : ByteArray) (e : Entry) : Option Content := do
  if (← number? input e.offset 4) ≠ 0x04034b50 then none
  if e.flags % 2 = 1 then none
  let nameLength ← number? input (e.offset + 26) 2
  let extraLength ← number? input (e.offset + 28) 2
  let start := e.offset + 30 + nameLength + extraLength
  let packed := input.extract start (start + e.packedSize)
  let checked (bytes : List UInt8) : Content :=
    ⟨bytes, (Digest.Crc32.sum bytes).toNat == e.check⟩
  if e.method = 0 then return checked packed.toList
  else if e.method = 8 then
    let body := inflate packed 0
    match body.ending with
    | .error .corrupt =>
      return ⟨(body.bytes.extract 0 (body.bytes.size / Gzip.windowSize * Gzip.windowSize)).toList,
        false⟩
    | _ => return checked body.bytes.toList
  else none

end CipherCorpus.Archive.Zip
