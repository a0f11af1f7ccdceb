import CipherCorpus.Total

/-!
# Inflating compressed data

A compressed stream is a row of blocks: stored, coded with the fixed codes, or with codes of their own.
`inflate` gives what was decoded and how it ended: complete, out of input, or corrupt.

The loops are bounded by the number of input bits, since each turn takes at least one.
-/

namespace CipherCorpus.Archive

/-- Why decoding stops before the end. -/
inductive Stop where
  | truncated
  | corrupt
deriving DecidableEq, Repr

/-- What has been decoded, and the bit to read next. -/
structure Inflated where
  out : ByteArray
  bit : Nat

abbrev Inflate := ExceptT Stop (StateM Inflated)

namespace Inflate

/-- The next bit. -/
def bit (input : ByteArray) : Inflate Nat := do
  let s ← get
  if s.bit / 8 < input.size then
    set { s with bit := s.bit + 1 }
    return ((input.get! (s.bit / 8)).toNat >>> (s.bit % 8)) % 2
  else throw .truncated

/-- The next `n` bits, the first one lowest. -/
def bits (input : ByteArray) : Nat → Inflate Nat
  | 0 => return 0
  | n + 1 => do
    let low ← bit input
    let high ← bits input n
    return low + 2 * high

def emit (b : UInt8) : Inflate Unit := modify fun s => { s with out := s.out.push b }

/-- A prefix code: how many codes there are of each length, and their symbols in order. -/
structure Code where
  counts : Array Nat
  symbols : Array Nat

/-- The code of given lengths; the symbols of a length are in order of their number. -/
def Code.ofLengths (lengths : List Nat) : Code :=
  let numbered := lengths.zipIdx
  ⟨((List.range 16).map fun n => if n = 0 then 0 else lengths.count n).toArray,
    ((List.range 15).flatMap fun n => (numbered.filter (·.1 == n + 1)).map (·.2)).toArray⟩

/-- How much of the code space is taken, in parts of 2¹⁵. -/
def Code.weight (c : Code) : Nat :=
  total ((List.range 15).map fun n => c.counts[n + 1]! <<< (14 - n))

/-- Every word has a meaning, or there is at most one code. -/
def Code.isUsable (c : Code) : Bool := c.weight == 32768 || c.symbols.size ≤ 1

/-- Read one symbol: `n` more bits may come, `first` is the first code of the current length and
`index` the place of its symbol. -/
def symbolFrom (input : ByteArray) (c : Code) : Nat → Nat → Nat → Nat → Inflate Nat
  | 0, _, _, _ => throw .corrupt
  | n + 1, code, first, index => do
    let code := code + (← bit input)
    let count := c.counts[15 - n]!
    if code < first + count then return c.symbols[index + (code - first)]!
    else symbolFrom input c n (2 * code) (2 * (first + count)) (index + count)

def symbol (input : ByteArray) (c : Code) : Inflate Nat := symbolFrom input c 15 0 0 0

/-- Shortest length and number of further bits of each length symbol. -/
def lengthBases : Array (Nat × Nat) := #[
  (3, 0), (4, 0), (5, 0), (6, 0), (7, 0), (8, 0), (9, 0), (10, 0), (11, 1), (13, 1), (15, 1),
  (17, 1), (19, 2), (23, 2), (27, 2), (31, 2), (35, 3), (43, 3), (51, 3), (59, 3), (67, 4), (83, 4),
  (99, 4), (115, 4), (131, 5), (163, 5), (195, 5), (227, 5), (258, 0)]

/-- Shortest distance and number of further bits of each distance symbol. -/
def distanceBases : Array (Nat × Nat) := #[
  (1, 0), (2, 0), (3, 0), (4, 0), (5, 1), (7, 1), (9, 2), (13, 2), (17, 3), (25, 3), (33, 4),
  (49, 4), (65, 5), (97, 5), (129, 6), (193, 6), (257, 7), (385, 7), (513, 8), (769, 8), (1025, 9),
  (1537, 9), (2049, 10), (3073, 10), (4097, 11), (6145, 11), (8193, 12), (12289, 12), (16385, 13),
  (24577, 13)]

/-- Repeat `n` bytes from `distance` back; before the start there are zeros. -/
def copyBack (distance : Nat) : Nat → Inflate Unit
  | 0 => return ()
  | n + 1 => do
    let out := (← get).out
    emit (if distance ≤ out.size then out.get! (out.size - distance) else 0)
    copyBack distance n

/-- Literals and copies up to the end of a block. -/
def codedBlock (input : ByteArray) (literals distances : Code) : Nat → Inflate Unit
  | 0 => throw .truncated
  | fuel + 1 => do
    let s ← symbol input literals
    if s < 256 then
      emit s.toUInt8
      codedBlock input literals distances fuel
    else if s = 256 then return ()
    else
      match lengthBases[s - 257]? with
      | none => throw .corrupt
      | some (base, extra) =>
        let length := base + (← bits input extra)
        let d ← symbol input distances
        match distanceBases[d]? with
        | none => throw .corrupt
        | some (base, extra) =>
          let distance := base + (← bits input extra)
          copyBack distance length
          codedBlock input literals distances fuel

def fixedLiterals : Code := .ofLengths
  (List.replicate 144 8 ++ List.replicate 112 9 ++ List.replicate 24 7 ++ List.replicate 8 8)

def fixedDistances : Code := .ofLengths (List.replicate 30 5)

/-- The order in which the lengths of the length code are written. -/
def lengthOrder : List Nat := [16, 17, 18, 0, 8, 7, 9, 6, 10, 5, 11, 4, 12, 3, 13, 2, 14, 1, 15]

/-- Read code lengths until there are `total`; `done` holds those read, last first. -/
def codeLengths (input : ByteArray) (code : Code) (total : Nat) : Nat → List Nat → Inflate (List Nat)
  | 0, _ => throw .truncated
  | fuel + 1, done => do
    if total < done.length then throw .corrupt
    if done.length = total then return done.reverse
    let s ← symbol input code
    if s < 16 then codeLengths input code total fuel (s :: done)
    else if s = 16 then
      match done with
      | [] => throw .corrupt
      | last :: _ =>
        let n := 3 + (← bits input 2)
        codeLengths input code total fuel (List.replicate n last ++ done)
    else
      let n ← if s = 17 then (3 + ·) <$> bits input 3 else (11 + ·) <$> bits input 7
      codeLengths input code total fuel (List.replicate n 0 ++ done)

/-- The next `n` numbers of three bits. -/
def triples (input : ByteArray) : Nat → Inflate (List Nat)
  | 0 => return []
  | n + 1 => do
    let x ← bits input 3
    return x :: (← triples input n)

/-- The codes that a block brings along. -/
def ownCodes (input : ByteArray) : Inflate (Code × Code) := do
  let literalCount := 257 + (← bits input 5)
  let distanceCount := 1 + (← bits input 5)
  let count := 4 + (← bits input 4)
  let given := lengthOrder.zip (← triples input count)
  let lengthCode := Code.ofLengths ((List.range 19).map fun i => (given.lookup i).getD 0)
  if lengthCode.weight ≠ 32768 then throw .corrupt
  let lengths ← codeLengths input lengthCode (literalCount + distanceCount)
    (literalCount + distanceCount + 1) []
  let literals := Code.ofLengths (lengths.take literalCount)
  let distances := Code.ofLengths (lengths.drop literalCount)
  if literals.isUsable && distances.isUsable then return (literals, distances) else throw .corrupt

/-- Copy `n` bytes of the input. -/
def storedBytes (input : ByteArray) : Nat → Inflate Unit
  | 0 => return ()
  | n + 1 => do
    emit (← bits input 8).toUInt8
    storedBytes input n

/-- A block that is stored as it is, from the next whole byte. -/
def storedBlock (input : ByteArray) : Inflate Unit := do
  modify fun s => { s with bit := (s.bit + 7) / 8 * 8 }
  let length ← bits input 16
  let check ← bits input 16
  if length + check ≠ 65535 then throw .corrupt
  storedBytes input length

/-- Blocks up to the last one. -/
def blocks (input : ByteArray) : Nat → Inflate Unit
  | 0 => throw .truncated
  | fuel + 1 => do
    let last ← bit input
    let kind ← bits input 2
    if kind = 0 then storedBlock input
    else if kind = 1 then codedBlock input fixedLiterals fixedDistances (8 * input.size + 1)
    else if kind = 2 then
      let (literals, distances) ← ownCodes input
      codedBlock input literals distances (8 * input.size + 1)
    else throw .corrupt
    if last = 1 then return () else blocks input fuel

end Inflate

/-- Decoded bytes, and the offset of the first byte after the stream or why there is none. -/
structure Inflation where
  bytes : ByteArray
  ending : Except Stop Nat

/-- Decode the stream that starts at `offset`. -/
def inflate (input : ByteArray) (offset : Nat) : Inflation :=
  match (Inflate.blocks input (8 * input.size + 1)).run.run ⟨ByteArray.empty, 8 * offset⟩ with
  | (.ok (), s) => ⟨s.out, .ok ((s.bit + 7) / 8)⟩
  | (.error stop, s) => ⟨s.out, .error stop⟩

end CipherCorpus.Archive
