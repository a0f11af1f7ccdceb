import CipherCorpus.Digest.Block
import CipherCorpus.Digest.Hex

/-!
# SHA-256

The 256-bit digest that a build run records for its configuration file.
-/

namespace CipherCorpus.Digest.Sha256

/-- First 32 bits of the fractional parts of the cube roots of the first 64 primes. -/
def roundConstants : Array UInt32 := #[
  0x428a2f98, 0x71374491, 0xb5c0fbcf, 0xe9b5dba5, 0x3956c25b, 0x59f111f1,
  0x923f82a4, 0xab1c5ed5, 0xd807aa98, 0x12835b01, 0x243185be, 0x550c7dc3,
  0x72be5d74, 0x80deb1fe, 0x9bdc06a7, 0xc19bf174, 0xe49b69c1, 0xefbe4786,
  0x0fc19dc6, 0x240ca1cc, 0x2de92c6f, 0x4a7484aa, 0x5cb0a9dc, 0x76f988da,
  0x983e5152, 0xa831c66d, 0xb00327c8, 0xbf597fc7, 0xc6e00bf3, 0xd5a79147,
  0x06ca6351, 0x14292967, 0x27b70a85, 0x2e1b2138, 0x4d2c6dfc, 0x53380d13,
  0x650a7354, 0x766a0abb, 0x81c2c92e, 0x92722c85, 0xa2bfe8a1, 0xa81a664b,
  0xc24b8b70, 0xc76c51a3, 0xd192e819, 0xd6990624, 0xf40e3585, 0x106aa070,
  0x19a4c116, 0x1e376c08, 0x2748774c, 0x34b0bcb5, 0x391c0cb3, 0x4ed8aa4a,
  0x5b9cca4f, 0x682e6ff3, 0x748f82ee, 0x78a5636f, 0x84c87814, 0x8cc70208,
  0x90befffa, 0xa4506ceb, 0xbef9a3f7, 0xc67178f2]

/-- First 32 bits of the fractional parts of the square roots of the first eight primes. -/
def start : Array UInt32 := #[
  0x6a09e667, 0xbb67ae85, 0x3c6ef372, 0xa54ff53a,
  0x510e527f, 0x9b05688c, 0x1f83d9ab, 0x5be0cd19]

/-- Word `i ≥ 16` of the schedule from the ones before it. -/
def extend (w : Array UInt32) (i : Nat) : Array UInt32 :=
  let x := w[i - 15]!
  let y := w[i - 2]!
  let s0 := rotateRight x 7 ^^^ rotateRight x 18 ^^^ (x >>> 3)
  let s1 := rotateRight y 17 ^^^ rotateRight y 19 ^^^ (y >>> 10)
  w.push (w[i - 16]! + s0 + w[i - 7]! + s1)

def schedule (bytes : ByteArray) (n : Nat) : Array UInt32 :=
  let first := (List.range 16).foldl (fun w i => w.push (wordBig bytes (64 * n + 4 * i))) #[]
  (List.range 48).foldl (fun w i => extend w (i + 16)) first

def round (w : Array UInt32) (v : Array UInt32) (i : Nat) : Array UInt32 :=
  let a := v[0]!
  let e := v[4]!
  let s1 := rotateRight e 6 ^^^ rotateRight e 11 ^^^ rotateRight e 25
  let choice := (e &&& v[5]!) ^^^ (~~~e &&& v[6]!)
  let t1 := v[7]! + s1 + choice + roundConstants[i]! + w[i]!
  let s0 := rotateRight a 2 ^^^ rotateRight a 13 ^^^ rotateRight a 22
  let majority := (a &&& v[1]!) ^^^ (a &&& v[2]!) ^^^ (v[1]! &&& v[2]!)
  let next := #[t1 + (s0 + majority), a, v[1]!, v[2]!, v[3]! + t1, e, v[5]!, v[6]!]
  next

def block (bytes : ByteArray) (h : Array UInt32) (n : Nat) : Array UInt32 :=
  let v := (List.range 64).foldl (round (schedule bytes n)) h
  (h.zip v).map fun p => p.1 + p.2

def bigEndian32 (n : Nat) : List UInt8 := (littleEndian32 n).reverse

def bitCount (n : Nat) : List UInt8 := bigEndian32 (n / UInt32.size) ++ bigEndian32 n

/-- The 32 bytes of the digest. -/
def sum (message : List UInt8) : List UInt8 :=
  let bytes := padded bitCount message
  let h := (List.range (bytes.size / 64)).foldl (block bytes) start
  h.toList.flatMap fun w => bigEndian32 w.toNat

/-- The digest in hexadecimal. -/
def text (message : List UInt8) : String := hexText (sum message)

end CipherCorpus.Digest.Sha256
