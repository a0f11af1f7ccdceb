/-!
# Messages in blocks of 64 bytes

MD5 and SHA-256 pad alike: one byte `0x80`, zeros, and the length in bits in eight bytes, so that the
whole is a multiple of 64 bytes. They differ in the byte order of words and of the length.
-/

namespace CipherCorpus.Digest

/-- The low four bytes of `n`, least significant first. -/
def littleEndian32 (n : Nat) : List UInt8 :=
  [n.toUInt8, (n >>> 8).toUInt8, (n >>> 16).toUInt8, (n >>> 24).toUInt8]

/-- Zeros after the byte `0x80`, for a message of `n` bytes. -/
def paddingZeros (n : Nat) : Nat := (119 - n % 64) % 64

/-- A message with its padding; `bitCount` writes the length. -/
def padded (bitCount : Nat → List UInt8) (message : List UInt8) : ByteArray :=
  (message ++ 0x80 :: List.replicate (paddingZeros message.length) 0 ++
    bitCount (message.length * 8)).toByteArray

/-- Four bytes at `i`, least significant first. -/
def wordLittle (a : ByteArray) (i : Nat) : UInt32 :=
  (a.get! i).toUInt32 ||| ((a.get! (i + 1)).toUInt32 <<< 8) |||
  ((a.get! (i + 2)).toUInt32 <<< 16) ||| ((a.get! (i + 3)).toUInt32 <<< 24)

/-- Four bytes at `i`, most significant first. -/
def wordBig (a : ByteArray) (i : Nat) : UInt32 :=
  (a.get! (i + 3)).toUInt32 ||| ((a.get! (i + 2)).toUInt32 <<< 8) |||
  ((a.get! (i + 1)).toUInt32 <<< 16) ||| ((a.get! i).toUInt32 <<< 24)

def rotateLeft (x : UInt32) (k : UInt32) : UInt32 := (x <<< k) ||| (x >>> (32 - k))

def rotateRight (x : UInt32) (k : UInt32) : UInt32 := (x >>> k) ||| (x <<< (32 - k))

end CipherCorpus.Digest
