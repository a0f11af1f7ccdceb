import CipherCorpus.Text.Quoted

/-!
# Bytes in hexadecimal
-/

namespace CipherCorpus.Digest

def hexByte (b : UInt8) : List Char :=
  [Text.hexDigit (b.toNat / 16), Text.hexDigit (b.toNat % 16)]

/-- Two lower-case digits a byte. -/
def hexText (bytes : List UInt8) : String := String.ofList (bytes.flatMap hexByte)

end CipherCorpus.Digest
