/-!
# CRC-32

The check value that gzip and zip store for a member: the polynomial `0xedb88320`, low bit first.
-/

namespace CipherCorpus.Digest.Crc32

def bitStep (c : UInt32) : UInt32 :=
  if c &&& 1 == 1 then (c >>> 1) ^^^ 0xedb88320 else c >>> 1

def byteStep (c : UInt32) (b : UInt8) : UInt32 :=
  let x := c ^^^ b.toUInt32
  bitStep (bitStep (bitStep (bitStep (bitStep (bitStep (bitStep (bitStep x)))))))

def sum (bytes : List UInt8) : UInt32 := ~~~(bytes.foldl byteStep 0xffffffff)

end CipherCorpus.Digest.Crc32
