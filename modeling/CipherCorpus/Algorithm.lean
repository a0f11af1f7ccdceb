import CipherCorpus.Label
import CipherCorpus.Text.Lowercase
import CipherCorpus.Text.Pieces

/-!
# Algorithms by name

The first keyword of the catalog that occurs in the lower-cased name decides. Keywords stand before
those they contain and hashes and key derivations before message codes, so `ecdsa_sign` is ECDSA and
`hmac_sha256` SHA-256.
-/

namespace CipherCorpus.Algorithm

/-- Keyword and algorithm, in the order of search. -/
def catalog : List (String × String) := [
  ("pbkdf2", "PBKDF2"), ("hkdf", "HKDF"), ("scrypt", "Scrypt"),
  ("rsa", "RSA"), ("ecdsa", "ECDSA"), ("ecdh", "ECDH"), ("ecc", "ECC"), ("dsa", "DSA"), ("dh", "DH"),
  ("sha1", "SHA-1"), ("sha224", "SHA-224"), ("sha256", "SHA-256"), ("sha384", "SHA-384"),
  ("sha512", "SHA-512"), ("sha3", "SHA-3"), ("md5", "MD5"), ("blake", "BLAKE"),
  ("hmac", "HMAC"), ("cmac", "CMAC"), ("gmac", "GMAC"),
  ("3des", "3DES"), ("des3", "3DES"), ("aes", "AES"), ("des", "DES"), ("chacha", "ChaCha20"),
  ("blowfish", "Blowfish"), ("twofish", "Twofish")]

/-- The catalog entry that decides a name. -/
def deciding? (name : String) : Option (String × String) :=
  let lowered := Text.lower name.toList
  catalog.find? fun e => Text.occursIn e.1.toList lowered

/-- The algorithm that a function name stands for. -/
def ofName (name : String) : String := ((deciding? name).map (·.2)).getD noAlgorithm

end CipherCorpus.Algorithm
