/-!
# Functions of known libraries

What is compiled from a library when its configuration names no functions.
-/

namespace CipherCorpus.Dataset

/-- Library and functions. -/
def catalog : List (String × List String) := [
  ("openssl", ["AES_encrypt", "AES_decrypt", "AES_set_encrypt_key", "RSA_public_encrypt",
    "RSA_private_decrypt", "SHA256_Init", "SHA256_Update", "SHA256_Final", "SHA1_Init", "SHA1_Update",
    "SHA1_Final", "MD5_Init", "MD5_Update", "MD5_Final", "DES_encrypt1", "DES_decrypt1", "HMAC",
    "HMAC_Init", "HMAC_Update", "HMAC_Final"]),
  ("mbedtls", ["mbedtls_aes_encrypt", "mbedtls_aes_decrypt", "mbedtls_rsa_public",
    "mbedtls_rsa_private", "mbedtls_sha256", "mbedtls_sha1", "mbedtls_md5", "mbedtls_des_crypt_ecb",
    "mbedtls_des3_crypt_ecb"]),
  ("libsodium", ["crypto_secretbox_easy", "crypto_secretbox_open_easy", "crypto_box_easy",
    "crypto_box_open_easy", "crypto_sign", "crypto_sign_open", "crypto_hash_sha256",
    "crypto_hash_sha512"])]

/-- The functions of a library; none for an unknown one. -/
def functionsOf (library : String) : List String := (catalog.lookup library).getD []

end CipherCorpus.Dataset
