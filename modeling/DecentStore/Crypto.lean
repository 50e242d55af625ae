import DecentStore.Basic
import Mathlib.Data.Set.Basic

/-!
# Hashing and hybrid encryption

`core/crypto`. OpenSSL is not part of the repository: it is the parameter `OpenSsl`, with what its
documentation promises for every input as fields. The narrowing of a length to `int`, the emptiness
tests and the layout of a ciphertext are the repository's own and are written out.
-/

namespace DecentStore

open Bytes

/-- The OpenSSL calls the code makes. The two RSA functions read a PEM file and so can throw. -/
structure OpenSsl where
  sha256 : Bytes → Bytes
  /-- AES-256-GCM of a whole message: the ciphertext and the tag. -/
  gcmEncrypt : (key iv plaintext : Bytes) → Bytes × Bytes
  /-- The plaintext, if the tag verifies. -/
  gcmDecrypt : (key iv ciphertext tag : Bytes) → Option Bytes
  rsaEncrypt : (pemPath message : Bytes) → Except Exc Bytes
  rsaDecrypt : (pemPath blob : Bytes) → Except Exc Bytes
  sha256_length : ∀ data, (sha256 data).length = 32
  gcmEncrypt_length : ∀ key iv plaintext, (gcmEncrypt key iv plaintext).1.length = plaintext.length
  gcmTag_length : ∀ key iv plaintext, (gcmEncrypt key iv plaintext).2.length = 16
  gcmDecrypt_length : ∀ {key iv ciphertext tag plaintext},
    gcmDecrypt key iv ciphertext tag = some plaintext → plaintext.length = ciphertext.length
  gcmDecrypt_gcmEncrypt : ∀ key iv plaintext,
    gcmDecrypt key iv (gcmEncrypt key iv plaintext).1 (gcmEncrypt key iv plaintext).2 =
      some plaintext
  rsaEncrypt_ne_nil : ∀ {pemPath message blob}, rsaEncrypt pemPath message = .ok blob → blob ≠ []

namespace Crypto

/-! ### Hex -/

def kHex : Bytes := str "0123456789abcdef"

def toHex (data : Bytes) : Bytes :=
  data.flatMap fun b => [kHex.getD (b.toNat / 16) 0, kHex.getD (b.toNat % 16) 0]

/-- `std::stoi`. -/
def stoi (base : Nat) (s : Bytes) : Except Exc Int :=
  match strtol base s with
  | none => .error (.invalidArgument (str "stoi"))
  | some v =>
      if v < -2 ^ 31 ∨ 2 ^ 31 - 1 < v then .error (.outOfRange (str "stoi")) else .ok v

/-- The loop of `from_hex`, two characters at a time. -/
def fromHexLoop : Bytes → Except Exc Bytes
  | a :: b :: hex => do
      let v ← stoi 16 [a, b]
      let out ← fromHexLoop hex
      .ok (UInt8.ofNat (v % 256).toNat :: out)
  | _ => .ok []

def fromHex (hex : Bytes) : Except Exc Bytes :=
  if hex.length % 2 ≠ 0 then .ok [] else fromHexLoop hex

/-- Lowercase hex of the digest. The stream manipulators of the source print each byte as two
digits, which is what `toHex` does. -/
def sha256Hex (ssl : OpenSsl) (data : Bytes) : Bytes := toHex (ssl.sha256 data)

/-! ### Chunk encryption -/

structure FileEncryptionParams where
  key : Bytes := []
  iv : Bytes := []
deriving DecidableEq

/-- What `generate_file_key` returns when `RAND_bytes` succeeds. -/
structure FileKey where
  params : FileEncryptionParams
  key_length : params.key.length = 32
  iv_length : params.iv.length = 12

structure EncryptedKey where
  alg : Bytes
  blob : Bytes

/-- The last four bytes of the base IV become the chunk counter, big endian. -/
def deriveChunkIv (baseIv : Bytes) (idx : UInt64) : Except Exc Bytes :=
  if baseIv.length ≠ 12 then .error (.runtimeError (str "base IV must be 12 bytes"))
  else
    let ctr : UInt32 := (idx &&& 0xffffffff).toUInt32
    .ok ((((baseIv.set 8 ((ctr >>> 24) &&& 0xff).toUInt8).set 9
      ((ctr >>> 16) &&& 0xff).toUInt8).set 10 ((ctr >>> 8) &&& 0xff).toUInt8).set 11
      (ctr &&& 0xff).toUInt8)

/-- What `aes_gcm_encrypt` does with the IV. `EVP_EncryptUpdate` gets the length as an `int`: it
fails on a negative one, and otherwise sees that many bytes of the plaintext. The sum
`ciphertext_len + 16` is an `int` too; when it wraps it is a huge size for `out.resize`, which
throws. -/
def gcmSeal (ssl : OpenSsl) (plaintext key iv : Bytes) : Except Exc Bytes :=
  let len := castInt plaintext.length
  if len < 0 then .error (.runtimeError (str "OpenSSL error in EVP_EncryptUpdate"))
  else if 2 ^ 31 - 1 < len + 16 then .error (.lengthError (str "vector::_M_default_append"))
  else
    let (ciphertext, tag) := ssl.gcmEncrypt key iv (plaintext.take len.toNat)
    .ok (ciphertext ++ tag)

def aesGcmEncrypt (ssl : OpenSsl) (plaintext key baseIv : Bytes) (chunkIndex : UInt64) :
    Except Exc Bytes := do
  let iv ← deriveChunkIv baseIv chunkIndex
  gcmSeal ssl plaintext key iv

/-- A negative `ctextLen` becomes a huge size in `out.resize`, which throws. A tag that fails frees
the context, and so does the handler of what is thrown then: the process does not live on. -/
def aesGcmDecrypt (ssl : OpenSsl) (ciphertext key baseIv : Bytes) (chunkIndex : UInt64) :
    Except Exc Bytes :=
  if ciphertext.length < 16 then .error (.runtimeError (str "ciphertext too short"))
  else do
    let iv ← deriveChunkIv baseIv chunkIndex
    let tagPos := ciphertext.length - 16
    let ctextLen := castInt tagPos
    if ctextLen < 0 then .error (.lengthError (str "vector::_M_default_append"))
    else
      match ssl.gcmDecrypt key iv (ciphertext.take ctextLen.toNat) (ciphertext.drop tagPos) with
      | none => .error .killed
      | some out => .ok out

/-! ### Wrapping the file key -/

def encryptFileKeyRsa (ssl : OpenSsl) (params : FileEncryptionParams) (publicKeyPemPath : Bytes) :
    Except Exc EncryptedKey := do
  let blob ← ssl.rsaEncrypt publicKeyPemPath (params.key ++ params.iv)
  .ok { alg := str "RSA", blob := blob }

/-- A blob that is too short is thrown for inside the `try` whose handler frees the key again. -/
def decryptFileKeyRsa (ssl : OpenSsl) (ek : EncryptedKey) (privateKeyPemPath : Bytes) :
    Except Exc FileEncryptionParams := do
  let out ← ssl.rsaDecrypt privateKeyPemPath ek.blob
  if out.length < 32 + 12 then .error .killed
  else .ok { key := out.take 32, iv := (out.drop 32).take 12 }

end Crypto

end DecentStore
