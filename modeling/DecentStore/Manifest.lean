import DecentStore.Crypto
import DecentStore.Lib.IStream

/-!
# The manifest text

`core/manifest`. The writer puts each field on a line as it is. The reader takes
whitespace-separated tokens, checks the labels, and treats the encryption section as optional.
-/

namespace DecentStore

open Bytes

structure ManifestEntry where
  chunkId : Bytes
deriving DecidableEq

structure Manifest where
  originalName : Bytes := []
  originalSize : UInt64 := 0
  chunkSize : UInt64 := 0
  chunks : List ManifestEntry := []
  encrypted : Bool := false
  encAlgo : Bytes := []
  keyEncAlgo : Bytes := []
  encryptedKeyHex : Bytes := []
deriving DecidableEq

/-- `std::vector<ManifestEntry>::max_size()`: a `std::string` takes 32 bytes. -/
def maxEntries : Nat := maxSize / 32

/-- One line of the text: a label, a blank and the field as it is. -/
def fieldLine (label field : Bytes) : Bytes := label ++ str " " ++ field ++ str "\n"

def serializeEntries (chunks : List ManifestEntry) : Bytes :=
  chunks.flatMap fun e => e.chunkId ++ str "\n"

def serializeEncryption (m : Manifest) : Bytes :=
  if m.encrypted then
    fieldLine (str "encrypted") (str "1") ++ fieldLine (str "enc_algo") m.encAlgo ++
      fieldLine (str "key_enc_algo") m.keyEncAlgo ++ fieldLine (str "enc_key") m.encryptedKeyHex
  else fieldLine (str "encrypted") (str "0")

def serializeManifest (m : Manifest) : Bytes :=
  fieldLine (str "filename") m.originalName ++
    fieldLine (str "size") (decimal m.originalSize.toNat) ++
    fieldLine (str "chunk_size") (decimal m.chunkSize.toNat) ++
    fieldLine (str "chunks") (decimal m.chunks.length) ++
    serializeEntries m.chunks ++ serializeEncryption m

def malformed (what : Bytes) : Exc :=
  .runtimeError (str "Malformed manifest (" ++ what ++ str ")")

/-- `in >> label >> field`, with the test of the stream and of the label that follows it. -/
def readLabelled {α : Type} (get : IStream → α → α × IStream) (old : α) (expected : Bytes)
    (is : IStream) : Except Exc (α × IStream) :=
  let (label, is) := is.getString []
  let (field, is) := get is old
  if is.failed ∨ label ≠ expected then .error (malformed expected) else .ok (field, is)

def readChunkIds : Nat → IStream → Except Exc (List ManifestEntry × IStream)
  | 0, is => .ok ([], is)
  | n + 1, is =>
      let (chunkId, is) := is.getString []
      if is.failed then .error (malformed (str "chunk id"))
      else do
        let (entries, is) ← readChunkIds n is
        .ok (⟨chunkId⟩ :: entries, is)

/-- The optional tail: anything but a readable `encrypted 1` leaves the manifest as it is. -/
def readEncryption (m : Manifest) (is : IStream) : Except Exc Manifest :=
  let (label, is) := is.getString []
  let (encFlag, is) := is.getInt 0
  if is.failed = false ∧ label = str "encrypted" ∧ encFlag = 1 then do
    let (encAlgo, is) ← readLabelled IStream.getString [] (str "enc_algo") is
    let (keyEncAlgo, is) ← readLabelled IStream.getString [] (str "key_enc_algo") is
    let (encryptedKeyHex, _) ← readLabelled IStream.getString [] (str "enc_key") is
    .ok { m with
      encrypted := true, encAlgo := encAlgo, keyEncAlgo := keyEncAlgo
      encryptedKeyHex := encryptedKeyHex }
  else .ok m

def parseManifestText (text : Bytes) : Except Exc Manifest := do
  let (originalName, is) ← readLabelled IStream.getString [] (str "filename") ⟨text, false⟩
  let (originalSize, is) ← readLabelled IStream.getUInt64 0 (str "size") is
  let (chunkSize, is) ← readLabelled IStream.getUInt64 0 (str "chunk_size") is
  let (chunkCount, is) ← readLabelled IStream.getUInt64 0 (str "chunks") is
  if maxEntries < chunkCount.toNat then .error (.lengthError (str "vector::reserve"))
  else do
    let (chunks, is) ← readChunkIds chunkCount.toNat is
    readEncryption
      { originalName := originalName, originalSize := originalSize, chunkSize := chunkSize
        chunks := chunks } is

end DecentStore
