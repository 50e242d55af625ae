import DecentStore.Basic
import DecentStore.Lib.IStream

/-!
# Cutting a file into chunks

`core/chunk/chunker`. The ids of the chunks are left to the caller, so a chunk is its bytes.
-/

namespace DecentStore

open Bytes

/-- `while (true)`: each `read` gets a buffer of bytes or what is left, and none at the end. -/
def readChunks (size : Nat) : Nat → Bytes → List Bytes
  | 0, _ => []
  | turns + 1, rest =>
      let bytes := rest.take size
      if bytes = [] then [] else bytes :: readChunks size turns (rest.drop size)

/-- The loop itself, with the stream and the buffer it carries from turn to turn: each `read` goes
over the front of the buffer. `none` while it has not ended. -/
def chunkLoop : Nat → IStream → Bytes → Option (List Bytes)
  | 0, _, _ => none
  | turns + 1, is, buffer =>
      let (got, is) := is.read buffer.length
      if got = [] then some []
      else
        let buffer := got ++ buffer.drop got.length
        (chunkLoop turns is buffer).map (buffer.take got.length :: ·)

/-- `file` is the file's content, if it can be opened. The buffer is made before the first read, and
every turn but the last gets a byte. -/
def chunkFile [Memory] (filePath : Bytes) (file : Option Bytes) (chunkSize : UInt64) :
    Except Exc (List Bytes) :=
  if chunkSize = 0 then .error (.invalidArgument (str "chunkSize must be > 0"))
  else match file with
    | none => .error (.runtimeError (str "Failed to open file for chunking: " ++ filePath))
    | some content => do
        allocate maxSize vectorTooLong chunkSize.toNat
        .ok (readChunks chunkSize.toNat (content.length + 1) content)

end DecentStore
