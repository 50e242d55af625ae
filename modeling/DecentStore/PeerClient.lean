import DecentStore.Lib.Interaction
import DecentStore.Lib.IStream
import DecentStore.Net

/-!
# The client of a peer

`core/peer/peer_client`. Every function opens a connection, sends one request and reads the reply.
Nothing is read before the whole request is out, so a connection is a single call: the request goes
with it, and the answer is what the socket then delivers.
-/

namespace DecentStore

open Bytes Interaction

/-- How a connection goes: it cannot be opened, the request cannot be sent, the peer has closed it
and the next send gets a `SIGPIPE`, the peer keeps it open and says nothing more, or it answers. -/
inductive Exchange where
  | refused (e : Exc)
  | sendFailed (e : Exc)
  | brokenPipe
  | silent
  | answered (sock : Socket)

/-- What a client asks of the world: connections and its own file system. -/
inductive Call where
  | exchange (peer : PeerEndpoint) (request : Bytes)
  | fileExists (path : Bytes)
  | readFile (path : Bytes)
  | absolute (path : Bytes)
  | createDirectories (path : Bytes)
  | writeFile (path text : Bytes)
  | openOut (path : Bytes)
  | write (data : Bytes)

/-- Asking for a file can throw. A file is read whole if it can be opened, making directories
reports an error message, and opening a file to write reports success. Output on a stream that is
open is not checked. -/
abbrev Call.Reply : Call → Type
  | .exchange _ _ => Exchange
  | .fileExists _ => Except Exc Bool
  | .readFile _ => Option Bytes
  | .absolute _ => Bytes
  | .createDirectories _ => Option Bytes
  | .writeFile _ _ => Bool
  | .openOut _ => Bool
  | .write _ => Unit

abbrev ClientProg := Prog Call.Reply Exc

namespace PeerClient

/-- The requests with a payload, and those without. -/
def putRequest (cmd id data : Bytes) : Bytes :=
  cmd ++ str " " ++ id ++ str " " ++ decimal data.length ++ str "\n" ++ data

def getRequest (cmd id : Bytes) : Bytes := cmd ++ str " " ++ id ++ str "\n"

def failure (what : Bytes) : Exc := .runtimeError what

/-- A connection on which a failure to open or to send throws. No `send` asks for `MSG_NOSIGNAL`,
and no receive of a client has a timeout. -/
def exchange (peer : PeerEndpoint) (request : Bytes) : ClientProg Socket := do
  let answer : Exchange ← Prog.ask (Call.exchange peer request)
  match answer with
  | .refused e => throw e
  | .sendFailed e => throw e
  | .brokenPipe => throw .killed
  | .silent => throw .stuck
  | .answered sock => pure sock

/-- `rfind("OK", 0) == 0`. -/
def saysOk (resp : Bytes) : Bool := (str "OK").isPrefixOf resp

def put (cmd : Bytes) (peer : PeerEndpoint) (id data : Bytes) : ClientProg Unit := do
  let sock ← exchange peer (putRequest cmd id data)
  let resp ← Prog.ofExcept (recvAllText sock)
  if saysOk resp then pure ()
  else throw (failure (str "Peer " ++ cmd ++ str " failed for " ++ id))

/-- Reading the reply to a `GET`. `most` is the largest size the buffer can have. -/
def readReply [Memory] (cmd : Bytes) (most : Nat) (tooLong : Exc) (sock : Socket) :
    Except Exc Bytes :=
  match recvLine sock with
  | (none, _) => .error (failure (str "Failed to read " ++ cmd ++ str " header"))
  | (some header, sock) =>
      let (status, iss) := IStream.getString ⟨header, false⟩ []
      let (size, _) := iss.getUInt64 0
      if status ≠ str "OK" then
        .error (failure (str "Peer returned non-OK for " ++ cmd))
      else do
        allocate most tooLong size.toNat
        let (out, _) := sock.recvExactly id size.toNat
        if out.length ≠ size.toNat then
          .error (failure (str "Incomplete " ++ cmd ++ str " payload"))
        else .ok out

def get [Memory] (cmd : Bytes) (most : Nat) (tooLong : Exc) (peer : PeerEndpoint) (id : Bytes) :
    ClientProg Bytes := do
  let sock ← exchange peer (getRequest cmd id)
  Prog.ofExcept (readReply cmd most tooLong sock)

/-- Of the exceptions only that of a connection that cannot be opened passes. -/
def has (cmd : Bytes) (peer : PeerEndpoint) (id : Bytes) : ClientProg Bool := do
  let answer : Exchange ← Prog.ask (Call.exchange peer (getRequest cmd id))
  match answer with
  | .refused e => throw e
  | .sendFailed _ => pure false
  | .brokenPipe => throw .killed
  | .silent => throw .stuck
  | .answered sock =>
      match recvLine sock with
      | (none, _) => pure false
      | (some line, _) => pure (saysOk line)

def putChunk (peer : PeerEndpoint) (chunkId data : Bytes) : ClientProg Unit :=
  put (str "PUT_CHUNK") peer chunkId data

def getChunk [Memory] (peer : PeerEndpoint) (chunkId : Bytes) : ClientProg Bytes :=
  get (str "GET_CHUNK") maxSize vectorTooLong peer chunkId

def hasChunk (peer : PeerEndpoint) (chunkId : Bytes) : ClientProg Bool :=
  has (str "HAS_CHUNK") peer chunkId

def putManifest (peer : PeerEndpoint) (manifestId manifestText : Bytes) : ClientProg Unit :=
  put (str "PUT_MANIFEST") peer manifestId manifestText

/-- The buffer is a `std::string`, which holds one byte less than a vector. -/
def getManifest [Memory] (peer : PeerEndpoint) (manifestId : Bytes) : ClientProg Bytes :=
  get (str "GET_MANIFEST") (maxSize - 1) (.lengthError (str "basic_string::_M_replace_aux")) peer
    manifestId

def hasManifest (peer : PeerEndpoint) (manifestId : Bytes) : ClientProg Bool :=
  has (str "HAS_MANIFEST") peer manifestId

end PeerClient

end DecentStore
