import DecentStore.Lib.Descriptors
import DecentStore.Lib.Surroundings
import DecentStore.PeerClient

/-!
# The sockets of a client

The operations of `core/peer/peer_client` once more, with the descriptors they open and close. The
process has one table of descriptors, in which another thread, the embedded peer, opens and closes
descriptors of its own between any two calls of the operation. The functions of `core/net/tcp` that
send and receive leave the table alone, so each is one call here.
-/

namespace DecentStore

open Bytes Interaction

/-- The threads that open descriptors: the one of the operation, and the embedded peer's. -/
inductive Thread where
  | client
  | embeddedPeer
  deriving DecidableEq, Repr

/-- How a connection goes: which calls fail, and what the socket delivers. `sends` are the outcomes
of the next calls of `send_all_or_throw`; when they are used up the calls succeed. -/
structure Connection where
  socketError : Option Exc := none
  connectError : Option Exc := none
  sends : List (Option Exc) := []
  sock : Socket

/-- `opened` counts the descriptors of the operation, and `closes` lists whose descriptor each of
its calls of `close` met. -/
structure Process where
  table : Descriptors Thread
  opened : Nat := 0
  closes : List (Option Thread) := []
  connection : Connection

inductive SocketCall where
  | socket
  | connect (sock : Nat) (peer : PeerEndpoint)
  | sendAllOrThrow (sock : Nat) (data : Bytes)
  | recvAllText (sock : Nat)
  | recvLine (sock : Nat)
  | recvExactly (sock size : Nat)
  | close (sock : Nat)

abbrev SocketCall.Reply : SocketCall → Type
  | .socket => Except Exc Nat
  | .connect _ _ => Except Exc Unit
  | .sendAllOrThrow _ _ => Except Exc Unit
  | .recvAllText _ => Except Exc Bytes
  | .recvLine _ => Option Bytes
  | .recvExactly _ _ => Bytes
  | .close _ => Unit

namespace Connection

def failing : Option Exc → Except Exc Unit
  | none => .ok ()
  | some e => .error e

def sendAll (connection : Connection) : Except Exc Unit × Connection :=
  (failing connection.sends.head?.join, { connection with sends := connection.sends.tail })

def recvLine (connection : Connection) : Option Bytes × Connection :=
  let (line, sock) := DecentStore.recvLine connection.sock
  (line, { connection with sock := sock })

def recvExactly (connection : Connection) (size : Nat) : Bytes × Connection :=
  let (out, sock) := connection.sock.recvExactly id size
  (out, { connection with sock := sock })

/-- The connection as one exchange: what happens to a request whose payload is `data`. -/
def exchange (connection : Connection) (data : Bytes) : Exchange :=
  match connection.socketError, connection.connectError, connection.sendAll.1 with
  | some e, _, _ => .refused e
  | none, some e, _ => .refused e
  | none, none, .error e => .sendFailed e
  | none, none, .ok () =>
      if data = [] then .answered connection.sock
      else match connection.sendAll.2.sendAll.1 with
        | .error e => .sendFailed e
        | .ok () => .answered connection.sock

end Connection

namespace Process

def call : Handler SocketCall.Reply Process
  | .socket, s =>
      match s.connection.socketError with
      | some e => (.error e, s)
      | none => (.ok s.table.lowest, { s with
          table := s.table.install .client, opened := s.opened + 1 })
  | .connect _ _, s => (Connection.failing s.connection.connectError, s)
  | .sendAllOrThrow _ _, s =>
      (s.connection.sendAll.1, { s with connection := s.connection.sendAll.2 })
  | .recvAllText _, s => (DecentStore.recvAllText s.connection.sock, s)
  | .recvLine _, s => (s.connection.recvLine.1, { s with connection := s.connection.recvLine.2 })
  | .recvExactly _ size, s =>
      ((s.connection.recvExactly size).1,
        { s with connection := (s.connection.recvExactly size).2 })
  | .close sock, s => ((), { s with
      table := s.table.release sock, closes := s.closes ++ [s.table.owner sock] })

/-- What the embedded peer does with the table. -/
inductive PeerMove : Process → Process → Prop where
  | opens {s : Process} : PeerMove s { s with table := s.table.install .embeddedPeer }
  | closes {s : Process} {fd : Nat} (howner : s.table.owner fd = some .embeddedPeer) :
      PeerMove s { s with table := s.table.release fd }

def surroundings : Surroundings SocketCall.Reply Process := .ofHandler call PeerMove

/-- A process before an operation. -/
def before (table : Descriptors Thread) (connection : Connection) : Process :=
  { table := table, connection := connection }

end Process

abbrev SocketProg := Prog SocketCall.Reply Exc

namespace ClientSockets

def close (sock : Nat) : SocketProg Unit := Prog.ask (SocketCall.close sock)

def connectTcp (peer : PeerEndpoint) : SocketProg Nat := do
  let sock : Nat ← Prog.ofExcept (← Prog.ask SocketCall.socket)
  let connected : Except Exc Unit ← Prog.ask (SocketCall.connect sock peer)
  match connected with
  | .ok () => return sock
  | .error e =>
      close sock
      throw e

def sendAllOrThrow (sock : Nat) (data : Bytes) : SocketProg Unit := do
  Prog.ofExcept (← Prog.ask (SocketCall.sendAllOrThrow sock data))

def recvAllText (sock : Nat) : SocketProg Bytes := do
  Prog.ofExcept (← Prog.ask (SocketCall.recvAllText sock))

/-- `catch (...) { ::close(sock); throw; }`. -/
def closing {α : Type} (sock : Nat) (body : SocketProg α) : SocketProg α :=
  tryCatch body fun e => do
    close sock
    throw e

def putReply (cmd id : Bytes) (sock : Nat) : SocketProg Unit := do
  let resp ← recvAllText sock
  close sock
  if PeerClient.saysOk resp then return
  throw (PeerClient.failure (str "Peer " ++ cmd ++ str " failed for " ++ id))

def put (cmd : Bytes) (peer : PeerEndpoint) (id data : Bytes) : SocketProg Unit := do
  let sock ← connectTcp peer
  closing sock do
    sendAllOrThrow sock (cmd ++ str " " ++ id ++ str " " ++ decimal data.length ++ str "\n")
    if data ≠ [] then sendAllOrThrow sock data
    putReply cmd id sock

/-- `most` is the largest size the buffer can have. -/
def getReply [Memory] (cmd : Bytes) (most : Nat) (tooLong : Exc) (sock : Nat) :
    SocketProg Bytes := do
  let line : Option Bytes ← Prog.ask (SocketCall.recvLine sock)
  match line with
  | none =>
      close sock
      throw (PeerClient.failure (str "Failed to read " ++ cmd ++ str " header"))
  | some header =>
      let (status, iss) := IStream.getString ⟨header, false⟩ []
      let (size, _) := iss.getUInt64 0
      if status ≠ str "OK" then
        close sock
        throw (PeerClient.failure (str "Peer returned non-OK for " ++ cmd))
      Prog.ofExcept (allocate most tooLong size.toNat)
      let out : Bytes ← Prog.ask (SocketCall.recvExactly sock size.toNat)
      close sock
      if out.length ≠ size.toNat then
        throw (PeerClient.failure (str "Incomplete " ++ cmd ++ str " payload"))
      return out

def get [Memory] (cmd : Bytes) (most : Nat) (tooLong : Exc) (peer : PeerEndpoint) (id : Bytes) :
    SocketProg Bytes := do
  let sock ← connectTcp peer
  closing sock do
    sendAllOrThrow sock (PeerClient.getRequest cmd id)
    getReply cmd most tooLong sock

def has (cmd : Bytes) (peer : PeerEndpoint) (id : Bytes) : SocketProg Bool := do
  let sock ← connectTcp peer
  tryCatch (do
    sendAllOrThrow sock (PeerClient.getRequest cmd id)
    let line : Option Bytes ← Prog.ask (SocketCall.recvLine sock)
    match line with
    | none =>
        close sock
        return false
    | some line =>
        close sock
        return PeerClient.saysOk line) fun _ => do
    close sock
    return false

inductive Operation where
  | putChunk (chunkId data : Bytes)
  | getChunk (chunkId : Bytes)
  | hasChunk (chunkId : Bytes)
  | putManifest (manifestId manifestText : Bytes)
  | getManifest (manifestId : Bytes)
  | hasManifest (manifestId : Bytes)

namespace Operation

abbrev Result : Operation → Type
  | .putChunk _ _ | .putManifest _ _ => Unit
  | .getChunk _ | .getManifest _ => Bytes
  | .hasChunk _ | .hasManifest _ => Bool

def prog [Memory] (peer : PeerEndpoint) : (op : Operation) → SocketProg op.Result
  | .putChunk chunkId data => put (str "PUT_CHUNK") peer chunkId data
  | .getChunk chunkId => get (str "GET_CHUNK") maxSize vectorTooLong peer chunkId
  | .hasChunk chunkId => has (str "HAS_CHUNK") peer chunkId
  | .putManifest manifestId manifestText => put (str "PUT_MANIFEST") peer manifestId manifestText
  | .getManifest manifestId =>
      get (str "GET_MANIFEST") (maxSize - 1) (.lengthError (str "basic_string::_M_replace_aux"))
        peer manifestId
  | .hasManifest manifestId => has (str "HAS_MANIFEST") peer manifestId

end Operation

end ClientSockets

end DecentStore
