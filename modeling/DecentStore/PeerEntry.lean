import DecentStore.Crypto
import DecentStore.Lib.Text

/-!
# Peer entries

`core/net/peer_endpoint_parse`. An entry is `host:port` or `tcp://host:port`, as a user types it.
The port is what `std::stoi` makes of the text after the last colon.
-/

namespace DecentStore

open Bytes

/-- The characters `trim_ws` takes off. -/
def isBlank (b : UInt8) : Bool := b == 32 || b == 9 || b == 13 || b == 10

def trimWs (s : Bytes) : Bytes := Text.trim isBlank s

/-- `tcp://`, its letters in any case. A shorter text has not six characters to compare. -/
def hasTcpPrefix (item : Bytes) : Bool :=
  (item.take 3).map toLower ++ (item.drop 3).take 3 == str "tcp://"

def stripTcpPrefix (item : Bytes) : Bytes :=
  if hasTcpPrefix item then trimWs (item.drop 6) else item

/-- The last steps, with the texts left and right of the colon trimmed. -/
def readHostPort (item host portStr : Bytes) : Except Exc PeerEndpoint :=
  if host = [] ∨ portStr = [] then
    .error (.runtimeError (str "Invalid peer entry (empty host or port): " ++ item))
  else match Crypto.stoi 10 portStr with
    | .ok port => .ok { ip := host, port := port }
    | .error _ => .error (.runtimeError (str "Invalid peer entry (bad port): " ++ portStr))

/-- What follows once the entry is trimmed and rid of its prefix. -/
def splitHostPort (item : Bytes) : Except Exc PeerEndpoint :=
  match Text.rfind 58 item with
  | none => .error (.runtimeError
      (str "Invalid peer entry (expected host:port or tcp://host:port): " ++ item))
  | some 0 => .error (.runtimeError
      (str "Invalid peer entry (expected host:port or tcp://host:port): " ++ item))
  | some colon => readHostPort item (trimWs (item.take colon)) (trimWs (item.drop (colon + 1)))

def parsePeerEntry (item : Bytes) : Except Exc PeerEndpoint :=
  splitHostPort (stripTcpPrefix (trimWs item))

end DecentStore
