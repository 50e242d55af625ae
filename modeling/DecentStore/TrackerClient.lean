import DecentStore.Crypto
import DecentStore.PeerClient

/-!
# The client of the tracker

`core/tracker/tracker_client`. A request is one line, and the reply is what comes until the tracker
closes the connection. A listing is read line by line: the client splits each at its first colon and
converts what follows. The rows of a repair are read as words, whatever the lines.
-/

namespace DecentStore

open Bytes Interaction

namespace TrackerClient

/-- The turns of `while (std::getline(in, line))`. -/
def getLines : Bytes → List Bytes
  | [] => []
  | b :: rest =>
      if b = newline then [] :: getLines rest
      else match getLines rest with
        | [] => [[b]]
        | line :: lines => (b :: line) :: lines

def requestLine (tracker : PeerEndpoint) (line : Bytes) : ClientProg Bytes := do
  let toSend := if line.getLast? = some newline then line else line ++ [newline]
  let sock ← PeerClient.exchange tracker toSend
  Prog.ofExcept (recvAllText sock)

/-- `find(':')`, and `stoi` of what follows. Without a colon there is no endpoint. -/
def splitEntry (ipPort : Bytes) : Except Exc (Option PeerEndpoint) :=
  match ipPort.dropWhile (· ≠ 58) with
  | [] => .ok none
  | _ :: port => do
      let port ← Crypto.stoi 10 port
      .ok (some ⟨ipPort.takeWhile (· ≠ 58), port⟩)

/-- The loop over the lines of a listing; `word` is the part of a line that is looked at. -/
def readListing (word : Bytes → Bytes) : List Bytes → Except Exc (List PeerEndpoint)
  | [] => .ok []
  | line :: lines =>
      if word line = [] then readListing word lines
      else do
        let ep ← splitEntry (word line)
        let eps ← readListing word lines
        .ok (ep.toList ++ eps)

/-- `l >> ipPort`. -/
def firstWord (line : Bytes) : Bytes := (IStream.getString ⟨line, false⟩ []).1

def getPeers (tracker : PeerEndpoint) : ClientProg (List PeerEndpoint) := do
  let resp ← requestLine tracker (str "GET_PEERS\n")
  Prog.ofExcept (readListing firstWord (getLines resp))

def whereChunk (tracker : PeerEndpoint) (chunkId : Bytes) : ClientProg (List PeerEndpoint) := do
  let resp ← requestLine tracker (str "WHERE " ++ chunkId ++ str "\n")
  Prog.ofExcept (readListing id (getLines resp))

/-- Whether it is heard or not. -/
def announceChunk (tracker : PeerEndpoint) (chunkId peerIp : Bytes) (peerPort : Int) :
    ClientProg Unit :=
  Prog.catching Exc.caught (do
    let _ ← requestLine tracker (str "ANNOUNCE " ++ chunkId ++ str " " ++ peerIp ++ str " " ++
      decimalInt peerPort ++ str "\n")
    pure ()) fun _ => pure ()

/-- `while (iss >> cid >> count)`. -/
def readRepair (iss : IStream) (cid : Bytes) (count : Int) : List Bytes :=
  let found := iss.getString cid
  let counted := found.2.getInt count
  if counted.2.failed then []
  else (if found.1 = [] then [] else [found.1]) ++ readRepair counted.2 found.1 counted.1
termination_by iss.rest.length
decreasing_by exact IStream.length_extract iss cid count (by assumption)

def needRepair (tracker : PeerEndpoint) (desired limit : Int) : ClientProg (List Bytes) := do
  let resp ← requestLine tracker (str "NEED_REPAIR " ++ decimalInt desired ++ str " " ++
    decimalInt limit ++ str "\n")
  pure (readRepair ⟨resp, false⟩ [] 0)

end TrackerClient

end DecentStore
