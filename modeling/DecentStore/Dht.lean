import DecentStore.Crypto
import Mathlib.Data.List.Sort

/-!
# Placement

`core/dht`. Every configured peer is a node, named by the first 20 bytes of a digest, and a key is
placed on the nodes nearest to it by XOR distance. There are no messages: each client computes the
placement from its own list of peers.
-/

namespace DecentStore

open Bytes

/-- `std::array<std::uint8_t, 20>`. -/
abbrev Id := { bytes : Bytes // bytes.length = 20 }

/-- Same as `from_hex` of `core/crypto`. -/
def hexToBytes (hex : Bytes) : Except Exc Bytes := Crypto.fromHex hex

def idFromBytes (bytes : Bytes) : Id :=
  ⟨(bytes ++ List.replicate 20 0).take 20, by simp⟩

def makeKeyId (ssl : OpenSsl) (key : Bytes) : Except Exc Id := do
  let bytes ← hexToBytes (Crypto.sha256Hex ssl key)
  .ok (idFromBytes bytes)

def makeNodeId (ssl : OpenSsl) (peer : PeerEndpoint) : Except Exc Id :=
  makeKeyId ssl (peer.ip ++ str ":" ++ decimalInt peer.port)

/-- Same as `to_hex` of `core/crypto`. -/
def bytesToHex (data : Bytes) : Bytes := Crypto.toHex data

namespace Id

def toHex (id : Id) : Bytes := bytesToHex id.1

def fromHex (hex : Bytes) : Except Exc Id := do
  let bytes ← hexToBytes hex
  .ok (idFromBytes bytes)

end Id

def xorDistance (a b : Id) : Bytes := List.zipWith (· ^^^ ·) a.1 b.1

/-- `da < db`, lexicographically. -/
def closerTo (a b target : Id) : Bool := xorDistance a target < xorDistance b target

structure NodeInfo where
  id : Id
  endpoint : PeerEndpoint

structure RoutingTable where
  selfId : Id
  nodes : List NodeInfo := []

namespace RoutingTable

/-- The first entry with the node's id, if any, gets the node's endpoint. -/
def replaceNode (node : NodeInfo) : List NodeInfo → Option (List NodeInfo)
  | [] => none
  | n :: nodes =>
      if n.id = node.id then some ({ n with endpoint := node.endpoint } :: nodes)
      else (replaceNode node nodes).map (n :: ·)

def addNode (table : RoutingTable) (node : NodeInfo) : RoutingTable :=
  if node.id = table.selfId then table
  else match replaceNode node table.nodes with
    | some nodes => { table with nodes := nodes }
    | none => { table with nodes := table.nodes ++ [node] }

/-- The ids in a table are distinct, so the order is strict and any sort gives the same list. -/
def closestNodes (table : RoutingTable) (target : Id) (k : Nat) : List NodeInfo :=
  (table.nodes.insertionSort fun a b => ¬ closerTo b.id a.id target).take k

end RoutingTable

structure DhtNode where
  table : RoutingTable

namespace DhtNode

def addPeers (ssl : OpenSsl) : RoutingTable → List PeerEndpoint → Except Exc RoutingTable
  | table, [] => .ok table
  | table, p :: peers => do
      let id ← makeNodeId ssl p
      addPeers ssl (table.addNode { id := id, endpoint := p }) peers

/-- The constructor. -/
def ofPeers (ssl : OpenSsl) (peers : List PeerEndpoint) : Except Exc DhtNode := do
  let selfId ← makeKeyId ssl (str "client")
  let table ← addPeers ssl { selfId := selfId } peers
  .ok { table := table }

def store (ssl : OpenSsl) (dht : DhtNode) (key : Bytes) (replicas : Int) :
    Except Exc (List PeerEndpoint) :=
  let replicas := if replicas ≤ 0 then 1 else replicas
  if dht.table.nodes = [] then .ok []
  else do
    let keyId ← makeKeyId ssl key
    .ok ((dht.table.closestNodes keyId (min replicas.toNat dht.table.nodes.length)).map
      NodeInfo.endpoint)

/-- Placement is deterministic, so a value is looked for where it was stored. -/
def findValue (ssl : OpenSsl) (dht : DhtNode) (key : Bytes) (replicas : Int) :
    Except Exc (List PeerEndpoint) := store ssl dht key replicas

end DhtNode

end DecentStore
