import DecentStore.Lib.AssocList
import DecentStore.Lib.IStream
import DecentStore.Net
import DecentStore.Storage

/-!
# The tracker

`tracker/main.cpp`, one connection of the accept loop: one line is read and the reply is the text
sent before the connection is closed. Times are readings of the steady clock in nanoseconds. The
clock goes on between two readings of one request, so a request that reads it twice has a reading of
its own and a later one, that of `prune_stale_and_cleanup`.

The three unordered containers are walked in an arbitrary order.
-/

namespace DecentStore

open Bytes

structure PeerInfo where
  lastSeen : Int

/-- A set of `ip:port`. -/
abbrev Locations := AList fun _ : Bytes => Unit

structure Tracker where
  peers : AList fun _ : Bytes => PeerInfo := ∅
  chunkIndex : AList fun _ : Bytes => Locations := ∅

structure TrackerOrders where
  peers : WalkOrder (Σ _ : Bytes, PeerInfo)
  chunkIndex : WalkOrder (Σ _ : Bytes, Locations)
  locations : WalkOrder Bytes
deriving Inhabited

namespace Tracker

/-- 30 seconds. -/
def ttl : Int := 30 * 1000000000

def stale (now : Int) (info : PeerInfo) : Bool := ttl < now - info.lastSeen

/-- The loop of `prune_stale` and of the handler of `GET_PEERS`. -/
def pruneStale (now : Int) (s : Tracker) : Tracker :=
  { s with peers := s.peers.keep fun entry => !stale now entry.2 }

/-- `for (const auto& d : dead) locs.erase(d)`. -/
def eraseAll (dead : List Bytes) (locs : Locations) : Locations :=
  dead.foldl (fun locs d => locs.erase d) locs

def pruneStaleAndCleanup (now : Int) (s : Tracker) : Tracker :=
  let dead := (s.peers.keep fun entry => stale now entry.2).keys
  let s := s.pruneStale now
  if dead = [] then s
  else
    let chunkIndex := s.chunkIndex.mapValues fun _ locs => eraseAll dead locs
    { s with chunkIndex := chunkIndex.keep fun kv => !kv.2.entries.isEmpty }

/-- `ip + ":" + std::to_string(p)`. -/
def entryOf (ip : Bytes) (p : Int) : Bytes := ip ++ str ":" ++ decimalInt p

def ok : Bytes := str "OK\n"

/-- The lines of a reply; an empty one where there is none. -/
def listing (lines : List Bytes) : Bytes :=
  let out := lines.flatMap (· ++ str "\n")
  if out = [] then str "\n" else out

/-- `REGISTER` and `HEARTBEAT`, which differ in what they answer to a malformed line. -/
def keepAlive (usage : Bytes) (now : Int) (iss : IStream) (s : Tracker) : Bytes × Tracker :=
  let (ip, iss) := iss.getString []
  let (p, _) := iss.getInt 0
  if ip = [] ∨ p ≤ 0 ∨ 65535 < p then (usage, s)
  else (ok, { s with peers := s.peers.insert (entryOf ip p) ⟨now⟩ })

def register : Int → IStream → Tracker → Bytes × Tracker :=
  keepAlive (str "ERR invalid REGISTER. Use: REGISTER <ip> <port>\n")

def heartbeat : Int → IStream → Tracker → Bytes × Tracker :=
  keepAlive (str "ERR invalid HEARTBEAT. Use: HEARTBEAT <ip> <port>\n")

/-- `chunk_index[chunk_id].insert(entry)`. -/
def addLocation (chunkId entry : Bytes) (s : Tracker) : Tracker :=
  let locs := (s.chunkIndex.lookup chunkId).getD ∅
  { s with chunkIndex := s.chunkIndex.insert chunkId (locs.insert entry ()) }

/-- Whether the peer is alive makes a difference for the log only. -/
def announce (iss : IStream) (s : Tracker) : Bytes × Tracker :=
  let (chunkId, iss) := iss.getString []
  let (ip, iss) := iss.getString []
  let (p, _) := iss.getInt 0
  if chunkId = [] ∨ ip = [] ∨ p ≤ 0 ∨ 65535 < p then
    (str "ERR invalid ANNOUNCE. Use: ANNOUNCE <chunk_id> <ip> <port>\n", s)
  else (ok, s.addLocation chunkId (entryOf ip p))

/-- `pit != peers.end() && (now - pit->second.last_seen <= TTL)`. -/
def alive (now : Int) (s : Tracker) (entry : Bytes) : Bool :=
  match s.peers.lookup entry with
  | none => false
  | some info => now - info.lastSeen ≤ ttl

def whereChunk (o : TrackerOrders) (now : Int) (iss : IStream) (s : Tracker) : Bytes × Tracker :=
  let (chunkId, _) := iss.getString []
  if chunkId = [] then (str "ERR invalid WHERE. Use: WHERE <chunk_id>\n", s)
  else match s.chunkIndex.lookup chunkId with
    | none => (listing [], s)
    | some locs => (listing ((o.locations.order locs.keys).filter (alive now s)), s)

/-- The locations of a chunk that are in `peers`. The code counts them in an `int`, which has room
for fewer than `2 ^ 31`. -/
def aliveCount (s : Tracker) (locs : Locations) : Nat :=
  (locs.keys.filter fun entry => (s.peers.lookup entry).isSome).length

/-- The loop over the chunks, up to the row that reaches the limit. -/
def repairRows (s : Tracker) (desired limit : Int) :
    Int → List (Σ _ : Bytes, Locations) → List (Bytes × Nat)
  | _, [] => []
  | sent, kv :: rest =>
      let count := s.aliveCount kv.2
      if 0 < count ∧ count < desired then
        if limit ≤ sent + 1 then [(kv.1, count)]
        else (kv.1, count) :: repairRows s desired limit (sent + 1) rest
      else repairRows s desired limit sent rest

def repairLine (row : Bytes × Nat) : Bytes := row.1 ++ str " " ++ decimal row.2

def needRepair (o : TrackerOrders) (later : Int) (iss : IStream) (s : Tracker) :
    Bytes × Tracker :=
  let (desired, iss) := iss.getInt 0
  let (limit, _) := iss.getInt 0
  let desired := if desired ≤ 0 then 2 else desired
  let limit := if limit ≤ 0 then 50 else limit
  let s := s.pruneStaleAndCleanup later
  let rows := repairRows s desired limit 0 (o.chunkIndex.order s.chunkIndex.entries)
  (listing (rows.map repairLine), s)

def getPeers (o : TrackerOrders) (now later : Int) (s : Tracker) : Bytes × Tracker :=
  let s := (s.pruneStaleAndCleanup later).pruneStale now
  (listing ((o.peers.order s.peers.entries).map (·.1)), s)

/-- One line and its reply. -/
def answer (o : TrackerOrders) (now later : Int) (line : Bytes) (s : Tracker) : Bytes × Tracker :=
  let (cmd, iss) := IStream.getString ⟨line, false⟩ []
  if cmd = str "REGISTER" then register now iss s
  else if cmd = str "HEARTBEAT" then heartbeat now iss s
  else if cmd = str "ANNOUNCE" then announce iss s
  else if cmd = str "WHERE" then whereChunk o now iss s
  else if cmd = str "NEED_REPAIR" then needRepair o later iss s
  else if cmd = str "GET_PEERS" then getPeers o now later s
  else (str "ERR unknown command\n", s)

/-- One connection. A line that cannot be read is not answered. -/
def serve (o : TrackerOrders) (now later : Int) (sock : Socket) (s : Tracker) : Bytes × Tracker :=
  match recvLine sock with
  | (none, _) => ([], s)
  | (some line, _) => answer o now later line s

/-! ### Runs -/

/-- A connection, and what the tracker meets while it serves it. -/
structure Turn where
  orders : TrackerOrders := default
  now : Int
  later : Int
  sock : Socket

def turn (s : Tracker) (c : Turn) : Tracker := (s.serve c.orders c.now c.later c.sock).2

/-- The tracker after a history of connections. -/
def run (history : List Turn) : Tracker := history.foldl turn {}

/-- The clock does not go back, and is not past `t` in the end. -/
def Timed (history : List Turn) (t : Int) : Prop :=
  ((history.flatMap fun c => [c.now, c.later]) ++ [t]).Pairwise (· ≤ ·)

end Tracker

end DecentStore
