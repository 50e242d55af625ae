import DecentStore.Dht
import DecentStore.Proof.HexText

/-!
# Where a key is placed

The placement of a key is an initial piece of one list of the nodes, sorted by distance to the key,
so a client that asks for more replicas extends the list of one that asks for fewer. Every target is
a configured peer, and there is one as soon as some peer's node id is not the client's own.
-/

namespace DecentStore

open Bytes

theorem makeKeyId_eq (ssl : OpenSsl) (key : Bytes) :
    makeKeyId ssl key = .ok (idFromBytes (ssl.sha256 key)) := by
  rw [makeKeyId, hexToBytes, Crypto.sha256Hex, Crypto.fromHex_toHex]
  rfl

def nodeIdOf (ssl : OpenSsl) (peer : PeerEndpoint) : Id :=
  idFromBytes (ssl.sha256 (peer.ip ++ str ":" ++ decimalInt peer.port))

theorem makeNodeId_eq (ssl : OpenSsl) (peer : PeerEndpoint) :
    makeNodeId ssl peer = .ok (nodeIdOf ssl peer) :=
  makeKeyId_eq ssl _

def clientId (ssl : OpenSsl) : Id := idFromBytes (ssl.sha256 (str "client"))

/-- Some peer's id is not the client's own, so that a key has a target. -/
def Usable (ssl : OpenSsl) (peers : List PeerEndpoint) : Prop :=
  ∃ p ∈ peers, nodeIdOf ssl p ≠ clientId ssl

namespace RoutingTable

def addPeer (ssl : OpenSsl) (table : RoutingTable) (peer : PeerEndpoint) : RoutingTable :=
  table.addNode { id := nodeIdOf ssl peer, endpoint := peer }

theorem replaceNode_endpoints {node : NodeInfo} {nodes nodes' : List NodeInfo}
    (hreplace : replaceNode node nodes = some nodes') :
    nodes'.length = nodes.length ∧
      ∀ n ∈ nodes', n.endpoint = node.endpoint ∨ ∃ n' ∈ nodes, n'.endpoint = n.endpoint := by
  induction nodes generalizing nodes' with
  | nil => simp [replaceNode] at hreplace
  | cons n nodes ih =>
      unfold replaceNode at hreplace
      split at hreplace
      · cases hreplace
        refine ⟨rfl, fun x hx => ?_⟩
        rcases List.mem_cons.mp hx with rfl | hx
        · exact Or.inl rfl
        · exact Or.inr ⟨x, List.mem_cons_of_mem _ hx, rfl⟩
      · obtain ⟨rest, hrest, rfl⟩ := Option.map_eq_some_iff.mp hreplace
        obtain ⟨hlen, hmem⟩ := ih hrest
        refine ⟨by simp [hlen], fun x hx => ?_⟩
        rcases List.mem_cons.mp hx with rfl | hx
        · exact Or.inr ⟨x, List.mem_cons_self, rfl⟩
        · rcases hmem x hx with hnew | ⟨n', hn', heq⟩
          · exact Or.inl hnew
          · exact Or.inr ⟨n', List.mem_cons_of_mem _ hn', heq⟩

theorem addPeer_selfId (ssl : OpenSsl) (table : RoutingTable) (peer : PeerEndpoint) :
    (table.addPeer ssl peer).selfId = table.selfId := by
  unfold addPeer addNode
  split
  · rfl
  · split <;> rfl

/-- Adding a peer loses no node, and a new endpoint is the peer's. -/
theorem addPeer_nodes (ssl : OpenSsl) (table : RoutingTable) (peer : PeerEndpoint) :
    table.nodes.length ≤ (table.addPeer ssl peer).nodes.length ∧
      ∀ n ∈ (table.addPeer ssl peer).nodes,
        n.endpoint = peer ∨ ∃ n' ∈ table.nodes, n'.endpoint = n.endpoint := by
  unfold addPeer addNode
  split
  · exact ⟨le_refl _, fun n hn => Or.inr ⟨n, hn, rfl⟩⟩
  · split
    · rename_i nodes hreplace
      obtain ⟨hlen, hmem⟩ := replaceNode_endpoints hreplace
      exact ⟨hlen.ge, hmem⟩
    · refine ⟨by simp, fun n hn => ?_⟩
      rcases List.mem_append.mp hn with hold | hnew
      · exact Or.inr ⟨n, hold, rfl⟩
      · rw [List.mem_singleton.mp hnew]
        exact Or.inl rfl

theorem addPeer_ne_nil (ssl : OpenSsl) {table : RoutingTable} {peer : PeerEndpoint}
    (hpeer : nodeIdOf ssl peer ≠ table.selfId) : (table.addPeer ssl peer).nodes ≠ [] := by
  unfold addPeer addNode
  rw [if_neg hpeer]
  split
  · rename_i nodes hreplace
    rintro rfl
    cases hnodes : table.nodes with
    | nil => simp [hnodes, replaceNode] at hreplace
    | cons n rest =>
        have hlen := (replaceNode_endpoints hreplace).1
        simp [hnodes] at hlen
  · simp

end RoutingTable

namespace DhtNode

variable (ssl : OpenSsl)

def tableOf (peers : List PeerEndpoint) : RoutingTable :=
  peers.foldl (RoutingTable.addPeer ssl) { selfId := clientId ssl }

theorem addPeers_eq (table : RoutingTable) (peers : List PeerEndpoint) :
    addPeers ssl table peers = .ok (peers.foldl (RoutingTable.addPeer ssl) table) := by
  induction peers generalizing table with
  | nil => rfl
  | cons p peers ih =>
      rw [addPeers, makeNodeId_eq]
      exact ih _

theorem ofPeers_eq (peers : List PeerEndpoint) : ofPeers ssl peers = .ok ⟨tableOf ssl peers⟩ := by
  rw [ofPeers, makeKeyId_eq]
  simp only [Bind.bind, Except.bind, addPeers_eq]
  rfl

theorem foldl_addPeer_nodes (peers : List PeerEndpoint) (table : RoutingTable) :
    table.nodes.length ≤ (peers.foldl (RoutingTable.addPeer ssl) table).nodes.length ∧
      ∀ n ∈ (peers.foldl (RoutingTable.addPeer ssl) table).nodes,
        n.endpoint ∈ peers ∨ ∃ n' ∈ table.nodes, n'.endpoint = n.endpoint := by
  induction peers generalizing table with
  | nil => exact ⟨le_refl _, fun n hn => Or.inr ⟨n, hn, rfl⟩⟩
  | cons p peers ih =>
      obtain ⟨hgrow, hadd⟩ := RoutingTable.addPeer_nodes ssl table p
      obtain ⟨hle, hrest⟩ := ih (table.addPeer ssl p)
      refine ⟨hgrow.trans hle, ?_⟩
      intro n hn
      rcases hrest n hn with hmem | ⟨n', hn', heq⟩
      · exact Or.inl (List.mem_cons_of_mem p hmem)
      · rcases hadd n' hn' with hnew | ⟨n'', hn'', heq'⟩
        · exact Or.inl (List.mem_cons.mpr (Or.inl (heq.symm.trans hnew)))
        · exact Or.inr ⟨n'', hn'', heq'.trans heq⟩

theorem foldl_addPeer_ne_nil {peers : List PeerEndpoint} {table : RoutingTable}
    (hself : table.selfId = clientId ssl)
    (hpeer : Usable ssl peers) :
    (peers.foldl (RoutingTable.addPeer ssl) table).nodes ≠ [] := by
  induction peers generalizing table with
  | nil =>
      obtain ⟨p, hp, -⟩ := hpeer
      exact absurd hp List.not_mem_nil
  | cons p peers ih =>
      by_cases hfirst : nodeIdOf ssl p = clientId ssl
      · obtain ⟨q, hq, hne⟩ := hpeer
        rcases List.mem_cons.mp hq with rfl | hq
        · exact absurd hfirst hne
        · exact ih ((RoutingTable.addPeer_selfId ssl table p).trans hself) ⟨q, hq, hne⟩
      · have hone := RoutingTable.addPeer_ne_nil ssl (hself ▸ hfirst)
        have hgrow := (foldl_addPeer_nodes ssl peers (table.addPeer ssl p)).1
        have hpos := List.length_pos_iff.mpr hone
        exact List.length_pos_iff.mp (lt_of_lt_of_le hpos hgrow)

def ranked (peers : List PeerEndpoint) (key : Bytes) : List PeerEndpoint :=
  (((tableOf ssl peers).nodes.insertionSort fun a b =>
    ¬ closerTo b.id a.id (idFromBytes (ssl.sha256 key))).map NodeInfo.endpoint)

/-- How many targets a client gets that asks for so many replicas. -/
def reach (peers : List PeerEndpoint) (replicas : Int) : Nat :=
  min (if replicas ≤ 0 then 1 else replicas).toNat (tableOf ssl peers).nodes.length

/-- **Placement.** The targets are an initial piece of the ranked peers. -/
theorem store_eq (peers : List PeerEndpoint) (key : Bytes) (replicas : Int) :
    store ssl ⟨tableOf ssl peers⟩ key replicas =
      .ok ((ranked ssl peers key).take (reach ssl peers replicas)) := by
  unfold store
  by_cases hnil : (tableOf ssl peers).nodes = []
  · simp [hnil, reach]
  · simp only [if_neg hnil, makeKeyId_eq, Bind.bind, Except.bind, RoutingTable.closestNodes, ranked,
      reach, List.map_take]

theorem length_ranked (peers : List PeerEndpoint) (key : Bytes) :
    (ranked ssl peers key).length = (tableOf ssl peers).nodes.length := by
  simp [ranked]

theorem ranked_subset (peers : List PeerEndpoint) (key : Bytes) :
    ranked ssl peers key ⊆ peers := by
  intro p hp
  obtain ⟨n, hn, rfl⟩ := List.mem_map.mp hp
  have hnode := (List.perm_insertionSort _ _).subset hn
  rcases (foldl_addPeer_nodes ssl peers _).2 n hnode with hmem | ⟨n', hn', -⟩
  · exact hmem
  · exact absurd hn' List.not_mem_nil

variable {ssl} {peers : List PeerEndpoint}

theorem tableOf_ne_nil (hpeer : Usable ssl peers) :
    (tableOf ssl peers).nodes ≠ [] :=
  foldl_addPeer_ne_nil ssl rfl hpeer

/-- A peer with the client's own id is left out. -/
theorem tableOf_eq_nil (hnot : ¬ Usable ssl peers) : (tableOf ssl peers).nodes = [] := by
  suffices hgen : ∀ table : RoutingTable, table.selfId = clientId ssl → table.nodes = [] →
      (peers.foldl (RoutingTable.addPeer ssl) table).nodes = [] from
    hgen { selfId := clientId ssl } rfl rfl
  intro table hself hnil
  have hall : ∀ p ∈ peers, nodeIdOf ssl p = clientId ssl := fun p hp => by
    by_contra hne
    exact hnot ⟨p, hp, hne⟩
  clear hnot
  induction peers generalizing table with
  | nil => exact hnil
  | cons p peers ih =>
      have hsame : table.addPeer ssl p = table := by
        rw [RoutingTable.addPeer, RoutingTable.addNode, if_pos]
        exact (hall p List.mem_cons_self).trans hself.symm
      rw [List.foldl_cons, hsame]
      exact ih table hself hnil fun q hq => hall q (List.mem_cons_of_mem p hq)

theorem reach_pos (hpeer : Usable ssl peers) (replicas : Int) :
    0 < reach ssl peers replicas := by
  have hpos := List.length_pos_iff.mpr (tableOf_ne_nil hpeer)
  unfold reach
  split <;> omega

theorem exists_target (hpeer : Usable ssl peers) (key : Bytes)
    (replicas : Int) : ∃ p, p ∈ (ranked ssl peers key).take (reach ssl peers replicas) := by
  have hlen : 0 < ((ranked ssl peers key).take (reach ssl peers replicas)).length := by
    rw [List.length_take, length_ranked]
    exact lt_min (reach_pos hpeer replicas) (List.length_pos_iff.mpr (tableOf_ne_nil hpeer))
  exact List.exists_mem_of_length_pos hlen

end DhtNode

end DecentStore
