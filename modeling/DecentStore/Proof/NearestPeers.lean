import DecentStore.Lib.Nearest
import DecentStore.Proof.Placement
import DecentStore.Proof.TableSsl

/-!
# Which peers a key is placed on

A routing table has each node id once, and XOR with a key keeps ids apart, so the order of the
distances is total and how the table is sorted does not matter. Where the peers' ids differ from
each other and from the client's, a key is placed on the nearest of the peers: which peers a client
has decides, not how it lists them.
-/

namespace DecentStore

open Bytes

section

/-- Bytes compare as numbers. -/
local instance linearOrderByte : LinearOrder UInt8 where
  le_refl := UInt8.le_refl
  le_trans _ _ _ := UInt8.le_trans
  lt_iff_le_not_ge a b := by
    rw [UInt8.lt_iff_le_and_ne]
    grind
  le_antisymm _ _ := UInt8.le_antisymm
  le_total := UInt8.le_total
  toDecidableLE := inferInstance

theorem xorDistance_injective (target : Id) : Function.Injective (xorDistance · target) := by
  suffices hgen : ∀ a b t : Bytes, a.length = t.length → b.length = t.length →
      List.zipWith (· ^^^ ·) a t = List.zipWith (· ^^^ ·) b t → a = b from
    fun a b hab => Subtype.ext
      (hgen a.1 b.1 target.1 (a.2.trans target.2.symm) (b.2.trans target.2.symm) hab)
  intro a b t ha hb hab
  induction t generalizing a b with
  | nil => rw [List.eq_nil_of_length_eq_zero ha, List.eq_nil_of_length_eq_zero hb]
  | cons x t ih =>
      obtain ⟨y, a, rfl⟩ := List.exists_cons_of_length_eq_add_one ha
      obtain ⟨z, b, rfl⟩ := List.exists_cons_of_length_eq_add_one hb
      simp only [List.zipWith_cons_cons, List.cons.injEq] at hab
      rw [(UInt8.xor_left_inj x).mp hab.1, ih a b (by simpa using ha) (by simpa using hb) hab.2]

namespace RoutingTable

theorem replaceNode_ids {node : NodeInfo} {nodes nodes' : List NodeInfo}
    (hreplace : replaceNode node nodes = some nodes') :
    nodes'.map NodeInfo.id = nodes.map NodeInfo.id := by
  induction nodes generalizing nodes' with
  | nil => cases hreplace
  | cons n nodes ih =>
      unfold replaceNode at hreplace
      split at hreplace
      · cases hreplace
        rfl
      · obtain ⟨rest, hrest, rfl⟩ := Option.map_eq_some_iff.mp hreplace
        rw [List.map_cons, List.map_cons, ih hrest]

theorem replaceNode_eq_none {node : NodeInfo} {nodes : List NodeInfo}
    (hreplace : replaceNode node nodes = none) : node.id ∉ nodes.map NodeInfo.id := by
  induction nodes with
  | nil => exact List.not_mem_nil
  | cons n nodes ih =>
      unfold replaceNode at hreplace
      split at hreplace
      · cases hreplace
      · rename_i hother
        rw [List.map_cons, List.mem_cons, not_or]
        exact ⟨Ne.symm hother, ih (Option.map_eq_none_iff.mp hreplace)⟩

theorem addNode_ids_nodup {table : RoutingTable} (hnodup : (table.nodes.map NodeInfo.id).Nodup)
    (node : NodeInfo) : ((table.addNode node).nodes.map NodeInfo.id).Nodup := by
  unfold addNode
  split
  · exact hnodup
  · split
    · rename_i nodes hreplace
      rwa [replaceNode_ids hreplace]
    · rename_i hreplace
      rw [List.map_append, List.nodup_append]
      refine ⟨hnodup, List.nodup_singleton _, fun a ha b hb hab => ?_⟩
      rw [List.map_singleton, List.mem_singleton] at hb
      exact replaceNode_eq_none hreplace (hb ▸ hab ▸ ha)

theorem closestNodes_eq_ranked (table : RoutingTable) (target : Id) (k : Nat) :
    table.closestNodes target k =
      (Nearest.ranked (fun n => xorDistance n.id target) table.nodes).take k := by
  simp only [closestNodes, Nearest.ranked, closerTo, decide_eq_true_eq, not_lt]

theorem separates_ids {nodes : List NodeInfo} (hnodup : (nodes.map NodeInfo.id).Nodup)
    (target : Id) : Nearest.Separates (fun n => xorDistance n.id target) nodes :=
  fun _ ha _ hb hab => List.inj_on_of_nodup_map hnodup ha hb (xorDistance_injective target hab)

/-- **However a table is sorted**, the first of its nodes are the closest ones. -/
theorem closestNodes_of_sorted {table : RoutingTable}
    (hnodup : (table.nodes.map NodeInfo.id).Nodup) (target : Id) (k : Nat) {sorted : List NodeInfo}
    (hperm : sorted.Perm table.nodes)
    (hsorted : sorted.Pairwise fun a b => closerTo b.id a.id target = false) :
    sorted.take k = table.closestNodes target k := by
  rw [closestNodes_eq_ranked]
  rw [Nearest.ranked_unique (separates_ids hnodup target) hperm]
  refine hsorted.imp fun hnot => ?_
  simpa [closerTo] using hnot

end RoutingTable

/-- The peers' node ids differ from each other and from the client's. -/
structure DistinctIds (ssl : OpenSsl) (peers : List PeerEndpoint) : Prop where
  injective : ∀ p ∈ peers, ∀ q ∈ peers, makeNodeId ssl p = makeNodeId ssl q → p = q
  not_client : ∀ p ∈ peers, makeNodeId ssl p ≠ makeKeyId ssl (str "client")

def distance (ssl : OpenSsl) (key : Bytes) (peer : PeerEndpoint) : Bytes :=
  xorDistance (nodeIdOf ssl peer) (idFromBytes (ssl.sha256 key))

def Closer (ssl : OpenSsl) (key : Bytes) (p q : PeerEndpoint) : Prop :=
  ∃ pId qId keyId, makeNodeId ssl p = .ok pId ∧ makeNodeId ssl q = .ok qId ∧
    makeKeyId ssl key = .ok keyId ∧ closerTo pId qId keyId = true

theorem closer_iff_distance {ssl : OpenSsl} {key : Bytes} {p q : PeerEndpoint} :
    Closer ssl key p q ↔ distance ssl key p < distance ssl key q := by
  simp [Closer, makeNodeId_eq, makeKeyId_eq, closerTo, distance]

namespace DistinctIds

variable {ssl : OpenSsl} {peers : List PeerEndpoint}

theorem eq_of_id (hids : DistinctIds ssl peers) {p q : PeerEndpoint} (hp : p ∈ peers)
    (hq : q ∈ peers) (hpq : nodeIdOf ssl p = nodeIdOf ssl q) : p = q :=
  hids.injective p hp q hq (by rw [makeNodeId_eq, makeNodeId_eq, hpq])

theorem id_ne_client (hids : DistinctIds ssl peers) {p : PeerEndpoint} (hp : p ∈ peers) :
    nodeIdOf ssl p ≠ clientId ssl := fun hsame =>
  hids.not_client p hp (by rw [makeNodeId_eq, makeKeyId_eq, hsame]; rfl)

theorem of_mem_iff (hids : DistinctIds ssl peers) {peers' : List PeerEndpoint}
    (hmem : ∀ p, p ∈ peers' ↔ p ∈ peers) : DistinctIds ssl peers' where
  injective p hp q hq := hids.injective p ((hmem p).mp hp) q ((hmem q).mp hq)
  not_client p hp := hids.not_client p ((hmem p).mp hp)

theorem separates (hids : DistinctIds ssl peers) (key : Bytes) :
    Nearest.Separates (distance ssl key) peers := fun _ hp _ hq hpq =>
  hids.eq_of_id hp hq (xorDistance_injective _ hpq)

theorem separates_dedup (hids : DistinctIds ssl peers) (key : Bytes) :
    Nearest.Separates (distance ssl key) peers.dedup := fun p hp q hq =>
  hids.separates key p (List.mem_dedup.mp hp) q (List.mem_dedup.mp hq)

end DistinctIds

namespace DhtNode

variable {ssl : OpenSsl}

/-- Each of these peers has one node in the table, under its own id. -/
structure Lists (ssl : OpenSsl) (nodes : List NodeInfo) (seen : List PeerEndpoint) : Prop where
  ids : ∀ n ∈ nodes, n.id = nodeIdOf ssl n.endpoint
  nodup : (nodes.map NodeInfo.endpoint).Nodup
  mem : ∀ p, p ∈ nodes.map NodeInfo.endpoint ↔ p ∈ seen

theorem replaceNode_listed {nodes nodes' : List NodeInfo} {p : PeerEndpoint}
    (hsame : ∀ n ∈ nodes, n.id = nodeIdOf ssl p → n.endpoint = p)
    (hreplace : RoutingTable.replaceNode ⟨nodeIdOf ssl p, p⟩ nodes = some nodes') :
    nodes' = nodes ∧ p ∈ nodes.map NodeInfo.endpoint := by
  induction nodes generalizing nodes' with
  | nil => cases hreplace
  | cons n nodes ih =>
      unfold RoutingTable.replaceNode at hreplace
      split at hreplace
      · rename_i hid
        cases hreplace
        have hpeer := hsame n List.mem_cons_self hid
        refine ⟨?_, by rw [List.map_cons, hpeer]; exact List.mem_cons_self⟩
        cases n
        cases hpeer
        rfl
      · obtain ⟨rest, hrest, rfl⟩ := Option.map_eq_some_iff.mp hreplace
        obtain ⟨rfl, hmem⟩ := ih (fun m hm => hsame m (List.mem_cons_of_mem n hm)) hrest
        exact ⟨rfl, List.mem_cons_of_mem _ hmem⟩

theorem Lists.addPeer {table : RoutingTable} {seen : List PeerEndpoint} {p : PeerEndpoint}
    (hlists : Lists ssl table.nodes seen) (hself : nodeIdOf ssl p ≠ table.selfId)
    (hinj : ∀ q ∈ seen, nodeIdOf ssl q = nodeIdOf ssl p → q = p) :
    Lists ssl (table.addPeer ssl p).nodes (p :: seen) := by
  have hsame : ∀ n ∈ table.nodes, n.id = nodeIdOf ssl p → n.endpoint = p := fun n hn hid =>
    hinj _ ((hlists.mem _).mp (List.mem_map_of_mem hn)) ((hlists.ids n hn).symm.trans hid)
  unfold RoutingTable.addPeer RoutingTable.addNode
  rw [if_neg hself]
  split
  · rename_i nodes hreplace
    obtain ⟨rfl, hmem⟩ := replaceNode_listed hsame hreplace
    refine ⟨hlists.ids, hlists.nodup, fun q => ?_⟩
    rw [hlists.mem, List.mem_cons]
    exact ⟨Or.inr, fun hq => hq.elim (fun hqp => hqp ▸ (hlists.mem p).mp hmem) id⟩
  · rename_i hreplace
    have hnew := RoutingTable.replaceNode_eq_none hreplace
    refine ⟨fun n hn => ?_, ?_, fun q => ?_⟩
    · rcases List.mem_append.mp hn with hn | hn
      · exact hlists.ids n hn
      · rw [List.mem_singleton.mp hn]
    · rw [List.map_append, List.nodup_append]
      refine ⟨hlists.nodup, List.nodup_singleton _, fun a ha b hb hab => ?_⟩
      rw [List.map_singleton, List.mem_singleton] at hb
      obtain ⟨n, hn, rfl⟩ := List.mem_map.mp ha
      exact hnew (List.mem_map.mpr ⟨n, hn, by rw [hlists.ids n hn, hab, hb]⟩)
    · rw [List.map_append, List.mem_append, hlists.mem, List.map_singleton, List.mem_singleton,
        List.mem_cons, or_comm]

theorem lists_foldl {peers seen : List PeerEndpoint} {table : RoutingTable}
    (hlists : Lists ssl table.nodes seen) (hself : table.selfId = clientId ssl)
    (hids : DistinctIds ssl (peers ++ seen)) :
    Lists ssl (peers.foldl (RoutingTable.addPeer ssl) table).nodes (peers.reverse ++ seen) := by
  induction peers generalizing seen table with
  | nil => exact hlists
  | cons p peers ih =>
      have hp : p ∈ (p :: peers) ++ seen := List.mem_cons_self
      have hadd := hlists.addPeer (p := p) (hself ▸ hids.id_ne_client hp) fun q hq hqp =>
        hids.eq_of_id (List.mem_append_right _ hq) hp hqp
      rw [List.foldl_cons, List.reverse_cons, List.append_assoc]
      refine ih hadd ((RoutingTable.addPeer_selfId ssl table p).trans hself) ?_
      exact hids.of_mem_iff fun q => by simp [or_left_comm]

/-- **The table of a client lists its peers**, each once. -/
theorem lists_tableOf {peers : List PeerEndpoint} (hids : DistinctIds ssl peers) :
    Lists ssl (tableOf ssl peers).nodes peers := by
  have hempty : Lists ssl ([] : List NodeInfo) [] := ⟨by simp, by simp, by simp⟩
  have hall := @lists_foldl ssl peers [] { selfId := clientId ssl } hempty rfl
    (hids.of_mem_iff fun p => by simp)
  exact ⟨hall.ids, hall.nodup, fun p => by rw [tableOf, hall.mem]; simp⟩

variable {peers : List PeerEndpoint}

theorem length_tableOf (hids : DistinctIds ssl peers) :
    (tableOf ssl peers).nodes.length = peers.dedup.length := by
  have hlists := lists_tableOf hids
  have hperm : ((tableOf ssl peers).nodes.map NodeInfo.endpoint).Perm peers.dedup :=
    (List.perm_ext_iff_of_nodup hlists.nodup peers.nodup_dedup).mpr fun p => by
      rw [hlists.mem, List.mem_dedup]
  calc (tableOf ssl peers).nodes.length
      = ((tableOf ssl peers).nodes.map NodeInfo.endpoint).length := (List.length_map _).symm
    _ = peers.dedup.length := hperm.length_eq

theorem ranked_eq (hids : DistinctIds ssl peers) (key : Bytes) :
    ranked ssl peers key = Nearest.ranked (distance ssl key) peers.dedup := by
  have hlists := lists_tableOf hids
  rw [ranked, List.map_insertionSort _ (fun p q => distance ssl key p ≤ distance ssl key q)]
  · exact Nearest.ranked_congr (hids.separates_dedup key) peers.nodup_dedup hlists.nodup fun p => by
      rw [hlists.mem, List.mem_dedup]
  · intro a ha b hb
    simp [closerTo, distance, hlists.ids a ha, hlists.ids b hb]

theorem reach_eq (hids : DistinctIds ssl peers) (replicas : Int) :
    reach ssl peers replicas = min (max replicas 1).toNat peers.dedup.length := by
  rw [reach, length_tableOf hids]
  split <;> congr 1 <;> omega

/-- **The nearest of the peers.** There are as many of them as asked for, if there are so many
peers; none is there twice; they come in the order of their distance to the key, and every peer that
is not among them is farther away. -/
structure NearestPeers (ssl : OpenSsl) (peers : List PeerEndpoint) (key : Bytes) (replicas : Int)
    (targets : List PeerEndpoint) : Prop where
  length : targets.length = min (max replicas 1).toNat peers.dedup.length
  subset : targets ⊆ peers
  nodup : targets.Nodup
  sorted : targets.Pairwise (Closer ssl key)
  closer : ∀ p ∈ targets, ∀ q ∈ peers, q ∉ targets → Closer ssl key p q

theorem take_ranked_nearest (hids : DistinctIds ssl peers) (key : Bytes) (replicas : Int) :
    NearestPeers ssl peers key replicas
      ((ranked ssl peers key).take (reach ssl peers replicas)) := by
  rw [ranked_eq hids, reach_eq hids]
  refine ⟨?_, fun p hp => ?_, ?_, ?_, fun p hp q hq hout => ?_⟩
  · rw [List.length_take, Nearest.length_ranked]
    omega
  · exact List.mem_dedup.mp (Nearest.mem_ranked.mp (List.mem_of_mem_take hp))
  · exact (Nearest.nodup_ranked peers.nodup_dedup).take
  · have hsorted := Nearest.ranked_pairwise_lt (hids.separates_dedup key) peers.nodup_dedup
    exact hsorted.take.imp closer_iff_distance.mpr
  · refine closer_iff_distance.mpr ?_
    exact Nearest.lt_of_left_out (hids.separates_dedup key) peers.nodup_dedup hp
      (List.mem_dedup.mpr hq) hout

/-- **Placement is a function of the peer set.** -/
theorem placement_of_peer_set {ssl : OpenSsl} {peers peers' : List PeerEndpoint}
    (hids : DistinctIds ssl peers) (hsame : ∀ p, p ∈ peers' ↔ p ∈ peers) (key : Bytes)
    (replicas : Int) :
    ∃ targets, NearestPeers ssl peers key replicas targets ∧ ∀ list ∈ [peers, peers'],
      ∃ dht, ofPeers ssl list = .ok dht ∧ dht.store ssl key replicas = .ok targets ∧
        dht.findValue ssl key replicas = .ok targets := by
  have hids' := hids.of_mem_iff hsame
  have hdedup : peers'.dedup.Perm peers.dedup :=
    (List.perm_ext_iff_of_nodup peers'.nodup_dedup peers.nodup_dedup).mpr fun p => by
      rw [List.mem_dedup, List.mem_dedup, hsame]
  have hranked : ranked ssl peers' key = ranked ssl peers key := by
    rw [ranked_eq hids, ranked_eq hids']
    exact Nearest.ranked_congr (hids.separates_dedup key) peers.nodup_dedup peers'.nodup_dedup
      fun p => hdedup.mem_iff
  have hreach : reach ssl peers' replicas = reach ssl peers replicas := by
    rw [reach_eq hids, reach_eq hids', hdedup.length_eq]
  refine ⟨_, take_ranked_nearest hids key replicas, fun list hlist => ?_⟩
  rcases List.mem_pair.mp hlist with rfl | rfl
  · exact ⟨_, ofPeers_eq ssl list, store_eq ssl list key replicas, store_eq ssl list key replicas⟩
  · have hstore := store_eq ssl list key replicas
    rw [hranked, hreach] at hstore
    exact ⟨_, ofPeers_eq ssl list, hstore, hstore⟩

theorem store_of_distinct (hids : DistinctIds ssl peers) (hnodup : peers.Nodup) (key : Bytes)
    {replicas : Int} (hpos : 1 ≤ replicas) :
    store ssl ⟨tableOf ssl peers⟩ key replicas =
      .ok ((Nearest.ranked (distance ssl key) peers).take replicas.toNat) := by
  have htake : reach ssl peers replicas = min replicas.toNat peers.length := by
    rw [reach_eq hids, hnodup.dedup, max_eq_left hpos]
  have hlength : (Nearest.ranked (distance ssl key) peers).length = peers.length :=
    Nearest.length_ranked _ peers
  rw [store_eq, ranked_eq hids, hnodup.dedup, htake, ← hlength, ← List.take_eq_take_min]

/-- **Placement is stable.** A peer that joins takes at most one place, and a key that is to be
stored once more keeps the places it has. -/
theorem placement_stable {ssl : OpenSsl} {before after : List PeerEndpoint} {q : PeerEndpoint}
    (hnodup : (before ++ after).Nodup) (hnew : q ∉ before ++ after)
    (hids : DistinctIds ssl (q :: (before ++ after))) (key : Bytes) {r : Int} (hr : 1 ≤ r) :
    ∃ dht joined A B more, ofPeers ssl (before ++ after) = .ok dht ∧
      ofPeers ssl (before ++ q :: after) = .ok joined ∧
      dht.store ssl key r = .ok A ∧ joined.store ssl key r = .ok B ∧
      Nearest.Displaced q r.toNat A B ∧
      dht.store ssl key (r + 1) = .ok more ∧ A <+: more := by
  have hmiddle : ∀ p, p ∈ before ++ q :: after ↔ p ∈ q :: (before ++ after) := fun p =>
    List.perm_middle.mem_iff
  have hall : (q :: (before ++ after)).Nodup := List.nodup_cons.mpr ⟨hnew, hnodup⟩
  have hidsOld : DistinctIds ssl (before ++ after) :=
    ⟨fun a ha b hb => hids.injective a (List.mem_cons_of_mem q ha) b (List.mem_cons_of_mem q hb),
      fun a ha => hids.not_client a (List.mem_cons_of_mem q ha)⟩
  have hold := @store_of_distinct ssl _ hidsOld hnodup key
  have hjoined := store_of_distinct (hids.of_mem_iff hmiddle)
    (List.perm_middle.nodup_iff.mpr hall) key hr
  obtain ⟨near, far, hnear, hboth⟩ := Nearest.exists_ranked_insert (hids.separates key) hall
  rw [hboth] at hjoined
  refine ⟨_, _, _, _, _, ofPeers_eq ssl _, ofPeers_eq ssl _, hold hr, hjoined, ?_,
    hold (by omega), ?_⟩
  · rw [hnear]
    exact Nearest.displaced_take q r.toNat near far
  · exact List.take_prefix_take_left (by omega)

def pairSsl : OpenSsl := tableSsl [str "10.0.0.1:9000", str "10.0.0.2:9000"]

def pairPeers : List PeerEndpoint := [⟨str "10.0.0.1", 9000⟩, ⟨str "10.0.0.2", 9000⟩]

theorem pair_distinctIds : DistinctIds pairSsl pairPeers where
  injective := by
    have hall : ∀ p ∈ pairPeers, ∀ q ∈ pairPeers,
        makeNodeId pairSsl p = makeNodeId pairSsl q → p = q := by decide +kernel
    exact hall
  not_client := by
    have hall : ∀ p ∈ pairPeers, makeNodeId pairSsl p ≠ makeKeyId pairSsl (str "client") := by
      decide +kernel
    exact hall

theorem pair_placement : ∃ targets, NearestPeers pairSsl pairPeers (str "key") 3 targets ∧
    ∀ list ∈ [pairPeers, pairPeers.reverse ++ pairPeers],
      ∃ dht, ofPeers pairSsl list = .ok dht ∧ dht.store pairSsl (str "key") 3 = .ok targets ∧
        dht.findValue pairSsl (str "key") 3 = .ok targets :=
  placement_of_peer_set pair_distinctIds (fun p => by simp) (str "key") 3

theorem pair_placement_stable : ∃ dht joined A B more,
    ofPeers pairSsl [⟨str "10.0.0.1", 9000⟩] = .ok dht ∧
      ofPeers pairSsl [⟨str "10.0.0.1", 9000⟩, ⟨str "10.0.0.2", 9000⟩] = .ok joined ∧
      dht.store pairSsl (str "key") 1 = .ok A ∧ joined.store pairSsl (str "key") 1 = .ok B ∧
      Nearest.Displaced ⟨str "10.0.0.2", 9000⟩ 1 A B ∧
      dht.store pairSsl (str "key") 2 = .ok more ∧ A <+: more :=
  @placement_stable pairSsl [⟨str "10.0.0.1", 9000⟩] [] ⟨str "10.0.0.2", 9000⟩
    (List.nodup_singleton _) (by decide)
    (pair_distinctIds.of_mem_iff fun p => by simp [pairPeers, or_comm]) (str "key") 1 le_rfl

end DhtNode

end

end DecentStore
