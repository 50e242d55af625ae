import DecentStore.Proof.Download
import DecentStore.Proof.Requests

/-!
# Honest peers

Against a cluster each request of the client is one step of one peer's store: the bytes sent are
read as they were meant and the reply is read back. So the functions of the client have simple
rules.
-/

namespace DecentStore

open Bytes Interaction

/-- A program that asks nothing of the network. -/
def Offline {α : Type} : ClientProg α → Prop
  | .pure _ => True
  | .throw _ => True
  | .call c next => (∀ peer request, c ≠ .exchange peer request) ∧ ∀ r, Offline (next r)

theorem worldHandle_offline {σ : Type} (net : Network σ) {c : Call}
    (hc : ∀ peer request, c ≠ .exchange peer request) (s : σ × LocalDisk) :
    (worldHandle net c s).2.1 = s.1 := by
  cases c with
  | exchange peer request => exact absurd rfl (hc peer request)
  | fileExists path => rfl
  | readFile path => rfl
  | absolute path => rfl
  | createDirectories path => rfl
  | writeFile path text =>
      simp only [worldHandle]
      split <;> rfl
  | openOut path =>
      simp only [worldHandle]
      split <;> rfl
  | write data => rfl

theorem Offline.run_fst {α σ : Type} (net : Network σ) {prog : ClientProg α}
    (hprog : Offline prog) (s : σ × LocalDisk) : (prog.run (worldHandle net) s).2.1 = s.1 := by
  induction prog generalizing s with
  | pure a => rfl
  | throw e => rfl
  | call c next ih => exact (ih _ (hprog.2 _) _).trans (worldHandle_offline net hprog.1 s)

theorem Offline.holds {α σ : Type} (net : Network σ) {move : σ → σ → Prop}
    (hrefl : ∀ a, move a a) {prog : ClientProg α} (hprog : Offline prog) (s : σ × LocalDisk) :
    prog.Holds (worldHandle net) (Pool.Others move) (Pool.Own move) (fun _ _ => True) s := by
  induction prog generalizing s with
  | pure a => trivial
  | throw e => trivial
  | call c next ih =>
      intro s' _
      refine ⟨?_, ih _ (hprog.2 _) _⟩
      unfold Pool.Own
      rw [worldHandle_offline net hprog.1 s']
      exact hrefl _

theorem writeLocalManifest_offline (cfg : ClientConfig) (manifest : Manifest) :
    Offline (DssClient.writeLocalManifest cfg manifest) := by
  refine ⟨by simp, fun manifestDir => ⟨by simp, fun mkEc => ?_⟩⟩
  cases mkEc with
  | some message => trivial
  | none =>
      refine ⟨by simp, fun opened => ?_⟩
      cases opened <;> trivial

namespace Cluster

section Cells

variable (cluster : Cluster) (peer : PeerEndpoint) (id data : Bytes) (q : PeerEndpoint) (i : Bytes)

@[simp]
theorem chunks_putChunk : ((cluster.putChunk peer id data) q).chunks i =
    if q = peer ∧ i = id then some data else (cluster q).chunks i := by
  by_cases hq : q = peer
  · subst hq
    by_cases hi : i = id <;> simp [putChunk, IdealStore.putChunk, hi]
  · simp [putChunk, hq]

@[simp]
theorem manifests_putChunk :
    ((cluster.putChunk peer id data) q).manifests i = (cluster q).manifests i := by
  by_cases hq : q = peer
  · subst hq
    simp [putChunk, IdealStore.putChunk]
  · simp [putChunk, hq]

@[simp]
theorem chunks_putManifest :
    ((cluster.putManifest peer id data) q).chunks i = (cluster q).chunks i := by
  by_cases hq : q = peer
  · subst hq
    simp [putManifest, IdealStore.putManifest]
  · simp [putManifest, hq]

@[simp]
theorem manifests_putManifest : ((cluster.putManifest peer id data) q).manifests i =
    if q = peer ∧ i = id then some data else (cluster q).manifests i := by
  by_cases hq : q = peer
  · subst hq
    by_cases hi : i = id <;> simp [putManifest, IdealStore.putManifest, hi]
  · simp [putManifest, hq]

end Cells

variable (segments : Segments) {id data : Bytes} (peer : PeerEndpoint) (s : Cluster × LocalDisk)

/-- The reply with these bytes to a request. -/
def reply (peer : PeerEndpoint) (request bytes : Bytes) : Exchange :=
  .answered ⟨bytes, segments.reply peer request, .closed⟩

theorem network_putChunk (hid : IsHashHex id) (hdata : data.length ≤ maxSize) :
    network segments peer (PeerClient.putRequest (str "PUT_CHUNK") id data) s =
      (reply segments peer (PeerClient.putRequest (str "PUT_CHUNK") id data) PeerService.ok,
        s.1.putChunk peer id data) := by
  rw [network, PeerService.serve_putChunk IdealStore.operations _ hid hdata rfl]
  simp only [IdealStore.operations, hid.ne_nil, ↓reduceIte]
  rfl

theorem network_putManifest (hid : IsHashHex id) (hdata : data.length ≤ maxSize) :
    network segments peer (PeerClient.putRequest (str "PUT_MANIFEST") id data) s =
      (reply segments peer (PeerClient.putRequest (str "PUT_MANIFEST") id data) PeerService.ok,
        s.1.putManifest peer id data) := by
  rw [network, PeerService.serve_putManifest IdealStore.operations _ hid hdata rfl]
  rfl

theorem network_hasChunk (hid : IsHashHex id) :
    network segments peer (PeerClient.getRequest (str "HAS_CHUNK") id) s =
      (reply segments peer (PeerClient.getRequest (str "HAS_CHUNK") id)
        (if ((s.1 peer).chunks id).isSome then PeerService.ok else PeerService.err), s.1) := by
  rw [network, PeerService.serve_hasChunk IdealStore.operations _ hid rfl]
  simp only [Function.update_eq_self]
  rfl

theorem network_getChunk (hid : IsHashHex id) :
    network segments peer (PeerClient.getRequest (str "GET_CHUNK") id) s =
      (reply segments peer (PeerClient.getRequest (str "GET_CHUNK") id)
        (match (s.1 peer).chunks id with
          | some data => PeerService.okPayload data
          | none => PeerService.err), s.1) := by
  rw [network, PeerService.serve_getChunk IdealStore.operations _ hid rfl]
  simp only [IdealStore.operations]
  cases (s.1 peer).chunks id <;> simp only [Function.update_eq_self] <;> rfl

theorem network_getManifest (hid : IsHashHex id) :
    network segments peer (PeerClient.getRequest (str "GET_MANIFEST") id) s =
      (reply segments peer (PeerClient.getRequest (str "GET_MANIFEST") id)
        (match (s.1 peer).manifests id with
          | some text => PeerService.okPayload text
          | none => PeerService.err), s.1) := by
  rw [network, PeerService.serve_getManifest IdealStore.operations _ hid rfl]
  simp only [IdealStore.operations]
  cases (s.1 peer).manifests id <;> simp only [Function.update_eq_self] <;> rfl

theorem network_get {cmd : Bytes} (hcmd : cmd = str "GET_CHUNK" ∨ cmd = str "GET_MANIFEST")
    (hid : IsHashHex id) :
    (network segments peer (PeerClient.getRequest cmd id) s).2 = s.1 := by
  rcases hcmd with rfl | rfl
  · rw [network_getChunk segments peer s hid]
  · rw [network_getManifest segments peer s hid]

theorem network_ends (request : Bytes) : (network segments peer request s).1.Ends := by
  unfold network
  split <;> trivial

variable {s peer}

theorem chunk_delivered (hid : IsHashHex id) (hdata : data.length ≤ maxSize)
    (hstored : (s.1 peer).chunks id = some data) :
    (network segments peer (PeerClient.getRequest (str "GET_CHUNK") id) s).1.Delivers data := by
  rw [network_getChunk segments peer s hid, hstored]
  exact ⟨hdata, _, [], rfl, (List.append_nil _).symm⟩

theorem manifest_delivered (hid : IsHashHex id) (hdata : data.length ≤ maxSize)
    (hstored : (s.1 peer).manifests id = some data) :
    (network segments peer (PeerClient.getRequest (str "GET_MANIFEST") id) s).1.Delivers data := by
  rw [network_getManifest segments peer s hid, hstored]
  exact ⟨hdata, _, [], rfl, (List.append_nil _).symm⟩

end Cluster

section Rules

variable {segments : Cluster.Segments}
  {rely guar : Cluster × LocalDisk → Cluster × LocalDisk → Prop}
  {id data : Bytes} {peer : PeerEndpoint} {s : Cluster × LocalDisk}

theorem PeerClient.put_holds {cmd : Bytes} (put : Cluster → Cluster)
    (hanswer : ∀ s, Cluster.network segments peer (PeerClient.putRequest cmd id data) s =
      (Cluster.reply segments peer (PeerClient.putRequest cmd id data) PeerService.ok, put s.1))
    {post : Except Exc Unit → Cluster × LocalDisk → Prop}
    (hpost : ∀ s', rely s s' → guar s' (put s'.1, s'.2) ∧ post (.ok ()) (put s'.1, s'.2)) :
    (PeerClient.put cmd peer id data).Holds (worldHandle (Cluster.network segments)) rely guar
      post s := by
  intro s' hs'
  obtain ⟨hguar, hdone⟩ := hpost s' hs'
  simp only [worldHandle, hanswer]
  refine ⟨hguar, ?_⟩
  change (Prog.ofExcept (recvAllText _) >>= _ : ClientProg Unit).Holds _ _ _ _ _
  rw [PeerClient.recvAllText_closed rfl]
  exact hdone

theorem PeerClient.putChunk_holds (hid : IsHashHex id) (hdata : data.length ≤ maxSize)
    {post : Except Exc Unit → Cluster × LocalDisk → Prop}
    (hpost : ∀ s', rely s s' → guar s' (s'.1.putChunk peer id data, s'.2) ∧
      post (.ok ()) (s'.1.putChunk peer id data, s'.2)) :
    (PeerClient.putChunk peer id data).Holds (worldHandle (Cluster.network segments)) rely guar
      post s :=
  PeerClient.put_holds (Cluster.putChunk · peer id data)
    (fun s' => Cluster.network_putChunk segments peer s' hid hdata) hpost

theorem PeerClient.putManifest_holds (hid : IsHashHex id) (hdata : data.length ≤ maxSize)
    {post : Except Exc Unit → Cluster × LocalDisk → Prop}
    (hpost : ∀ s', rely s s' → guar s' (s'.1.putManifest peer id data, s'.2) ∧
      post (.ok ()) (s'.1.putManifest peer id data, s'.2)) :
    (PeerClient.putManifest peer id data).Holds (worldHandle (Cluster.network segments)) rely guar
      post s :=
  PeerClient.put_holds (Cluster.putManifest · peer id data)
    (fun s' => Cluster.network_putManifest segments peer s' hid hdata) hpost

theorem PeerClient.saysOk_line : PeerClient.saysOk (str "OK") = true := by decide

theorem PeerClient.saysErr_line : PeerClient.saysOk (str "ERR") = false := by decide

theorem PeerClient.hasReply_eq {sock : Socket} {line : Bytes}
    (hline : (recvLine sock).1 = some line) :
    (match recvLine sock with
      | (none, _) => pure false
      | (some line, _) => pure (PeerClient.saysOk line)) =
      (pure (PeerClient.saysOk line) : ClientProg Bool) := by
  rcases hrecv : recvLine sock with ⟨line', rest⟩
  rw [hrecv] at hline
  cases hline
  rfl

theorem PeerClient.hasChunk_holds (hid : IsHashHex id)
    {post : Except Exc Bool → Cluster × LocalDisk → Prop}
    (hpost : ∀ s', rely s s' → guar s' s' ∧ post (.ok ((s'.1 peer).chunks id).isSome) s') :
    (PeerClient.hasChunk peer id).Holds (worldHandle (Cluster.network segments)) rely guar
      post s := by
  intro s' hs'
  obtain ⟨hguar, hdone⟩ := hpost s' hs'
  have hanswer := Cluster.network_hasChunk segments peer s' hid
  simp only [worldHandle, hanswer]
  refine ⟨hguar, ?_⟩
  change (match recvLine _ with
    | (none, _) => pure false
    | (some line, _) => pure (PeerClient.saysOk line) : ClientProg Bool).Holds _ _ _ _ _
  cases hpresent : ((s'.1 peer).chunks id).isSome with
  | true =>
      rw [PeerClient.hasReply_eq (PeerClient.recvLine_ok rfl), PeerClient.saysOk_line]
      exact hpresent ▸ hdone
  | false =>
      rw [PeerClient.hasReply_eq (PeerClient.recvLine_err rfl), PeerClient.saysErr_line]
      exact hpresent ▸ hdone

end Rules

end DecentStore
