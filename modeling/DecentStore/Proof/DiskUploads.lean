import DecentStore.Proof.ConcurrentUploads
import DecentStore.Proof.DiskPeers
import DecentStore.Proof.Replication

/-!
# Uploads to peers with disks

Clients upload in plaintext to peers with disks, all at the same time, and peers are restarted
between requests. What an upload that has returned left behind is found by every later download,
with the same going on meanwhile: the peers are ideal ones as far as any client can tell, and the
ideal ones only ever gain. Each object is on every one of its targets, so a download also gets on
without some of the peers: as many may be lost as there are copies, less one.
-/

namespace DecentStore

open Bytes Posix FileSystem Interaction PeerService DssClient

/-! ### What plaintext clients do to a peer -/

namespace PeerService

/-- What a `PUT` stores is stored under its hash. -/
def Request.Plain (ssl : OpenSsl) (r : Request) : Prop :=
  r.IsPut → ∀ data, r.payload = .ok (some data) → r.id = Crypto.sha256Hex ssl data

end PeerService

namespace Peers

variable {ssl : OpenSsl} {dirs : PeerEndpoint → Path} {disks : PeerEndpoint → FileSystem}
  {peers peers' : Peers} {cluster : Cluster} {orders : Peers → PeerEndpoint → Bytes → Orders}
  {refused : Exc} {segments : Cluster.Segments}

/-- What may happen to the peers by the doing of others: a proper request of a client that uploads
in plaintext or downloads, or a restart. -/
inductive Meanwhile (ssl : OpenSsl) (orders : Peers → PeerEndpoint → Bytes → Orders)
    (refused : Exc) (segments : Cluster.Segments) (peers : Peers) : Peers → Prop where
  | request (peer : PeerEndpoint) (request : Bytes) (disk : LocalDisk)
      (hproper : PeerService.Proper (peers peer).store request)
      (hplain : ∀ r, Request.ofBytes request = some r → r.Plain ssl) :
      Meanwhile ssl orders refused segments peers
        (network orders refused segments peer request (peers, disk)).2
  | restart {peers' : Peers} (hrestarts : Restarts peers peers') :
      Meanwhile ssl orders refused segments peers peers'

/-- An ideal store is told a plaintext reply, and its cluster grows. -/
theorem grows_after (cluster : Cluster) (peer : PeerEndpoint) {r : Request}
    (hplain : r.Plain ssl) (reply : Except Exc Bytes) :
    Cluster.Grows ssl cluster
      (Function.update cluster peer ((cluster peer).after r reply)) := by
  unfold IdealStore.after
  split
  · rename_i data hdata
    split_ifs with hput hput
    · rw [hplain (Or.inl hput.2) data hdata]
      exact Cluster.grows_putChunk cluster peer data
    · rw [hplain (Or.inr hput.2) data hdata]
      exact Cluster.grows_putManifest cluster peer data
    · rw [Function.update_eq_self]
      exact Cluster.Grows.refl cluster
  · rw [Function.update_eq_self]
    exact Cluster.Grows.refl cluster

theorem grows_request (cluster : Cluster) {peer : PeerEndpoint} {request : Bytes}
    (hproper : PeerService.Proper (peers peer).store request)
    (hplain : ∀ r, Request.ofBytes request = some r → r.Plain ssl) (disk : LocalDisk) :
    Cluster.Grows ssl cluster (Cluster.network segments peer request (cluster, disk)).2 := by
  have hnext : (Cluster.network segments peer request (cluster, disk)).2 =
      Function.update cluster peer (serve IdealStore.operations
        ⟨request, segments.request peer request, .closed⟩ (cluster peer)).2 := by
    rw [Cluster.network]
    split <;> rename_i heq <;> rw [heq]
  rw [hnext, serve_eq]
  cases hr : Request.ofBytes request with
  | none =>
      simp only [Function.update_eq_self]
      exact Cluster.Grows.refl cluster
  | some r =>
      simp only [IdealStore.reply_after (hproper r hr).hash.ne_nil]
      exact grows_after cluster peer (hplain r hr) _

/-- **A step of others.** The ideal stores gain, if anything. -/
theorem Settled.meanwhile (settled : Settled dirs disks peers cluster)
    (hstep : Meanwhile ssl orders refused segments peers peers') :
    ∃ cluster', Settled dirs disks peers' cluster' ∧ Cluster.Grows ssl cluster cluster' := by
  cases hstep with
  | request peer request disk hproper hplain =>
      exact ⟨_, (settled.network orders refused segments hproper disk).2,
        grows_request cluster hproper hplain disk⟩
  | restart hrestarts => exact ⟨cluster, settled.restarts hrestarts, Cluster.Grows.refl cluster⟩

/-- Ideal stores gain from one state of the peers to the next. -/
def Gains (ssl : OpenSsl) (dirs : PeerEndpoint → Path) (disks : PeerEndpoint → FileSystem)
    (peers peers' : Peers) : Prop :=
  ∀ cluster, Settled dirs disks peers cluster →
    ∃ cluster', Settled dirs disks peers' cluster' ∧ Cluster.Grows ssl cluster cluster'

theorem gains_of_meanwhile
    (hsteps : Relation.ReflTransGen (Meanwhile ssl orders refused segments) peers peers') :
    Gains ssl dirs disks peers peers' := by
  intro cluster settled
  induction hsteps with
  | refl => exact ⟨cluster, settled, Cluster.Grows.refl cluster⟩
  | tail _ hstep ih =>
      obtain ⟨cluster', settled', hgrows⟩ := ih
      obtain ⟨cluster'', settled'', hgrows'⟩ := settled'.meanwhile hstep
      exact ⟨cluster'', settled'', hgrows.trans hgrows'⟩

/-! ### A download -/

theorem proper_get {s : Store} {cmd id : Bytes}
    (hcmd : cmd = str "GET_CHUNK" ∨ cmd = str "GET_MANIFEST") (hid : IsHashHex id) :
    PeerService.Proper s (PeerClient.getRequest cmd id) := by
  intro r hr
  have hread : Request.ofBytes (PeerClient.getRequest cmd id) = some ⟨cmd, id, none, []⟩ := by
    rcases hcmd with rfl | rfl <;>
      exact ofBytes_getRequest (by decide) hid.token
        (PeerClient.length_getLine_le (by decide) hid)
  obtain rfl := Option.some_injective _ (hread.symm.trans hr)
  have hput : ¬ (cmd = str "PUT_CHUNK" ∨ cmd = str "PUT_MANIFEST") := by
    rcases hcmd with rfl | rfl <;> decide
  exact ⟨hid, fun h => absurd h hput, rfl, rfl, fun h => absurd (Or.inl h) hput⟩

/-- The peers that are not lost answer as before. The others refuse, or answer anything in the end,
and keep to themselves. -/
structure Survives (lost : Finset PeerEndpoint) (orders : Peers → PeerEndpoint → Bytes → Orders)
    (refused : Exc) (segments : Cluster.Segments) {σ : Type} (view : σ → Peers)
    (net : Network σ) : Prop where
  answers : ∀ {peer}, peer ∉ lost → ∀ request s,
    (net peer request s).1 = (network orders refused segments peer request (view s.1, s.2)).1
  moves : ∀ {peer}, peer ∉ lost → ∀ request s,
    view (net peer request s).2 = (network orders refused segments peer request (view s.1, s.2)).2
  ends : ∀ {peer}, peer ∈ lost → ∀ request s, (net peer request s).1.Ends
  lost : ∀ {peer}, peer ∈ lost → ∀ request s, view (net peer request s).2 = view s.1

theorem survives_all : Survives ∅ orders refused segments id (network orders refused segments) where
  answers := fun _ _ _ => rfl
  moves := fun _ _ _ => rfl
  lost := fun hlost => absurd hlost (Finset.notMem_empty _)
  ends := fun hlost => absurd hlost (Finset.notMem_empty _)

section Reader

variable {σ : Type} {lost : Finset PeerEndpoint} {view : σ → Peers} {net : Network σ}

/-- A reader of peers with disks, some of them lost, who relies on what the peers have now. -/
def reader (ssl : OpenSsl) (cfg : ClientConfig) (dirs : PeerEndpoint → Path)
    (disks : PeerEndpoint → FileSystem) (hnet : Survives lost orders refused segments view net)
    (now : Cluster) : Reader ssl σ where
  cfg := cfg
  net := net
  move := fun s s' => Gains ssl dirs disks (view s) (view s')
  keep := fun s => ∃ cluster, Settled dirs disks (view s) cluster ∧ Cluster.Grows ssl now cluster
  refl := fun _ cluster settled => ⟨cluster, settled, Cluster.Grows.refl cluster⟩
  keep_of_move := by
    rintro s s' hmove ⟨cluster, settled, hgrows⟩
    obtain ⟨cluster', settled', hgrows'⟩ := hmove cluster settled
    exact ⟨cluster', settled', hgrows.trans hgrows'⟩
  get_moves := by
    intro peer cmd id s hcmd hid _ cluster settled
    by_cases hpeer : peer ∈ lost
    · rw [hnet.lost hpeer]
      exact ⟨cluster, settled, Cluster.Grows.refl cluster⟩
    rw [hnet.moves hpeer]
    refine ⟨_, (settled.network orders refused segments (proper_get hcmd hid) s.2).2, ?_⟩
    rw [Cluster.network_get segments peer (cluster, s.2) hcmd hid]
    exact Cluster.Grows.refl cluster

variable {cfg : ClientConfig} (hnet : Survives lost orders refused segments view net)
  {now : Cluster}

theorem reader_answers : (reader ssl cfg dirs disks hnet now).Answers := by
  rintro peer - cmd id s hcmd hid ⟨cluster, settled, -⟩
  by_cases hlost : peer ∈ lost
  · exact hnet.ends hlost _ s
  · have hanswer := (hnet.answers hlost _ s).trans (settled.network orders refused segments
      (@proper_get (view s.1 peer).store _ _ hcmd hid) s.2).1
    change (net peer (PeerClient.getRequest cmd id) s).1.Ends
    rw [hanswer]
    exact Cluster.network_ends segments peer (cluster, s.2) _

theorem reader_chunkServed (hsound : now.Sound ssl) {c : Bytes} (hcollide : ssl.NoCollision c)
    (hc : c.length ≤ maxSize) {p : PeerEndpoint} (hp : p ∈ cfg.peers) (hlost : p ∉ lost)
    (hhas : now.Has p (Crypto.sha256Hex ssl c)) (n : Nat) :
    (reader ssl cfg dirs disks hnet now).ChunkServed none n (Crypto.sha256Hex ssl c) := by
  refine Reader.chunkServed_of_answers (reader_answers hnet) (Crypto.sha256Hex_isHashHex ssl c) hp
    (fun _ _ _ _ _ _ _ => not_badTag_plain _) ?_
  rintro s ⟨cluster, settled, hgrows⟩ -
  obtain ⟨data, hdata⟩ := Option.isSome_iff_exists.mp (hgrows.chunks _ _ hhas)
  have hhash := hgrows.sound hsound p _ data (Or.inl hdata)
  obtain rfl : data = c := hcollide.eq hhash.symm
  have hid := Crypto.sha256Hex_isHashHex ssl data
  have hanswer := (hnet.answers hlost _ s).trans (settled.network orders refused segments
    (@proper_get (view s.1 p).store _ _ (Or.inl rfl) hid) s.2).1
  refine ⟨data, acceptChunk_delivers ?_ rfl⟩
  rw [Reader.chunkAnswer]
  exact hanswer ▸ @Cluster.chunk_delivered segments _ data p (cluster, s.2) hid hc hdata

theorem reader_manifestServed (hsound : now.Sound ssl) {upload : Upload ssl} {plan : Plan}
    (hname : upload.Named) (hplan : upload.plan = .ok plan) (hcollide : ssl.NoCollision plan.text)
    {p : PeerEndpoint} (hp : p ∈ cfg.peers) (hlost : p ∉ lost)
    (hhas : now.HasManifest p (plan.hash ssl)) :
    (reader ssl cfg dirs disks hnet now).ManifestServed (plan.hash ssl) := by
  refine Reader.manifestServed_of_answers (reader_answers hnet) (Upload.hash_isHashHex plan) hp ?_
  rintro s ⟨cluster, settled, hgrows⟩
  obtain ⟨text, htext⟩ := Option.isSome_iff_exists.mp (hgrows.manifests _ _ hhas)
  have hhash := hgrows.sound hsound p _ text (Or.inr htext)
  obtain rfl : text = plan.text := hcollide.eq hhash.symm
  have hid := @Upload.hash_isHashHex ssl plan
  have hanswer := (hnet.answers hlost _ s).trans (settled.network orders refused segments
    (@proper_get (view s.1 p).store _ _ (Or.inr rfl) hid) s.2).1
  refine ⟨plan.manifest, acceptManifest_delivers hname hplan ?_⟩
  rw [Reader.manifestAnswer]
  exact hanswer ▸ @Cluster.manifest_delivered segments _ plan.text p (cluster, s.2) hid
    (upload.text_fits plan hplan).le htext

/-! ### Uploads and downloads together -/

variable {ι : Type} [DecidableEq ι]

/-- Plaintext uploads to ideal peers, wherever they are. -/
theorem uploadPool_spreads {uploads : ι → Upload ssl}
    (hplain : ∀ i, (uploads i).cfg.rsaPublicKeyPath = []) (own : ι → LocalDisk)
    {ideal : Pool Call.Reply Exc PutFileResult Cluster LocalDisk ι}
    (hreach : Pool.Reachable (worldHandle (Cluster.network segments)) (uploadPool uploads own)
      ideal) :
    ideal.shared.Sound ssl ∧ Pool.AllHold (worldHandle (Cluster.network segments))
      (Cluster.Grows ssl) (fun i => SpreadBy (uploads i)) ideal := by
  obtain ⟨hgrows, hall⟩ := Pool.holds_of_reachable Cluster.Grows.refl
    (fun _ _ _ => Cluster.Grows.trans) (fun _ _ _ _ hothers hspread => hspread.stable hothers)
    hreach (fun i => putFile_spreads (hplain i) (Cluster.empty, own i))
  exact ⟨hgrows.sound Cluster.sound_empty, hall⟩

/-- The peers are ideal ones, to which the uploads have come as far. -/
theorem ideal_of_turns {bases : PeerEndpoint → Bytes}
    (empty : ∀ peer, EmptyDir (bases peer) (dirs peer) (disks peer))
    (started : PeerEndpoint → Orders) (limits : PeerEndpoint → UInt64)
    {uploads : ι → Upload ssl} (own : ι → LocalDisk)
    {pool : Pool Call.Reply Exc PutFileResult Peers LocalDisk ι}
    (hturns : Pool.Turns (worldHandle (network orders refused segments)) Proper Restarts
      ⟨start started bases limits disks, fun i => ((uploads i).putFile, own i)⟩ pool) :
    ∃ ideal, Pool.Reachable (worldHandle (Cluster.network segments)) (uploadPool uploads own)
      ideal ∧ Pool.Alike (Settled dirs disks) pool ideal :=
  Pool.Turns.simulated (network_simulates orders refused segments dirs disks)
    (fun _ _ _ hrestarts settled => settled.restarts hrestarts) hturns
    ⟨settled_start started empty limits, rfl⟩

/-- An upload that has returned is on all its targets. -/
theorem spread_of_turns {bases : PeerEndpoint → Bytes}
    (empty : ∀ peer, EmptyDir (bases peer) (dirs peer) (disks peer))
    (started : PeerEndpoint → Orders) (limits : PeerEndpoint → UInt64)
    {uploads : ι → Upload ssl} (hplain : ∀ i, (uploads i).cfg.rsaPublicKeyPath = [])
    (own : ι → LocalDisk) {pool : Pool Call.Reply Exc PutFileResult Peers LocalDisk ι}
    (hturns : Pool.Turns (worldHandle (network orders refused segments)) Proper Restarts
      ⟨start started bases limits disks, fun i => ((uploads i).putFile, own i)⟩ pool)
    {i : ι} {result : PutFileResult} (hreturned : (pool.procs i).1 = .pure result) :
    ∃ cluster, Settled dirs disks pool.shared cluster ∧ cluster.Sound ssl ∧
      ∃ plan, (uploads i).plan = .ok plan ∧ result.shareUri = plan.shareUri ssl ∧
        Spread (uploads i) plan cluster := by
  obtain ⟨ideal, hreach, hsettled, hprocs⟩ := ideal_of_turns empty started limits own hturns
  obtain ⟨hsound, hall⟩ := uploadPool_spreads hplain own hreach
  have hdone := hall i
  rw [hprocs, hreturned] at hdone
  exact ⟨ideal.shared, hsettled, hsound, hdone result rfl⟩

include hnet in
/-- A download of an upload that is spread, when a target of each object is left. -/
theorem download_from_survivors {upload : Upload ssl} {plan : Plan}
    (hplain : upload.cfg.rsaPublicKeyPath = []) (hplan : upload.plan = .ok plan)
    (hname : upload.Named) (hcollide : ∀ plan, upload.plan = .ok plan →
      ssl.NoCollision plan.text ∧ ∀ c ∈ plan.chunks, ssl.NoCollision c)
    (hsound : now.Sound ssl) (hspread : Spread upload plan now)
    (hleft : ∀ key, ∃ p ∈ upload.targets key, p ∉ lost) (hcfg : upload.cfg.peers ⊆ cfg.peers)
    {outPath : Bytes} {s₀ s : σ × LocalDisk} (settled : Settled dirs disks (view s₀.1) now)
    (hlocal : s₀.2.files (plan.shareUri ssl) = none) (hwritable : s₀.2.writable outPath = true)
    {r : Except Exc Unit}
    (hrun : (getFile ssl cfg (plan.shareUri ssl) outPath).Among (worldHandle net)
      (Pool.Others fun a b =>
        Relation.ReflTransGen (Meanwhile ssl orders refused segments) (view a) (view b)) s₀ r s) :
    r = .ok () ∧ s.2.files outPath = some upload.content := by
  obtain ⟨htext, hnoCollision⟩ := hcollide plan hplan
  have htarget : ∀ key, ∃ p ∈ cfg.peers, p ∈ upload.targets key ∧ p ∉ lost := by
    intro key
    obtain ⟨p, hp, hlost⟩ := hleft key
    exact ⟨p, hcfg (upload.targets_subset _ hp), hp, hlost⟩
  obtain ⟨p, hp, htargets, hlost⟩ := htarget (str "manifest:" ++ plan.hash ssl)
  have hget := @Reader.getFile_retrieves ssl σ (reader ssl cfg dirs disks hnet now) upload plan
    (List.ne_nil_of_mem hp) hname hplan htext outPath s₀ ⟨now, settled, Cluster.Grows.refl now⟩
    hlocal hnoCollision ?_ hwritable plan.enc (Upload.unwrapKey_plain hplan hplain cfg) ?_
  · exact hrun.post_of_holds (fun _ _ hothers => ⟨gains_of_meanwhile hothers.1, hothers.2⟩) hget
  · exact reader_manifestServed hnet hsound hname hplan htext hp hlost (hspread.manifest p htargets)
  · intro n c hc
    have hmem : c ∈ plan.chunks := List.mem_of_getElem? hc
    obtain ⟨q, hq, htargets, hlost⟩ := htarget (Crypto.sha256Hex ssl c)
    rw [Upload.plan_plaintext hplan hplain]
    exact reader_chunkServed hnet hsound (hnoCollision c hmem) (Upload.plan_fits hplan c hmem)
      hq hlost (hspread.chunks c hmem q htargets) n

end Reader

section Retrieval

variable {ι : Type} [DecidableEq ι]

/-- **What is uploaded to peers with disks can be downloaded from them.** In every state that
plaintext uploads at the same time and restarts of peers can reach, a download of a share id that
has been returned, with other plaintext clients and restarts going on meanwhile, returns and has
written the file. -/
theorem disk_uploads_retrievable {bases : PeerEndpoint → Bytes}
    (empty : ∀ peer, EmptyDir (bases peer) (dirs peer) (disks peer))
    (started : PeerEndpoint → Orders) (limits : PeerEndpoint → UInt64)
    {uploads : ι → Upload ssl} (husable : ∀ i, Usable ssl (uploads i).cfg.peers)
    (hplain : ∀ i, (uploads i).cfg.rsaPublicKeyPath = []) (own : ι → LocalDisk)
    {pool : Pool Call.Reply Exc PutFileResult Peers LocalDisk ι}
    (hturns : Pool.Turns (worldHandle (network orders refused segments)) Proper Restarts
      ⟨start started bases limits disks, fun i => ((uploads i).putFile, own i)⟩ pool)
    {i : ι} {result : PutFileResult} (hreturned : (pool.procs i).1 = .pure result)
    (hname : (uploads i).Named)
    (hcollide : ∀ plan, (uploads i).plan = .ok plan →
      ssl.NoCollision plan.text ∧ ∀ c ∈ plan.chunks, ssl.NoCollision c)
    {cfg : ClientConfig} (hcfg : (uploads i).cfg.peers ⊆ cfg.peers) {outPath : Bytes}
    {disk : LocalDisk} (hlocal : disk.files result.shareUri = none)
    (hwritable : disk.writable outPath = true) {r : Except Exc Unit} {s : Peers × LocalDisk}
    (hrun : (getFile ssl cfg result.shareUri outPath).Among
      (worldHandle (network orders refused segments))
      (Pool.Others (Relation.ReflTransGen (Meanwhile ssl orders refused segments)))
      (pool.shared, disk) r s) :
    r = .ok () ∧ s.2.files outPath = some (uploads i).content := by
  obtain ⟨now, settled, hsound, plan, hplan, huri, hspread⟩ :=
    spread_of_turns empty started limits hplain own hturns hreturned
  rw [huri] at hlocal hrun
  refine download_from_survivors survives_all (hplain i) hplan hname hcollide hsound hspread ?_
    hcfg settled hlocal hwritable hrun
  intro key
  obtain ⟨p, hp⟩ := (uploads i).exists_target (husable i) key
  exact ⟨p, hp, Finset.notMem_empty p⟩

/-- The copies that an upload makes of each object. -/
def copies (cfg : ClientConfig) : Nat :=
  min (max cfg.desiredReplicas 1).toNat cfg.peers.dedup.length

theorem exists_survivor {upload : Upload ssl} (hids : DistinctIds ssl upload.cfg.peers)
    {lost : Finset PeerEndpoint} (hlost : lost.card < copies upload.cfg) (key : Bytes) :
    ∃ p ∈ upload.targets key, p ∉ lost := by
  have hpeers : upload.cfg.peers ≠ [] := by
    intro hnil
    simp [copies, hnil] at hlost
  have hnearest := Upload.targets_nearest hids hpeers key
  have hcard : lost.card < (upload.targets key).toFinset.card := by
    rw [List.toFinset_card_of_nodup hnearest.nodup, hnearest.length]
    exact hlost
  obtain ⟨p, hp, hout⟩ := Finset.exists_mem_notMem_of_card_lt_card hcard
  exact ⟨p, List.mem_toFinset.mp hp, hout⟩

/-- **Fewer lost peers than copies.** In every state that plaintext uploads at the same time and
restarts of peers can reach, fewer peers than there are copies may be lost: whatever these answer
from then on, if only they answer or refuse, a download of a share id that has been returned, with
other plaintext clients and restarts going on meanwhile, returns and has written the file. -/
theorem disk_uploads_survive_losses {bases : PeerEndpoint → Bytes}
    (empty : ∀ peer, EmptyDir (bases peer) (dirs peer) (disks peer))
    (started : PeerEndpoint → Orders) (limits : PeerEndpoint → UInt64)
    {uploads : ι → Upload ssl} (hplain : ∀ i, (uploads i).cfg.rsaPublicKeyPath = [])
    (own : ι → LocalDisk) {pool : Pool Call.Reply Exc PutFileResult Peers LocalDisk ι}
    (hturns : Pool.Turns (worldHandle (network orders refused segments)) Proper Restarts
      ⟨start started bases limits disks, fun i => ((uploads i).putFile, own i)⟩ pool)
    {i : ι} {result : PutFileResult} (hreturned : (pool.procs i).1 = .pure result)
    (hids : DistinctIds ssl (uploads i).cfg.peers) (hname : (uploads i).Named)
    (hcollide : ∀ plan, (uploads i).plan = .ok plan →
      ssl.NoCollision plan.text ∧ ∀ c ∈ plan.chunks, ssl.NoCollision c)
    {lost : Finset PeerEndpoint} (hlost : lost.card < copies (uploads i).cfg)
    {σ : Type} {view : σ → Peers} {net : Network σ}
    (hnet : Survives lost orders refused segments view net)
    {cfg : ClientConfig} (hcfg : (uploads i).cfg.peers ⊆ cfg.peers) {outPath : Bytes} {now : σ}
    (hnow : view now = pool.shared) {disk : LocalDisk} (hlocal : disk.files result.shareUri = none)
    (hwritable : disk.writable outPath = true) {r : Except Exc Unit} {s : σ × LocalDisk}
    (hrun : (getFile ssl cfg result.shareUri outPath).Among (worldHandle net)
      (Pool.Others fun a b =>
        Relation.ReflTransGen (Meanwhile ssl orders refused segments) (view a) (view b))
      (now, disk) r s) :
    r = .ok () ∧ s.2.files outPath = some (uploads i).content := by
  obtain ⟨cluster, settled, hsound, plan, hplan, huri, hspread⟩ :=
    spread_of_turns empty started limits hplain own hturns hreturned
  rw [huri] at hlocal hrun
  rw [← hnow] at settled
  exact download_from_survivors hnet (hplain i) hplan hname hcollide hsound hspread
    (exists_survivor hids hlost) hcfg settled hlocal hwritable hrun

end Retrieval

/-! ### A run -/

def spareSsl : OpenSsl :=
  tableSsl [str "hi", str "!", notePlan.text, str "10.0.0.2:9000", str "10.0.0.1:9000"]

/-- The note is kept twice. -/
def spareConfig : ClientConfig := { noteConfig with desiredReplicas := 2 }

theorem spareUpload_plan :
    Plan.of spareSsl spareConfig (str "/home/note") (str "hi!") noteKey = .ok notePlan := by
  decide +kernel

def spareUpload : Upload spareSsl where
  cfg := spareConfig
  filePath := str "/home/note"
  content := str "hi!"
  fileKey := noteKey
  text_fits := by
    intro plan hplan
    rw [spareUpload_plan] at hplan
    cases hplan
    exact noteUpload.text_fits notePlan noteUpload_plan

theorem spare_noCollision (plan : Plan) (hplan : spareUpload.plan = .ok plan) :
    spareSsl.NoCollision plan.text ∧ ∀ c ∈ plan.chunks, spareSsl.NoCollision c := by
  have hsame : plan = notePlan := Except.ok.inj (hplan.symm.trans spareUpload_plan)
  rw [hsame]
  refine ⟨TableSsl.noCollision (by decide) (by simp), fun c hc => ?_⟩
  refine TableSsl.noCollision (by decide) ?_
  simp only [notePlan, List.mem_cons, List.not_mem_nil, or_false] at hc ⊢
  tauto

theorem spare_distinctIds : DistinctIds spareSsl notePeers where
  injective := by
    have hall : ∀ p ∈ notePeers, ∀ q ∈ notePeers,
        makeNodeId spareSsl p = makeNodeId spareSsl q → p = q := by decide +kernel
    exact hall
  not_client := by
    have hall : ∀ p ∈ notePeers, makeNodeId spareSsl p ≠ makeKeyId spareSsl (str "client") := by
      decide +kernel
    exact hall

/-- The note is uploaded to two new peers with a limit of 100 bytes by one of two clients. -/
def spareStart : Pool Call.Reply Exc PutFileResult Peers LocalDisk Bool :=
  ⟨start (fun _ => default) (fun _ => str "/peer") (fun _ => 100) fun _ => bareDisk,
    fun _ => (spareUpload.putFile, {})⟩

def spareRun : Except Exc PutFileResult × Peers × LocalDisk :=
  (spareStart.procs true).1.run (worldHandle plainNetwork)
    (spareStart.shared, (spareStart.procs true).2)

/-- The upload is done, and then one of the peers is restarted. -/
def sparePool : Pool Call.Reply Exc PutFileResult Peers LocalDisk Bool :=
  { shared := spareRun.2.1.restart ⟨str "10.0.0.2", 9000⟩ default 50
    procs := Function.update spareStart.procs true (Prog.ofExcept spareRun.1, spareRun.2.2) }

theorem spareRun_allowed :
    (spareStart.procs true).1.Allowed (worldHandle plainNetwork) Proper
      (spareStart.shared, (spareStart.procs true).2) := by
  decide +kernel

theorem spareRun_returns : spareRun.1 = .ok ⟨notePlan.shareUri spareSsl,
    str "manifests/note.manifest.txt"⟩ := by
  decide +kernel

theorem spareRun_limited : (spareRun.2.1 ⟨str "10.0.0.2", 9000⟩).store.sm.maxBytes ≠ 0 := by
  decide +kernel

theorem sparePool_turns :
    Pool.Turns (worldHandle plainNetwork) Proper Restarts spareStart sparePool := by
  have hrestarts : Restarts spareRun.2.1
      (spareRun.2.1.restart ⟨str "10.0.0.2", 9000⟩ default 50) :=
    ⟨⟨str "10.0.0.2", 9000⟩, default, 50, spareRun_limited, rfl⟩
  have hupload : Pool.Turns (worldHandle plainNetwork) Proper Restarts spareStart ⟨spareRun.2.1,
      Function.update spareStart.procs true (Prog.ofExcept spareRun.1, spareRun.2.2)⟩ := by
    unfold spareRun
    exact Pool.turns_run spareStart true spareRun_allowed
  exact hupload.tail (.silent hrestarts)

theorem sparePool_returned : (sparePool.procs true).1 = .pure ⟨notePlan.shareUri spareSsl,
    str "manifests/note.manifest.txt"⟩ := by
  simp only [sparePool, Function.update_self, spareRun_returns]
  rfl

/-- One of the peers is lost, and lies. -/
def lyingNetwork : Network Peers := fun peer request s =>
  if peer ∈ ({⟨str "10.0.0.1", 9000⟩} : Finset PeerEndpoint) then
    (.answered ⟨PeerService.okPayload (str "lies"), [], .closed⟩, s.1)
  else plainNetwork peer request s

theorem lyingNetwork_survives : Survives {⟨str "10.0.0.1", 9000⟩} (fun _ _ _ => default)
    (.runtimeError []) {} id lyingNetwork where
  answers := fun hpeer request s => by rw [lyingNetwork, if_neg hpeer]; rfl
  moves := fun hpeer request s => by rw [lyingNetwork, if_neg hpeer]; rfl
  lost := fun hpeer request s => by rw [lyingNetwork, if_pos hpeer]
  ends := fun hpeer request s => by rw [lyingNetwork, if_pos hpeer]; trivial

theorem spare_retrievable_from_disks :
    ((getFile spareSsl spareConfig (notePlan.shareUri spareSsl) (str "out")).run
        (worldHandle plainNetwork) (sparePool.shared, {})).1 = .ok () ∧
      ((getFile spareSsl spareConfig (notePlan.shareUri spareSsl) (str "out")).run
        (worldHandle plainNetwork) (sparePool.shared, {})).2.2.files (str "out") =
          some (str "hi!") :=
  @disk_uploads_retrievable spareSsl (fun _ => [str "peer"]) (fun _ => bareDisk) _ _ {} Bool _
    (fun _ => str "/peer") (fun _ => bareDisk_empty) (fun _ => default) (fun _ => 100)
    (fun _ => spareUpload) (fun _ => ⟨⟨str "10.0.0.2", 9000⟩, by decide, by decide +kernel⟩)
    (fun _ => rfl) (fun _ => {}) sparePool sparePool_turns true _ sparePool_returned (by decide)
    spare_noCollision spareConfig (List.Subset.refl _) (str "out") {} rfl rfl _ _
    (Prog.among_run (fun _ => ⟨Relation.ReflTransGen.refl, rfl⟩) _ _)

theorem spare_survives_lies :
    ((getFile spareSsl spareConfig (notePlan.shareUri spareSsl) (str "out")).run
        (worldHandle lyingNetwork) (sparePool.shared, {})).1 = .ok () ∧
      ((getFile spareSsl spareConfig (notePlan.shareUri spareSsl) (str "out")).run
        (worldHandle lyingNetwork) (sparePool.shared, {})).2.2.files (str "out") =
          some (str "hi!") :=
  @disk_uploads_survive_losses spareSsl (fun _ => [str "peer"]) (fun _ => bareDisk) _ _ {} Bool _
    (fun _ => str "/peer") (fun _ => bareDisk_empty) (fun _ => default) (fun _ => 100)
    (fun _ => spareUpload) (fun _ => rfl) (fun _ => {}) sparePool sparePool_turns true _
    sparePool_returned spare_distinctIds (by decide) spare_noCollision _ (by decide) Peers id
    lyingNetwork lyingNetwork_survives spareConfig (List.Subset.refl _) (str "out") _ rfl {} rfl
    rfl _ _ (Prog.among_run (fun _ => ⟨Relation.ReflTransGen.refl, rfl⟩) _ _)

end Peers

end DecentStore
