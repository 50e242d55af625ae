import DecentStore.Proof.Requests
import DecentStore.Proof.RestartLoss
import DecentStore.Proof.StoreRecency

/-!
# What an acknowledged chunk is worth

The service answers `OK` to a `PUT_CHUNK` when `storeChunk` returns, and `storeChunk` ends with the
eviction, which does not spare the chunk just written. A chunk within the limit is the most recent
and survives; a chunk over the limit is acknowledged and then evicted, and all the others with it.
-/

namespace DecentStore

open Bytes Posix FileSystem PeerService

theorem managed_storeChunk (o : Orders) (s : Store) (hash data : Bytes) :
    ((managed o).storeChunk hash data s).2 = (s.step o (.storeChunk hash data)).2 ∧
      ((s.step o (.storeChunk hash data)).1 = .done →
        ((managed o).storeChunk hash data s).1 = .ok ()) := by
  simp only [managed, onStore, Store.step, Store.exec, Interaction.Prog.run_bind]
  rcases (s.sm.storeChunk o hash data).run FileSystem.handle s.fs with ⟨⟨e, sm⟩ | sm, fs⟩
  · exact ⟨rfl, by simp⟩
  · exact ⟨rfl, fun _ => rfl⟩

theorem managed_loadChunk (o : Orders) (s : Store) (hash : Bytes) :
    (managed o).loadChunk hash s = match s.step o (.loadChunk hash) with
      | (.loaded data, s) => (.ok data, s)
      | (.threw e, s) => (.error e, s)
      | (.done, s) => (.ok [], s) := by
  simp only [managed, onStore, Store.step, Store.execLoad]
  rcases (s.sm.loadChunk o hash).run FileSystem.handle s.fs with ⟨⟨e, sm⟩ | ⟨data, sm⟩, fs⟩ <;> rfl

theorem okPayload_ne_err (data : Bytes) : err ≠ okPayload data := by
  have hok : str "OK " = 79 :: str "K " := by decide
  have herr : err = 69 :: str "RR\n" := by decide
  rw [okPayload, hok, herr]
  simp

/-- A `GET` is answered with these bytes exactly when the chunk's file holds them. -/
theorem serve_getChunk_iff {o : Orders} {s : Store} {dir : Path} {hash data : Bytes}
    (layout : Layout s.sm.baseDir dir s.fs) (hnamed : s.sm.Named) (hhash : IsHashHex hash)
    {sock : Socket} (hbytes : sock.bytes = PeerClient.getRequest (str "GET_CHUNK") hash) :
    ((diskOf dir s.fs).chunk hash = some data →
        (serve (managed o) sock s).1 = .ok (okPayload data)) ∧
      ((diskOf dir s.fs).chunk hash = none → (serve (managed o) sock s).1 = .ok err) := by
  have hserve := serve_getChunk (managed o) s hhash hbytes
  rw [managed_loadChunk] at hserve
  constructor
  · intro hfile
    have hload := (@loadChunk_loaded o s dir hash layout hnamed hhash data).mpr hfile
    rw [hserve]
    rcases hstep : s.step o (.loadChunk hash) with ⟨outcome, s'⟩
    rw [hstep] at hload
    simp only at hload
    rw [hload]
  · intro hfile
    have hrun := StorageManager.run_loadChunk_missing o layout hhash hfile
    rw [hserve]
    simp only [Store.step, Store.execLoad, hrun]

/-- The books are right, and so are those a restart would find. -/
structure Booked (v : View) : Prop where
  named : Named v
  ledger : Ledger v.sm
  saved : ∃ sm : StorageManager, sm.Named ∧ Ledger sm ∧ v.disk.Records sm

theorem ViewStep.records_or {o : Orders} {v v' : View} {op : StoreOp} {outcome : Outcome}
    (hstep : ViewStep o v op outcome v') (hkeep : op.KeepsMetadata) :
    v'.disk.Records v'.sm ∨ v'.disk.metadata = v.disk.metadata := by
  cases hstep with
  | storeChunk hash data =>
      by_cases hzero : v.sm.maxBytes = 0
      · exact Or.inr (storeChunk_unlimited o hzero hash data).1
      · exact Or.inl (records_enforceLimit o ((maxBytes_release v.sm hash).trans_ne hzero))
  | loadChunk hfile => exact Or.inl (records_persist o _)
  | missing hfile => exact Or.inr rfl
  | deleteChunk hash => exact Or.inl (records_persist o _)
  | setMaxBytes bytes =>
      by_cases hbytes : bytes = 0
      · rw [View.setMaxBytes, enforceLimit_of_zero o hbytes]
        exact Or.inr rfl
      · exact Or.inl (records_enforceLimit o hbytes)
  | restart hboot =>
      rw [StoreOp.KeepsMetadata] at hkeep
      rw [if_pos hkeep] at hboot
      cases hboot with
      | recover htext hparse => exact Or.inr rfl
      | rebuild hlost hscan => exact Or.inl (records_persist o _)

theorem ViewStep.booked {o : Orders} {v v' : View} {op : StoreOp} {outcome : Outcome}
    (hstep : ViewStep o v op outcome v') (hop : op.HexId) (hkeep : op.KeepsMetadata)
    (hfits : op.Fits v.sm) (booked : Booked v) : Booked v' := by
  obtain ⟨sm, hsm, hbooks, hrecords⟩ := booked.saved
  have hledger : Ledger v'.sm := by
    refine hstep.ledger hfits booked.ledger fun maxBytes keepMetadata hrestart => ?_
    subst hrestart
    cases hstep with
    | restart hboot =>
        rw [StoreOp.KeepsMetadata] at hkeep
        rw [if_pos hkeep] at hboot
        exact (hboot.of_records hsm hrecords).1.ledger hbooks
  have hnamed := hstep.named hop booked.named
  refine ⟨hnamed, hledger, ?_⟩
  rcases hstep.records_or hkeep with hnew | hold
  · exact ⟨v'.sm, hnamed.books, hledger, hnew⟩
  · obtain ⟨entries, hperm, htext⟩ := hrecords
    exact ⟨sm, hsm, hbooks, entries, hperm, hold.trans htext⟩

theorem booked_first {o : Orders} {baseDir : Bytes} {maxBytes : UInt64} {v : View}
    (hboot : Boots o (.fresh baseDir maxBytes) ⟨fun _ => none, none⟩ v) : Booked v := by
  obtain ⟨hnamed, hrecords⟩ := hboot.named_of_empty
  have ledger : Ledger v.sm := by
    rw [hboot.of_empty]
    exact ledger_fresh baseDir maxBytes
  exact ⟨hnamed, ledger, v.sm, hnamed.books, ledger, hrecords⟩

/-- The operations of a peer: any limit, restarts on the metadata, counters that fit. -/
def StoreOp.Counted (s : Store) (op : StoreOp) : Prop :=
  op.HexId ∧ op.KeepsMetadata ∧ op.Fits s.sm

theorem booked_of_run {o₀ : Orders} {base : Bytes} {dir : Path} {fs : FileSystem}
    (empty : EmptyDir base dir fs) {maxBytes : UInt64} {trace : Trace} {s : Store}
    (hrun : Runs StoreOp.Counted (Store.boot o₀ base maxBytes fs).2 trace s) :
    Layout s.sm.baseDir dir s.fs ∧ Booked (s.view dir) := by
  exact Runs.invariant_of_empty empty (fun _ v => Booked v) (fun _ hboot => booked_first hboot)
    (fun _ _ hv => hv.named.books) (fun _ _ hop => hop.1)
    (fun hop hv hstep => hstep.booked hop.1 hop.2.1 hop.2.2 hv) hrun

/-- A `PUT_CHUNK` answered `OK` is followed by a `GET_CHUNK` answered with the same bytes, and one
that is not retained evicts no other chunk. -/
def AcknowledgedMeansStored (s : Store) (id data : Bytes) : Prop :=
  ∀ (o o' : Orders) (put get : Socket),
    put.bytes = PeerClient.putRequest (str "PUT_CHUNK") id data →
    get.bytes = PeerClient.getRequest (str "GET_CHUNK") id →
    ((serve (managed o) put s).1 = .ok ok →
      (serve (managed o') get (serve (managed o) put s).2).1 = .ok (okPayload data)) ∧
    (id ∉ (serve (managed o) put s).2.sm.metaMap →
      ∀ other ∈ s.sm.metaMap, other ≠ id → other ∈ (serve (managed o) put s).2.sm.metaMap)

theorem serve_put_managed {o : Orders} {s : Store} {dir : Path} {id data : Bytes}
    (layout : Layout s.sm.baseDir dir s.fs) (hnamed : s.sm.Named) (hid : IsHashHex id)
    (hdata : data.length ≤ maxSize) {put : Socket}
    (hput : put.bytes = PeerClient.putRequest (str "PUT_CHUNK") id data) :
    serve (managed o) put s = (.ok ok, (s.step o (.storeChunk id data)).2) := by
  obtain ⟨hstep, -⟩ := @step_view o (.storeChunk id data) s dir hid hnamed layout
  obtain ⟨hstate, hreply⟩ := managed_storeChunk o s id data
  have hserve := serve_putChunk (managed o) s hid hdata hput
  rcases hrun : (managed o).storeChunk id data s with ⟨result, s'⟩
  rw [hrun] at hserve hstate hreply
  have hresult : result = .ok () := hreply hstep.of_storeChunk.1
  rw [hserve, hresult, ← hstate]

/-- What a `PUT_CHUNK` leaves, for any walking orders: the next state of the store, in which the
chunk's file is there exactly when its entry is. -/
theorem Booked.after_put {s : Store} {dir : Path} (layout : Layout s.sm.baseDir dir s.fs)
    (booked : Booked (s.view dir)) {id : Bytes} (hid : IsHashHex id) (data : Bytes) (o : Orders) :
    Layout (s.step o (.storeChunk id data)).2.sm.baseDir dir
        (s.step o (.storeChunk id data)).2.fs ∧
      (s.step o (.storeChunk id data)).2.sm.Named ∧
      (s.step o (.storeChunk id data)).2.view dir = (s.view dir).storeChunk o id data ∧
      (diskOf dir (s.step o (.storeChunk id data)).2.fs).chunk id =
        if id ∈ (s.step o (.storeChunk id data)).2.sm.metaMap then some data else none := by
  obtain ⟨hstep, layout'⟩ := @step_view o (.storeChunk id data) s dir hid booked.named.books layout
  have hview := hstep.of_storeChunk.2
  have hchunk := chunk_storeChunk o (s.view dir) hid data
  rw [← hview] at hchunk
  exact ⟨layout', (hstep.named hid booked.named).books, hview, hchunk⟩

/-- **Acknowledged means stored, up to the limit.** In every state a peer can reach, an acknowledged
chunk is there on the next request exactly when there is no limit or the chunk is within it. -/
theorem acknowledged_iff_within_limit (o₀ : Orders) {base : Bytes} {dir : Path} {fs : FileSystem}
    (empty : EmptyDir base dir fs) (maxBytes : UInt64) {trace : Trace} {s : Store}
    (hrun : Runs StoreOp.Counted (Store.boot o₀ base maxBytes fs).2 trace s) {id data : Bytes}
    (hid : IsHashHex id) (hdata : data.length ≤ maxSize)
    (hfits : (StoreOp.storeChunk id data).Fits s.sm) :
    AcknowledgedMeansStored s id data ↔
      s.sm.maxBytes = 0 ∨ data.length ≤ s.sm.maxBytes.toNat := by
  obtain ⟨layout, booked⟩ := booked_of_run empty hrun
  have hnamed : s.sm.Named := booked.named.books
  have hbytes : data.length < 2 ^ 64 := lt_of_le_of_lt hdata (by decide)
  constructor
  · intro hstored
    by_contra hover
    obtain ⟨hlimit, hlen⟩ := not_or.mp hover
    obtain ⟨layout', hnamed', hview, hfile⟩ := booked.after_put layout hid data default
    have hput : (⟨PeerClient.putRequest (str "PUT_CHUNK") id data, [], .closed⟩ : Socket).bytes =
        PeerClient.putRequest (str "PUT_CHUNK") id data := rfl
    have hget : (⟨PeerClient.getRequest (str "GET_CHUNK") id, [], .closed⟩ : Socket).bytes =
        PeerClient.getRequest (str "GET_CHUNK") id := rfl
    have hreply := (hstored default default _ _ hput hget).1
    rw [serve_put_managed layout hnamed hid hdata hput] at hreply
    have hgone := (newestEntry_kept booked.ledger hfits.2 hbytes
      (storeChunk_keepsMostRecent booked.ledger hfits hlimit hview)).2 (Nat.not_le.mp hlen)
    have herr := (@serve_getChunk_iff default _ dir id data layout' hnamed' hid _ hget).2
      (hfile.trans (if_neg hgone))
    exact okPayload_ne_err data (Except.ok.inj (herr.symm.trans (hreply rfl)))
  · intro hwithin o o' put get hput hget
    rw [serve_put_managed layout hnamed hid hdata hput]
    obtain ⟨layout', hnamed', hview, hfile⟩ := booked.after_put layout hid data o
    have hretained : id ∈ (s.step o (.storeChunk id data)).2.sm.metaMap := by
      by_cases hzero : s.sm.maxBytes = 0
      · rw [show (s.step o (.storeChunk id data)).2.sm =
          ((s.step o (.storeChunk id data)).2.view dir).sm from rfl, hview, View.storeChunk,
          enforceLimit_of_zero o ((maxBytes_release s.sm id).trans hzero)]
        exact (AList.mem_insert _).mpr (Or.inl rfl)
      · exact (newestEntry_kept booked.ledger hfits.2 hbytes
          (storeChunk_keepsMostRecent booked.ledger hfits hzero hview)).1
          (hwithin.resolve_left hzero)
    exact ⟨fun _ => (serve_getChunk_iff layout' hnamed' hid hget).1
      (hfile.trans (if_pos hretained)), fun hlost => absurd hretained hlost⟩

theorem firstStore_acknowledged : AcknowledgedMeansStored newPeer someId (str "data") :=
  (acknowledged_iff_within_limit default bareDisk_empty 10 Runs.start someId_hash (by decide)
    firstStore_ordinary.2.2).mpr (Or.inr (by decide +kernel))

/-- A chunk of 11 bytes on a new peer with a limit of 10. -/
theorem overlong_chunk_not_stored :
    ¬ ∀ (o₀ : Orders) (maxBytes : UInt64) (trace : Trace) (s : Store) (id data : Bytes),
      Runs StoreOp.Counted (Store.boot o₀ (str "/peer") maxBytes bareDisk).2 trace s →
        IsHashHex id → AcknowledgedMeansStored s id data := by
  intro hall
  have hstored := hall default 10 [] newPeer someId (str "elevenbytes") Runs.start someId_hash
  have hreply := (hstored default default ⟨PeerClient.putRequest (str "PUT_CHUNK") someId
    (str "elevenbytes"), [], .closed⟩ ⟨PeerClient.getRequest (str "GET_CHUNK") someId, [],
    .closed⟩ rfl rfl).1
  exact absurd hreply (by decide +kernel)

end DecentStore
