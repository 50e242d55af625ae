import DecentStore.Proof.StoreRecovery

/-!
# What a restart loses

Along a run in which every store happens under a limit, each state is recovered by a restart. In any
state of such a run a store without a limit is the one operation after which it is not: the access
counter has moved and the text has not.
-/

namespace DecentStore

open Bytes Posix FileSystem

/-- A new object on the same directory has the same `meta_`, `usedBytes_` and `accessCounter_`. -/
def Store.Recovers (s : Store) : Prop :=
  ∀ (o : Orders) (maxBytes : UInt64),
    (∀ hash, (boot o s.sm.baseDir maxBytes s.fs).2.sm.metaMap.lookup hash =
      s.sm.metaMap.lookup hash) ∧
    (boot o s.sm.baseDir maxBytes s.fs).2.sm.usedBytes = s.sm.usedBytes ∧
    (boot o s.sm.baseDir maxBytes s.fs).2.sm.accessCounter = s.sm.accessCounter

theorem boot_sameBooks (o : Orders) {base : Bytes} {dir : Path} {fs : FileSystem}
    {sm : StorageManager} (layout : Layout base dir fs) (hnamed : sm.Named)
    (hrecords : (diskOf dir fs).Records sm) (maxBytes : UInt64) :
    SameBooks sm (Store.boot o base maxBytes fs).2.sm :=
  ((boot_of_layout o layout maxBytes).2.1.of_records hnamed hrecords).1

theorem Store.recovers_of_records {s : Store} {dir : Path} (layout : Layout s.sm.baseDir dir s.fs)
    (hnamed : s.sm.Named) (hrecords : (diskOf dir s.fs).Records s.sm) : s.Recovers := by
  intro o maxBytes
  have hsame := boot_sameBooks o layout hnamed hrecords maxBytes
  exact ⟨fun hash => AList.perm_lookup hsame.entries, hsame.usedBytes, hsame.accessCounter⟩

theorem succ_ne_self (n : UInt64) : n + 1 ≠ n := by
  intro heq
  simp at heq

/-- A store without a limit moves the counter and leaves the text alone. -/
theorem storeChunk_unlimited (o : Orders) {v : View} (hzero : v.sm.maxBytes = 0)
    (hash data : Bytes) :
    (v.storeChunk o hash data).disk.metadata = v.disk.metadata ∧
      (v.storeChunk o hash data).sm.accessCounter = v.sm.accessCounter + 1 := by
  have hlimit : (v.write hash data).sm.maxBytes = 0 := (maxBytes_release v.sm hash).trans hzero
  have hcounter : (v.sm.release hash).accessCounter = v.sm.accessCounter := by
    unfold StorageManager.release
    split <;> rfl
  rw [View.storeChunk, enforceLimit_of_zero o hlimit]
  exact ⟨rfl, congrArg (· + 1) hcounter⟩

/-- The operations after which a restart is meant to find everything. -/
def StoreOp.Recoverable (s : Store) (op : StoreOp) : Prop :=
  op.HexId ∧ op.KeepsMetadata ∧ op.StoresLimited s.sm

/-- **A restart loses nothing but stores made without a limit.** -/
theorem recovers_iff_stores_limited (o₀ : Orders) {base : Bytes} {dir : Path} {fs : FileSystem}
    (empty : EmptyDir base dir fs) (maxBytes : UInt64) {trace : Trace} {s : Store}
    (hrun : Runs StoreOp.Recoverable (Store.boot o₀ base maxBytes fs).2 trace s) :
    s.Recovers ∧ ∀ (o : Orders) (op : StoreOp), op.HexId → op.KeepsMetadata →
      ((s.step o op).2.Recovers ↔ op.StoresLimited s.sm) := by
  obtain ⟨layout', hnamed, hrecords⟩ := Runs.invariant_of_empty empty
    (fun _ v => Named v ∧ v.disk.Records v.sm) (fun _ hboot => hboot.named_of_empty)
    (fun _ v hv => hv.1.books)
    (fun s op hop => hop.1)
    (fun hop hv hstep => ⟨hstep.named hop.1 hv.1, hstep.records hv.1.books hop.2.1 hop.2.2 hv.2⟩)
    hrun
  refine ⟨Store.recovers_of_records layout' hnamed.books hrecords, fun o op hop hkeep => ?_⟩
  obtain ⟨hstep, layout''⟩ := step_view o hop hnamed.books layout'
  have hnamed' := (hstep.named hop hnamed).books
  constructor
  · intro hrecovers
    cases op with
    | storeChunk hash data =>
        intro hzero
        generalize hnext : (s.step o (.storeChunk hash data)).2 = next at *
        have hview : next.view dir = (s.view dir).storeChunk o hash data :=
          hstep.of_storeChunk.2
        obtain ⟨htext, hcounter⟩ := @storeChunk_unlimited o (s.view dir) hzero hash data
        have hstale : (diskOf dir next.fs).Records s.sm := by
          obtain ⟨entries, hperm, hmetadata⟩ := hrecords
          refine ⟨entries, hperm, ?_⟩
          rw [show diskOf dir next.fs = (next.view dir).disk from rfl, hview, htext]
          exact hmetadata
        have hold := (boot_sameBooks o layout'' hnamed.books hstale 0).accessCounter
        have hnew := (hrecovers o 0).2.2
        rw [hold, show next.sm = (next.view dir).sm from rfl, hview, hcounter] at hnew
        exact succ_ne_self _ hnew.symm
    | loadChunk hash => exact trivial
    | deleteChunk hash => exact trivial
    | setMaxBytes bytes => exact trivial
    | restart limit keepMetadata => exact trivial
  · intro hlimited
    exact Store.recovers_of_records layout'' hnamed'
      (hstep.records hnamed.books hkeep hlimited hrecords)

theorem recovers_one_store :
    ((Store.boot default (str "/peer") 10 bareDisk).2.step default
      (.storeChunk someId (str "data"))).2.Recovers := by
  have hlimit : (Store.boot default (str "/peer") 10 bareDisk).2.sm.maxBytes ≠ 0 := by
    decide +kernel
  exact (recovers_iff_stores_limited default bareDisk_empty 10
    (Runs.step default (.storeChunk someId (str "data")) Runs.start
      ⟨someId_hash, trivial, hlimit⟩)).1

/-- Without a limit the text still has the counters of the start. -/
theorem unlimited_store_lost :
    ¬ ∀ (o : Orders) (maxBytes : UInt64) (trace : Trace) (s : Store),
      Runs (fun _ op => op.HexId ∧ op.KeepsMetadata)
        (Store.boot o (str "/peer") maxBytes bareDisk).2 trace s → s.Recovers := by
  intro hall
  have hrecovers := hall default 0 _ _ (Runs.step default (.storeChunk someId (str "data"))
    Runs.start ⟨someId_hash, trivial⟩)
  exact absurd (hrecovers default 0).2.2 (by decide +kernel)

end DecentStore
