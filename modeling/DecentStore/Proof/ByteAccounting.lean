import DecentStore.Proof.StoreCalls
import DecentStore.Proof.StoreFidelity

/-!
# The byte counter

`usedBytes_` is unsigned and is subtracted from in three places. Two of them compare first; the loop
of `enforceLimit` does not. Its subtraction is safe as long as the counter covers the recorded
sizes, whatever the disk does. But the header of a metadata text need not cover its entries, and a
store that fails has taken the size of its id off the counter and left the entry.
-/

namespace DecentStore

open Bytes Posix Interaction

/-! ### Safe subtractions -/

/-- The counter is at least the sum of the recorded sizes. -/
def Covers (sm : StorageManager) : Prop := totalSize sm.metaMap.entries ≤ sm.usedBytes.toNat

instance (sm : StorageManager) : Decidable (Covers sm) := inferInstanceAs (Decidable (_ ≤ _))

namespace StorageManager

variable (o : Orders)

/-- In each iteration of the loop the victim's size is at most the counter. -/
def EvictionsSafe : Nat → StorageManager → Prop
  | 0, _ => True
  | fuel + 1, sm =>
      sm.maxBytes < sm.usedBytes → ∀ victim, lruVictim o sm = some victim →
        victim.2.size ≤ sm.usedBytes ∧ EvictionsSafe fuel { sm with
          usedBytes := sm.usedBytes - victim.2.size
          metaMap := sm.metaMap.erase victim.1 }

def LimitSafe (sm : StorageManager) : Prop :=
  sm.maxBytes ≠ 0 → EvictionsSafe o sm.metaMap.entries.length sm

end StorageManager

section Covers

variable {o : Orders} {sm : StorageManager} {hash : Bytes}

theorem totalSize_erase (metaMap : MetaMap) (hash : Bytes) :
    totalSize metaMap.entries = ((metaMap.lookup hash).map fun m => m.size.toNat).getD 0 +
      totalSize (metaMap.erase hash).entries := by
  cases hlookup : metaMap.lookup hash with
  | none =>
      rw [MetaMap.erase_of_lookup hlookup]
      exact (Nat.zero_add _).symm
  | some m => exact MetaMap.totalSize_of_lookup hlookup

theorem Covers.victim (hcovers : Covers sm) {victim : MetaEntry}
    (hvictim : sm.lruVictim o = some victim) :
    victim.2.size ≤ sm.usedBytes ∧ Covers { sm with
      usedBytes := sm.usedBytes - victim.2.size
      metaMap := sm.metaMap.erase victim.1 } := by
  have hmem := (lruVictim_spec hvictim).1
  have htotal := MetaMap.totalSize_of_lookup (AList.mem_lookup_iff.mpr hmem)
  unfold Covers at hcovers ⊢
  have hle : victim.2.size ≤ sm.usedBytes := UInt64.le_iff_toNat_le.mpr (by omega)
  refine ⟨hle, ?_⟩
  rw [UInt64.toNat_sub_of_le _ _ hle]
  change totalSize (sm.metaMap.erase victim.1).entries ≤ _
  omega

theorem Covers.evictionsSafe (hcovers : Covers sm) (fuel : Nat) :
    sm.EvictionsSafe o fuel ∧ Covers (sm.evicted o fuel) := by
  induction fuel generalizing sm with
  | zero => exact ⟨trivial, hcovers⟩
  | succ fuel ih =>
      unfold StorageManager.EvictionsSafe StorageManager.evicted
      cases hvictim : sm.lruVictim o with
      | none =>
          constructor
          · intro _ victim hsome
            cases hsome
          · split <;> exact hcovers
      | some victim =>
          obtain ⟨hle, hnext⟩ := hcovers.victim hvictim
          refine ⟨fun _ other hsome => ?_, ?_⟩
          · cases hsome
            exact ⟨hle, (ih hnext).1⟩
          · split
            · exact (ih hnext).2
            · exact hcovers

theorem Covers.limitSafe (hcovers : Covers sm) (o : Orders) : sm.LimitSafe o :=
  fun _ => (hcovers.evictionsSafe _).1

theorem Covers.limited (hcovers : Covers sm) (o : Orders) : Covers (sm.limited o) := by
  unfold StorageManager.limited
  split
  · exact hcovers
  · exact (hcovers.evictionsSafe _).2

theorem Covers.usedBytes_release (hcovers : Covers sm) (hash : Bytes) :
    (sm.release hash).usedBytes.toNat =
      sm.usedBytes.toNat - ((sm.metaMap.lookup hash).map fun m => m.size.toNat).getD 0 := by
  have htotal := totalSize_erase sm.metaMap hash
  unfold Covers at hcovers
  unfold StorageManager.release
  cases hlookup : sm.metaMap.lookup hash with
  | none => exact (Nat.sub_zero _).symm
  | some m =>
      rw [hlookup, Option.map_some, Option.getD_some] at htotal
      have hle : m.size ≤ sm.usedBytes := UInt64.le_iff_toNat_le.mpr (by omega)
      simp only [if_pos hle, Option.map_some, Option.getD_some]
      exact UInt64.toNat_sub_of_le _ _ hle

theorem Covers.deleted (hcovers : Covers sm) (hash : Bytes) : Covers (sm.deleted hash) := by
  have htotal := totalSize_erase sm.metaMap hash
  have hused := hcovers.usedBytes_release hash
  unfold Covers at hcovers ⊢
  unfold StorageManager.deleted
  simp only [hused]
  omega

theorem Covers.touch (hcovers : Covers sm) (hash : Bytes) : Covers (sm.touch hash) := by
  unfold StorageManager.touch
  cases hlookup : sm.metaMap.lookup hash with
  | none => exact hcovers
  | some m =>
      have htotal := MetaMap.totalSize_of_lookup hlookup
      unfold Covers at hcovers ⊢
      rw [AList.entries_insert, totalSize, Lru.total_cons]
      unfold totalSize at htotal hcovers
      exact htotal ▸ hcovers

theorem totals_stored {data : Bytes}
    (hfits : (sm.release hash).usedBytes.toNat + data.length < 2 ^ 64) :
    (sm.stored hash data).usedBytes.toNat = (sm.release hash).usedBytes.toNat + data.length ∧
      totalSize (sm.stored hash data).metaMap.entries =
        data.length + totalSize (sm.metaMap.erase hash).entries := by
  have hsize : (UInt64.ofNat data.length).toNat = data.length :=
    UInt64.toNat_ofNat_of_lt' (show data.length < 2 ^ 64 by omega)
  unfold StorageManager.stored StorageManager.record
  simp only [StorageManager.metaMap_release, AList.entries_insert]
  rw [UInt64.toNat_add, hsize, Nat.mod_eq_of_lt hfits, totalSize, Lru.total_cons]
  refine ⟨rfl, ?_⟩
  change (UInt64.ofNat data.length).toNat + totalSize (sm.metaMap.erase hash).entries = _
  rw [hsize]

theorem Covers.stored (hcovers : Covers sm) {data : Bytes}
    (hfits : (sm.release hash).usedBytes.toNat + data.length < 2 ^ 64) :
    Covers (sm.stored hash data) := by
  have htotal := totalSize_erase sm.metaMap hash
  have hused := hcovers.usedBytes_release hash
  obtain ⟨hstored, hentries⟩ := totals_stored hfits
  unfold Covers at hcovers ⊢
  omega

end Covers

/-- A scan counts every file, also one that it meets twice. -/
theorem covers_foldl_addScanned (files : List (Bytes × Nat)) {sm : StorageManager}
    (hcovers : Covers sm)
    (hbytes : sm.usedBytes.toNat + (files.map Prod.snd).sum < 2 ^ 64) :
    Covers (files.foldl StorageManager.addScanned sm) := by
  induction files generalizing sm with
  | nil => exact hcovers
  | cons file files ih =>
      simp only [List.map_cons, List.sum_cons] at hbytes
      have hsize : (UInt64.ofNat file.2).toNat = file.2 :=
        UInt64.toNat_ofNat_of_lt' (show file.2 < 2 ^ 64 by omega)
      have hused : (sm.addScanned file).usedBytes.toNat = sm.usedBytes.toNat + file.2 := by
        rw [StorageManager.addScanned, UInt64.toNat_add, hsize, Nat.mod_eq_of_lt (by omega)]
      refine ih ?_ (by omega)
      have htotal := totalSize_erase sm.metaMap file.1
      unfold Covers at hcovers ⊢
      rw [hused, StorageManager.addScanned, AList.entries_insert]
      change (UInt64.ofNat file.2).toNat + totalSize (sm.metaMap.erase file.1).entries ≤ _
      omega

theorem covers_of_scan (o : Orders) (base : Bytes) (maxBytes : UInt64)
    {files : List (Bytes × Nat)} (hbytes : (files.map Prod.snd).sum < 2 ^ 64) :
    Covers ((o.directory.order files).foldl StorageManager.addScanned
      (StorageManager.cleared (.fresh base maxBytes))) := by
  have hsum := ((o.directory.perm files).map Prod.snd).sum_eq
  have hzero : (StorageManager.cleared (.fresh base maxBytes)).usedBytes.toNat = 0 := rfl
  exact covers_foldl_addScanned _ (Nat.zero_le _) (by omega)

/-! ### Runs on any environment -/

section Runs

variable {σ : Type} (h : Handler FsReply σ) (o : Orders)

/-- The operation as a program that returns the object. -/
def StoreOp.prog (sm : StorageManager) : StoreOp → FsProg StorageManager
  | .storeChunk hash data => sm.storeChunk o hash data
  | .loadChunk hash => do
      let (_, sm) ← sm.loadChunk o hash
      pure sm
  | .deleteChunk hash => sm.deleteChunk o hash
  | .setMaxBytes bytes => sm.setMaxBytes o bytes
  | .restart maxBytes _ => StorageManager.init o (.fresh sm.baseDir maxBytes)

def StoreOp.outcome (op : StoreOp) (s : StorageManager × σ) : Bool × StorageManager × σ :=
  match (op.prog o s.1).run h s.2 with
  | (.ok sm, env) => (true, sm, env)
  | (.error (_, sm), env) => (false, sm, env)

/-- The subtractions of an operation that may go below zero: those of the loop, if it is reached. -/
def StoreOp.NeverWraps (op : StoreOp) (s : StorageManager × σ) : Prop :=
  match op with
  | .storeChunk hash data =>
      ((StoreOp.storeChunk hash data).outcome h o s).1 = true →
        (s.1.stored hash data).LimitSafe o
  | .setMaxBytes bytes => StorageManager.LimitSafe o { s.1 with maxBytes := bytes }
  | _ => True

/-- The runs of stores, loads, deletes and new limits, on any environment. -/
inductive AccountRun (allowed : StorageManager → StoreOp → Bool → Prop)
    (start : StorageManager × σ) : StorageManager × σ → Prop where
  | start : AccountRun allowed start start
  | step {s : StorageManager × σ} (o : Orders) (op : StoreOp) (hrun : AccountRun allowed start s)
      (hop : allowed s.1 op (op.outcome h o s).1) :
      AccountRun allowed start (op.outcome h o s).2

/-- A store that returns fits the counter. -/
def StoreOp.Counts (sm : StorageManager) (op : StoreOp) (returned : Bool) : Prop :=
  match op with
  | .storeChunk hash data =>
      returned = true → (sm.release hash).usedBytes.toNat + data.length < 2 ^ 64
  | .restart _ _ => False
  | _ => True

/-- A store that throws leaves the entry of its id in the map. The counter has to cover it twice. -/
def StoreOp.Spares (sm : StorageManager) (op : StoreOp) (returned : Bool) : Prop :=
  match op with
  | .storeChunk hash _ => returned = false → hash ≠ [] → ∀ m, sm.metaMap.lookup hash = some m →
      totalSize sm.metaMap.entries + m.size.toNat ≤ sm.usedBytes.toNat
  | _ => True

def StoreOp.Accounts (sm : StorageManager) (op : StoreOp) (returned : Bool) : Prop :=
  op.Counts sm returned ∧ op.Spares sm returned

variable {h o}

theorem StoreOp.outcome_storeChunk {sm : StorageManager} {hash : Bytes} (hne : hash ≠ [])
    (data : Bytes) (env : σ) :
    (∃ env', (StoreOp.storeChunk hash data).outcome h o (sm, env) =
        (true, (sm.stored hash data).limited o, env')) ∨
      ∃ env', (StoreOp.storeChunk hash data).outcome h o (sm, env) =
        (false, sm.release hash, env') := by
  have hrun := StorageManager.run_storeChunk h o sm hne data env
  unfold StoreOp.outcome StoreOp.prog
  simp only [hrun]
  rcases h (.truncate ((sm.release hash).tmpPath hash)) env with ⟨_ | _, env₁⟩
  · exact Or.inr ⟨_, rfl⟩
  simp only
  rcases h (.rename ((sm.release hash).tmpPath hash) ((sm.release hash).chunkPath hash))
    (h (.append ((sm.release hash).tmpPath hash) data) env₁).2 with ⟨_ | _, env₂⟩
  · exact Or.inr ⟨_, rfl⟩
  · obtain ⟨env₃, hlimit⟩ := StorageManager.run_enforceLimit h o (sm.stored hash data) env₂
    simp only [hlimit]
    exact Or.inl ⟨_, rfl⟩

theorem Covers.step {s : StorageManager × σ} (hcovers : Covers s.1) {op : StoreOp}
    (hop : op.Accounts s.1 (op.outcome h o s).1) : Covers (op.outcome h o s).2.1 := by
  obtain ⟨sm, env⟩ := s
  obtain ⟨hcounts, hspares⟩ := hop
  cases op with
  | storeChunk hash data =>
      by_cases hne : hash = []
      · subst hne
        exact hcovers
      rcases @StoreOp.outcome_storeChunk σ h o sm hash hne data env with
        ⟨env', hrun⟩ | ⟨env', hrun⟩
      · rw [hrun] at hcounts ⊢
        exact (hcovers.stored (hcounts rfl)).limited o
      · rw [hrun] at hspares ⊢
        have hused := hcovers.usedBytes_release hash
        unfold Covers at hcovers ⊢
        simp only [StorageManager.metaMap_release, hused]
        cases hlookup : sm.metaMap.lookup hash with
        | none => simpa using hcovers
        | some m =>
            have hspare := hspares rfl hne m hlookup
            simp only at hspare
            simp only [Option.map_some, Option.getD_some]
            omega
  | loadChunk hash =>
      unfold StoreOp.outcome StoreOp.prog
      rcases StorageManager.run_loadChunk h o sm hash env with ⟨e, env', hrun⟩ | ⟨data, env', hrun⟩
      · rw [Prog.run_bind_of_error hrun]
        exact hcovers
      · rw [Prog.run_bind_of_ok hrun]
        exact hcovers.touch hash
  | deleteChunk hash =>
      obtain ⟨env', hrun⟩ := StorageManager.run_deleteChunk h o sm hash env
      unfold StoreOp.outcome StoreOp.prog
      simp only [hrun]
      exact hcovers.deleted hash
  | setMaxBytes bytes =>
      have hbooks : Covers { sm with maxBytes := bytes } := hcovers
      obtain ⟨env', hrun⟩ :=
        StorageManager.run_enforceLimit h o { sm with maxBytes := bytes } env
      unfold StoreOp.outcome StoreOp.prog StorageManager.setMaxBytes
      simp only [hrun]
      exact hbooks.limited o
  | restart maxBytes keepMetadata => exact hcounts.elim

theorem Covers.neverWraps {s : StorageManager × σ} (hcovers : Covers s.1) {op : StoreOp}
    (hop : op.Counts s.1 (op.outcome h o s).1) : op.NeverWraps h o s := by
  cases op with
  | storeChunk hash data => exact fun hreturned => (hcovers.stored (hop hreturned)).limitSafe o
  | setMaxBytes bytes =>
      have hbooks : Covers { s.1 with maxBytes := bytes } := hcovers
      exact hbooks.limitSafe o
  | loadChunk hash => trivial
  | deleteChunk hash => trivial
  | restart maxBytes keepMetadata => trivial

theorem covers_of_accountRun {start s : StorageManager × σ} (hstart : Covers start.1)
    (hrun : AccountRun h StoreOp.Accounts start s) : Covers s.1 := by
  induction hrun with
  | start => exact hstart
  | step o op hrun hop ih => exact ih.step hop

/-! ### From the start on -/

/-- What a start finds is covered: the header of a text that is read counts at least the sizes of
its entries, and files that are scanned for want of one have fewer than `2 ^ 64` bytes. -/
def FoundCovered (h : Handler FsReply σ) (sm : StorageManager) (env : σ) : Prop :=
  let env := (h (.createDirectories sm.baseDir) env).2
  let env := (h (.createDirectories sm.chunksDir) env).2
  let env := (h (.createDirectories sm.manifestsDir) env).2
  let scanned := ∀ files, (h (.list sm.chunksDir) (h (.read sm.metaPath) env).2).1 = some files →
    (files.map Prod.snd).sum < 2 ^ 64
  match (h (.read sm.metaPath) env).1 with
  | .file text | .unseekable text => (sm.parseMetadata text).elim scanned Covers
  | _ => scanned

theorem foundCovered_of_text {sm sm' : StorageManager} {env : σ} {text : Bytes}
    (hread : (h (.read sm.metaPath) (h (.createDirectories sm.manifestsDir)
      (h (.createDirectories sm.chunksDir)
        (h (.createDirectories sm.baseDir) env).2).2).2).1 = .file text)
    (hparse : sm.parseMetadata text = some sm') (hcovers : Covers sm') :
    FoundCovered h sm env := by
  simp only [FoundCovered, hread, hparse]
  exact hcovers

theorem covers_of_rebuild {base : Bytes} {maxBytes : UInt64} {env env' : σ} {sm' : StorageManager}
    (hscanned : ∀ files, (h (.list (StorageManager.fresh base maxBytes).chunksDir) env).1 =
      some files → (files.map Prod.snd).sum < 2 ^ 64)
    (hrun : (StorageManager.rebuildMetadataFromDisk o (.fresh base maxBytes)).run h env =
      (.ok sm', env')) : Covers sm' := by
  unfold StorageManager.rebuildMetadataFromDisk Fs.list at hrun
  rw [Prog.run_bind_of_ok (Prog.run_ask h env _)] at hrun
  cases hlist : (h (.list (StorageManager.fresh base maxBytes).chunksDir) env).1 with
  | none =>
      rw [hlist] at hrun
      cases hrun
      exact Nat.zero_le _
  | some files =>
      rw [hlist] at hrun
      obtain ⟨env₁, hpersist⟩ := StorageManager.run_persistMetadata h o
        ((o.directory.order files).foldl StorageManager.addScanned
          (StorageManager.cleared (.fresh base maxBytes)))
        (h (.list (StorageManager.fresh base maxBytes).chunksDir) env).2
      simp only [Prog.run_bind_of_ok hpersist] at hrun
      cases hrun
      exact covers_of_scan o base maxBytes (hscanned files hlist)

theorem covers_of_init {base : Bytes} {maxBytes : UInt64} {env env' : σ} {sm' : StorageManager}
    (hfound : FoundCovered h (.fresh base maxBytes) env)
    (hrun : (StorageManager.init o (.fresh base maxBytes)).run h env = (.ok sm', env')) :
    Covers sm' := by
  unfold FoundCovered at hfound
  simp only [StorageManager.init, StorageManager.loadMetadata, Fs.createDirectories, Fs.read,
    Prog.run_bind, Prog.run_ask] at hfound hrun
  generalize (h (.createDirectories _) _).2 = env₁ at hfound hrun
  cases hread : (h (.read (StorageManager.fresh base maxBytes).metaPath) env₁).1 with
  | absent =>
      rw [hread] at hfound hrun
      exact covers_of_rebuild hfound hrun
  | directory size =>
      rw [hread] at hfound hrun
      exact covers_of_rebuild hfound hrun
  | file text | unseekable text =>
      rw [hread] at hfound hrun
      simp only at hfound hrun
      cases hparse : (StorageManager.fresh base maxBytes).parseMetadata text with
      | none =>
          rw [hparse] at hfound hrun
          exact covers_of_rebuild hfound hrun
      | some sm =>
          rw [hparse] at hfound hrun
          cases hrun
          exact hfound

/-- **The counter never wraps while it covers the sizes.** If what is found at the start is covered,
and every store that throws has left the counter large enough, no operation subtracts more than
there is, whatever the environment does. -/
theorem accounting_never_wraps (h : Handler FsReply σ) {o₀ : Orders} {base : Bytes}
    {maxBytes : UInt64} {env env₀ : σ} {sm₀ : StorageManager}
    (hinit : (StorageManager.init o₀ (.fresh base maxBytes)).run h env = (.ok sm₀, env₀))
    (hfound : FoundCovered h (.fresh base maxBytes) env) {s : StorageManager × σ}
    (hrun : AccountRun h StoreOp.Accounts (sm₀, env₀) s) (o : Orders) (op : StoreOp)
    (hop : op.Counts s.1 (op.outcome h o s).1) : op.NeverWraps h o s :=
  (covers_of_accountRun (covers_of_init hfound hinit) hrun).neverWraps hop

end Runs

/-! ### A header that counts too little -/

def textDisk (text : Bytes) : FileSystem where
  cwd := []
  dirs := [[str "peer"], chunksAt [str "peer"], manifestsAt [str "peer"]]
  files := AList.insert (metadataAt [str "peer"]) text ∅

def textPeer (text : Bytes) : Store := (Store.boot default (str "/peer") 0 (textDisk text)).2

theorem Store.run_of_boot {o : Orders} {base : Bytes} {maxBytes : UInt64} {fs : FileSystem}
    (hdone : (Store.boot o base maxBytes fs).1 = .done) :
    (StorageManager.init o (.fresh base maxBytes)).run FileSystem.handle fs =
      (.ok (Store.boot o base maxBytes fs).2.sm, (Store.boot o base maxBytes fs).2.fs) := by
  unfold Store.boot Store.exec at hdone ⊢
  change (StorageManager.init o { baseDir := base, maxBytes := maxBytes }).run _ fs = _
  split at hdone
  · rename_i hrun
    rw [hrun]
  · cases hdone

theorem textPeer_init {text : Bytes}
    (hdone : (Store.boot default (str "/peer") 0 (textDisk text)).1 = .done) :
    (StorageManager.init default (.fresh (str "/peer") 0)).run FileSystem.handle (textDisk text) =
      (.ok (textPeer text).sm, (textPeer text).fs) := by
  unfold textPeer
  exact Store.run_of_boot hdone

/-- A header of 100 bytes for a chunk of 100. -/
theorem fair_header_never_wraps :
    (StoreOp.setMaxBytes 1).NeverWraps FileSystem.handle default
      ((textPeer (str "1 100\nA 100 1\n")).sm, (textPeer (str "1 100\nA 100 1\n")).fs) := by
  have hparse : ((StorageManager.fresh (str "/peer") 0).parseMetadata
      (str "1 100\nA 100 1\n")).isSome := by decide +kernel
  have hdone : (Store.boot default (str "/peer") 0 (textDisk (str "1 100\nA 100 1\n"))).1 =
      .done := by decide +kernel
  have hcovers : Covers (((StorageManager.fresh (str "/peer") 0).parseMetadata
      (str "1 100\nA 100 1\n")).get hparse) := by decide +kernel +revert
  have hfound := @foundCovered_of_text _ FileSystem.handle _ _
    (textDisk (str "1 100\nA 100 1\n")) _ (by decide +kernel) (Option.some_get hparse).symm hcovers
  exact accounting_never_wraps FileSystem.handle (textPeer_init hdone) hfound
    AccountRun.start default (.setMaxBytes 1) trivial

/-- A header of 10 bytes for a chunk of 100: the first eviction subtracts 100 from 10. -/
theorem stale_header_wraps :
    ¬ ∀ (o₀ o : Orders) (base : Bytes) (maxBytes : UInt64) (fs fs₀ : FileSystem)
        (sm₀ : StorageManager) (s : StorageManager × FileSystem) (op : StoreOp),
      (StorageManager.init o₀ (.fresh base maxBytes)).run FileSystem.handle fs = (.ok sm₀, fs₀) →
      totalSize sm₀.metaMap.entries < 2 ^ 64 →
      AccountRun FileSystem.handle StoreOp.Counts (sm₀, fs₀) s →
      op.Counts s.1 (op.outcome FileSystem.handle o s).1 →
      op.NeverWraps FileSystem.handle o s := by
  intro hall
  have hsafe := hall default default (str "/peer") 0 (textDisk (str "1 10\nA 100 1\n")) _ _ _
    (.setMaxBytes 1) (textPeer_init (by decide +kernel)) (by decide +kernel) AccountRun.start
    trivial
  have hvictim : ((textPeer (str "1 10\nA 100 1\n")).sm.lruVictim default).isSome := by
    decide +kernel
  have hle := (hsafe (by decide) (by decide +kernel) _ (Option.some_get hvictim).symm).1
  revert hle
  decide +kernel +revert

end DecentStore
