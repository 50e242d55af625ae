import DecentStore.Proof.TrackerSteps
import DecentStore.TrackerClient

/-!
# What the tracker answers

A reply is read as its non-empty lines. A listing of entries that are whole words reads back, so a
query answers with a list without repetition: the live entries, the live locations of a chunk, or
the chunks that have too few of them.
-/

namespace DecentStore

open Bytes Lease

def replyLines (reply : Bytes) : List Bytes := (TrackerClient.getLines reply).filter (· ≠ [])

theorem getLines_line {line : Bytes} (hline : newline ∉ line) (rest : Bytes) :
    TrackerClient.getLines (line ++ newline :: rest) = line :: TrackerClient.getLines rest := by
  induction line with
  | nil => rw [List.nil_append, TrackerClient.getLines, if_pos rfl]
  | cons b line ih =>
      have hb : b ≠ newline := fun h => hline (h ▸ List.mem_cons_self)
      rw [List.cons_append, TrackerClient.getLines, if_neg hb,
        ih fun hmem => hline (List.mem_cons_of_mem b hmem)]

theorem getLines_flatMap {lines : List Bytes} (hlines : ∀ l ∈ lines, newline ∉ l) :
    TrackerClient.getLines (lines.flatMap (· ++ str "\n")) = lines := by
  induction lines with
  | nil => rfl
  | cons line lines ih =>
      rw [List.flatMap_cons, str_newline, List.append_assoc, List.singleton_append,
        getLines_line (hlines line List.mem_cons_self), ← str_newline,
        ih fun l hl => hlines l (List.mem_cons_of_mem line hl)]

theorem newline_notMem_of_token {s : Bytes} (hs : Token s) : newline ∉ s := by
  intro hmem
  have hspace := hs.2 newline hmem
  exact absurd hspace (by decide)

theorem replyLines_listing {lines : List Bytes} (hlines : ∀ l ∈ lines, l ≠ [] ∧ newline ∉ l) :
    replyLines (Tracker.listing lines) = lines := by
  unfold replyLines Tracker.listing
  dsimp only
  split
  · rename_i hout
    have hnone : lines = [] := by
      apply List.eq_nil_iff_forall_not_mem.mpr
      intro l hl
      have hempty := List.flatMap_eq_nil_iff.mp hout l hl
      exact (hlines l hl).1 (List.append_eq_nil_iff.mp hempty).1
    rw [hnone]
    decide
  · rw [getLines_flatMap fun l hl => (hlines l hl).2]
    apply List.filter_eq_self.mpr
    intro l hl
    simpa using (hlines l hl).1

namespace Tracker

/-- A reply that lists the members of a set, each on one line. -/
def Lists (reply : Bytes) (members : Bytes → Prop) : Prop :=
  (replyLines reply).Nodup ∧ ∀ x, x ∈ replyLines reply ↔ members x

theorem lists_listing {lines : List Bytes} (hlines : ∀ l ∈ lines, Token l) (hnodup : lines.Nodup)
    {members : Bytes → Prop} (hmembers : ∀ x, x ∈ lines ↔ members x) :
    Lists (listing lines) members := by
  have hread := replyLines_listing fun l hl =>
    ⟨(hlines l hl).1, newline_notMem_of_token (hlines l hl)⟩
  exact ⟨hread.symm ▸ hnodup, fun x => hread.symm ▸ hmembers x⟩

theorem alive_iff {s : Tracker} {now : Int} {x : Bytes} :
    s.alive now x = true ↔ Live ttl now (s.lastSeen x) := by
  unfold alive lastSeen
  cases s.peers.lookup x with
  | none => simp [Live]
  | some info => simp [Live]

section Queries

variable {s : Tracker} (hs : s.Whole) (o : TrackerOrders)

include hs

/-- `GET_PEERS` lists the live entries, by the reading of the cleanup. -/
theorem getPeers_lists {now later : Int} (hnow : now ≤ later) :
    Lists (s.getPeers o now later).1 fun x => Live ttl later (s.lastSeen x) := by
  have hkeys : ∀ x, x ∈ (o.peers.order (s.pruneStaleAndCleanup later).peers.entries).map (·.1) ↔
      x ∈ (s.pruneStaleAndCleanup later).peers := by
    intro x
    rw [((o.peers.perm _).map _).mem_iff, AList.mem_keys]
    rfl
  unfold getPeers
  dsimp only
  rw [pruneStale_earlier hnow]
  apply lists_listing
  · intro x hx
    obtain ⟨ep, hep, rfl⟩ := (hs.pruneStaleAndCleanup later).peers x ((hkeys x).mp hx)
    exact hep.token
  · exact (((o.peers.perm _).map _).nodup_iff).mpr (AList.keys_nodup _)
  · intro x
    rw [hkeys, mem_peers_iff, lastSeen_pruneStaleAndCleanup, ← Option.isSome_iff_ne_none,
      isSome_expire]

theorem whereChunk_lists {iss : IStream} (hid : (iss.getString []).1 ≠ []) (now : Int) :
    Lists (s.whereChunk o now iss).1
      fun x => s.Located (iss.getString []).1 x ∧ Live ttl now (s.lastSeen x) := by
  unfold whereChunk
  dsimp only
  rw [if_neg hid]
  generalize (iss.getString []).1 = c
  cases hlocs : s.chunkIndex.lookup c with
  | none =>
      show Lists (listing []) _
      apply lists_listing
      · intro l hl
        cases hl
      · exact List.nodup_nil
      · intro x
        apply iff_of_false List.not_mem_nil
        rintro ⟨⟨locs, hsome, -⟩, -⟩
        rw [hlocs] at hsome
        cases hsome
  | some locs =>
      have hkeys : ∀ x, x ∈ o.locations.order locs.keys ↔ s.Located c x := by
        intro x
        rw [(o.locations.perm _).mem_iff, ← AList.mem_keys]
        constructor
        · intro hx
          exact ⟨locs, hlocs, hx⟩
        · rintro ⟨locs', hsome, hx⟩
          rw [hlocs] at hsome
          cases hsome
          exact hx
      show Lists (listing _) _
      apply lists_listing
      · intro x hx
        obtain ⟨ep, hep, rfl⟩ := hs.locations c x ((hkeys x).mp (List.mem_filter.mp hx).1)
        exact hep.token
      · exact (((o.locations.perm _).nodup_iff).mpr (AList.keys_nodup locs)).filter _
      · intro x
        rw [List.mem_filter, hkeys, alive_iff]

end Queries

/-- A chunk has a number of live locations. -/
def Counts (s : Tracker) (t : Int) (c : Bytes) (n : Nat) : Prop :=
  ∃ live : List Bytes, live.Nodup ∧ live.length = n ∧
    ∀ x, x ∈ live ↔ s.Located c x ∧ Live ttl t (s.lastSeen x)

theorem Counts.unique {s : Tracker} {t : Int} {c : Bytes} {m n : Nat} (hm : s.Counts t c m)
    (hn : s.Counts t c n) : m = n := by
  obtain ⟨some, hsome, rfl, hmem⟩ := hm
  obtain ⟨other, hother, rfl, hmem'⟩ := hn
  apply List.Perm.length_eq
  apply (List.perm_ext_iff_of_nodup hsome hother).mpr
  intro x
  rw [hmem, hmem']

theorem Counts.of_lists {s : Tracker} {t : Int} {c reply : Bytes}
    (hlists : Lists reply fun x => s.Located c x ∧ Live ttl t (s.lastSeen x)) :
    s.Counts t c (replyLines reply).length :=
  ⟨_, hlists.1, rfl, hlists.2⟩

theorem Counts.token {s : Tracker} (hs : s.Whole) {t : Int} {c : Bytes} {n : Nat}
    (hcounts : s.Counts t c n) (hn : 0 < n) : Token c := by
  obtain ⟨live, -, hlength, hlive⟩ := hcounts
  obtain ⟨x, hx⟩ := List.exists_mem_of_length_pos (hlength ▸ hn)
  obtain ⟨⟨locs, hlocs, -⟩, -⟩ := (hlive x).mp hx
  exact (hs.chunks c locs hlocs).1

/-- The count of the loop, which finds the chunk after the cleanup. -/
theorem counts_aliveCount {s : Tracker} {t : Int} {c : Bytes} {locs : Locations}
    (hlocs : (s.pruneStaleAndCleanup t).chunkIndex.lookup c = some locs) :
    s.Counts t c ((s.pruneStaleAndCleanup t).aliveCount locs) := by
  refine ⟨_, (AList.keys_nodup locs).filter _, rfl, ?_⟩
  intro x
  have hlocated : x ∈ locs ↔ (s.pruneStaleAndCleanup t).Located c x := by
    constructor
    · intro hx
      exact ⟨locs, hlocs, hx⟩
    · rintro ⟨locs', hsome, hx⟩
      rw [hlocs] at hsome
      cases hsome
      exact hx
  have hpeer : ((s.pruneStaleAndCleanup t).peers.lookup x).isSome ↔
      Live ttl t (s.lastSeen x) := by
    rw [AList.lookup_isSome, mem_peers_iff, lastSeen_pruneStaleAndCleanup,
      ← Option.isSome_iff_ne_none, isSome_expire]
  rw [List.mem_filter, ← AList.mem_keys, hlocated, hpeer, located_pruneStaleAndCleanup]
  constructor
  · rintro ⟨⟨hbefore, -⟩, hlive⟩
    exact ⟨hbefore, hlive⟩
  · rintro ⟨hbefore, hlive⟩
    exact ⟨⟨hbefore, fun hstale => hstale.not_live hlive⟩, hlive⟩

/-- The rows without the limit. -/
def owedRows (s : Tracker) (desired : Int) (chunks : List (Σ _ : Bytes, Locations)) :
    List (Bytes × Nat) :=
  (chunks.map fun kv => (kv.1, s.aliveCount kv.2)).filter fun row => 0 < row.2 ∧ row.2 < desired

theorem repairRows_eq (s : Tracker) (desired : Int) {limit sent : Int} (hsent : sent < limit)
    (chunks : List (Σ _ : Bytes, Locations)) :
    repairRows s desired limit sent chunks =
      (s.owedRows desired chunks).take (limit - sent).toNat := by
  induction chunks generalizing sent with
  | nil => simp [repairRows, owedRows]
  | cons kv chunks ih =>
      have hrows : s.owedRows desired (kv :: chunks) =
          if 0 < s.aliveCount kv.2 ∧ s.aliveCount kv.2 < desired then
            (kv.1, s.aliveCount kv.2) :: s.owedRows desired chunks
          else s.owedRows desired chunks := by
        simp only [owedRows, List.map_cons, List.filter_cons, decide_eq_true_eq]
      rw [hrows, repairRows]
      split
      · split
        · have hone : (limit - sent).toNat = 1 := by omega
          rw [hone, List.take_succ_cons, List.take_zero]
        · have hmore : (limit - sent).toNat = (limit - (sent + 1)).toNat + 1 := by omega
          rw [ih (by omega), hmore, List.take_succ_cons]
      · exact ih hsent

def repairArgs (iss : IStream) : Int × Int :=
  let (desired, iss) := iss.getInt 0
  let (limit, _) := iss.getInt 0
  (if desired ≤ 0 then 2 else desired, if limit ≤ 0 then 50 else limit)

theorem repairArgs_limit_pos (iss : IStream) : 0 < (repairArgs iss).2 := by
  unfold repairArgs
  dsimp only
  split <;> omega

theorem nodup_owedRows (s : Tracker) (desired : Int) {chunks : List (Σ _ : Bytes, Locations)}
    (hchunks : (chunks.map (·.1)).Nodup) : ((s.owedRows desired chunks).map (·.1)).Nodup := by
  have hsub : (s.owedRows desired chunks).Sublist
      (chunks.map fun kv => (kv.1, s.aliveCount kv.2)) := List.filter_sublist
  apply (hsub.map (·.1)).nodup
  rw [List.map_map]
  exact hchunks

theorem mem_owedRows {s : Tracker} {desired : Int} {chunks : List (Σ _ : Bytes, Locations)}
    {c : Bytes} {n : Nat} :
    (c, n) ∈ s.owedRows desired chunks ↔
      (∃ locs, ⟨c, locs⟩ ∈ chunks ∧ s.aliveCount locs = n) ∧ 0 < n ∧ (n : Int) < desired := by
  unfold owedRows
  rw [List.mem_filter, List.mem_map, decide_eq_true_eq]
  apply and_congr_left
  intro _
  constructor
  · rintro ⟨⟨c', locs⟩, hmem, hrow⟩
    cases hrow
    exact ⟨locs, hmem, rfl⟩
  · rintro ⟨locs, hmem, rfl⟩
    exact ⟨⟨c, locs⟩, hmem, rfl⟩

theorem repairLine_line {row : Bytes × Nat} (hid : Token row.1) :
    repairLine row ≠ [] ∧ newline ∉ repairLine row := by
  unfold repairLine
  refine ⟨by simp [hid.1], ?_⟩
  intro hmem
  rcases List.mem_append.mp hmem with hleading | hnumber
  · rcases List.mem_append.mp hleading with hchunk | hblank
    · exact newline_notMem_of_token hid hchunk
    · exact absurd hblank (by decide)
  · exact newline_notMem_of_token (decimal_token row.2) hnumber

/-- `NEED_REPAIR` answers with rows of distinct chunks and their counts, all of them or as many as
the limit allows. -/
theorem needRepair_rows {s : Tracker} (hs : s.Whole) (o : TrackerOrders) (later : Int)
    (iss : IStream) :
    ∃ rows : List (Bytes × Nat), (rows.map (·.1)).Nodup ∧
      (∀ c n, (c, n) ∈ rows ↔ s.Counts later c n ∧ 0 < n ∧ (n : Int) < (repairArgs iss).1) ∧
      replyLines (s.needRepair o later iss).1 =
        (rows.take (repairArgs iss).2.toNat).map repairLine := by
  have hs' := hs.pruneStaleAndCleanup later
  have hwalk : ∀ c locs, (⟨c, locs⟩ : Σ _ : Bytes, Locations) ∈
      o.chunkIndex.order (s.pruneStaleAndCleanup later).chunkIndex.entries ↔
        (s.pruneStaleAndCleanup later).chunkIndex.lookup c = some locs := by
    intro c locs
    rw [(o.chunkIndex.perm _).mem_iff, AList.lookup_eq_some]
  refine ⟨(s.pruneStaleAndCleanup later).owedRows (repairArgs iss).1
    (o.chunkIndex.order (s.pruneStaleAndCleanup later).chunkIndex.entries), ?_, ?_, ?_⟩
  · apply nodup_owedRows
    exact (((o.chunkIndex.perm _).map _).nodup_iff).mpr (AList.keys_nodup _)
  · intro c n
    rw [mem_owedRows]
    apply and_congr_left
    rintro ⟨hpos, -⟩
    constructor
    · rintro ⟨locs, hmem, rfl⟩
      exact counts_aliveCount ((hwalk c locs).mp hmem)
    · intro hcounts
      obtain ⟨live, -, hlength, hlive⟩ := id hcounts
      obtain ⟨x, hx⟩ := List.exists_mem_of_length_pos (hlength ▸ hpos)
      obtain ⟨hlocated, hseen⟩ := (hlive x).mp hx
      obtain ⟨locs, hlocs, -⟩ := (located_pruneStaleAndCleanup s later c x).mpr
        ⟨hlocated, fun hstale => hstale.not_live hseen⟩
      exact ⟨locs, (hwalk c locs).mpr hlocs, (counts_aliveCount hlocs).unique hcounts⟩
  · have hreply : (s.needRepair o later iss).1 =
        listing ((repairRows (s.pruneStaleAndCleanup later) (repairArgs iss).1
          (repairArgs iss).2 0
            (o.chunkIndex.order (s.pruneStaleAndCleanup later).chunkIndex.entries)).map
              repairLine) := rfl
    rw [hreply, repairRows_eq _ _ (repairArgs_limit_pos iss), sub_zero]
    apply replyLines_listing
    intro l hl
    obtain ⟨⟨c, n⟩, hrow, rfl⟩ := List.mem_map.mp hl
    obtain ⟨⟨locs, hmem, -⟩, -⟩ := mem_owedRows.mp (List.mem_of_mem_take hrow)
    exact repairLine_line (hs'.chunks c locs ((hwalk c locs).mp hmem)).1

def command (line : Bytes) : Bytes := (IStream.getString ⟨line, false⟩ []).1

def arguments (line : Bytes) : IStream := (IStream.getString ⟨line, false⟩ []).2

section Commands

variable (s : Tracker) (o : TrackerOrders) (now later : Int) {line : Bytes}

/-- The commands are told apart one after the other. -/
theorem answer_eq : s.answer o now later line =
    if command line = str "REGISTER" then register now (arguments line) s
    else if command line = str "HEARTBEAT" then heartbeat now (arguments line) s
    else if command line = str "ANNOUNCE" then announce (arguments line) s
    else if command line = str "WHERE" then whereChunk o now (arguments line) s
    else if command line = str "NEED_REPAIR" then needRepair o later (arguments line) s
    else if command line = str "GET_PEERS" then getPeers o now later s
    else (str "ERR unknown command\n", s) := rfl

theorem answer_whereChunk (hcmd : command line = str "WHERE") :
    s.answer o now later line = s.whereChunk o now (arguments line) := by
  rw [answer_eq, hcmd, if_neg (by decide), if_neg (by decide), if_neg (by decide), if_pos rfl]

theorem answer_needRepair (hcmd : command line = str "NEED_REPAIR") :
    s.answer o now later line = s.needRepair o later (arguments line) := by
  rw [answer_eq, hcmd, if_neg (by decide), if_neg (by decide), if_neg (by decide),
    if_neg (by decide), if_pos rfl]

theorem answer_getPeers (hcmd : command line = str "GET_PEERS") :
    s.answer o now later line = s.getPeers o now later := by
  rw [answer_eq, hcmd, if_neg (by decide), if_neg (by decide), if_neg (by decide),
    if_neg (by decide), if_neg (by decide), if_pos rfl]

end Commands

end Tracker

end DecentStore
