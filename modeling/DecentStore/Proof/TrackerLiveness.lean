import DecentStore.Proof.TrackerHistory

/-!
# The tracker's answers about liveness

`GET_PEERS`, `WHERE` and `NEED_REPAIR` test liveness in three places, two of which erase. Asked at
the same time they agree, whatever was erased before.
-/

namespace DecentStore

open Bytes Lease

namespace Tracker

def whereLines (s : Tracker) (o : TrackerOrders) (t : Int) (c : Bytes) : List Bytes :=
  replyLines (s.answer o t t (str "WHERE " ++ c)).1

def repairRequest (desired limit : Int) : Bytes :=
  str "NEED_REPAIR " ++ decimalInt desired ++ str " " ++ decimalInt limit

section Lines

variable {s : Tracker}

theorem command_word {word rest : Bytes} (hword : Token word) :
    command (word ++ 32 :: rest) = word ∧ arguments (word ++ 32 :: rest) = ⟨32 :: rest, false⟩ := by
  have hread := IStream.getString_token hword (IStream.atBreak_cons (b := 32) (by decide) rest) []
  exact ⟨congrArg Prod.fst hread, congrArg Prod.snd hread⟩

theorem where_lists (hs : s.Whole) (o : TrackerOrders) (now later : Int) {c : Bytes}
    (hc : Token c) :
    Lists (s.answer o now later (str "WHERE " ++ c)).1
      fun x => s.Located c x ∧ Live ttl now (s.lastSeen x) := by
  have hline : str "WHERE " ++ c = str "WHERE" ++ 32 :: c := rfl
  obtain ⟨hcmd, hargs⟩ := @command_word (str "WHERE") c (by decide)
  have hid : ((⟨32 :: c, false⟩ : IStream).getString []).1 = c := by
    have hread := IStream.getString_token hc IStream.atBreak_nil []
    rw [List.append_nil] at hread
    rw [IStream.getString_space (by decide), hread]
  have hlists := @whereChunk_lists s hs o ⟨32 :: c, false⟩ (by rw [hid]; exact hc.1) now
  rw [hid] at hlists
  rw [hline, answer_whereChunk s o now later hcmd, hargs]
  exact hlists

theorem whereLines_counts (hs : s.Whole) (o : TrackerOrders) (t : Int) {c : Bytes} (hc : Token c) :
    s.Counts t c (s.whereLines o t c).length :=
  Counts.of_lists (where_lists hs o t t hc)

theorem repairArgs_repairRequest {desired limit : Int} (hdesired : 0 < desired)
    (hdesired' : desired < 2 ^ 31) (hlimit : 0 < limit) (hlimit' : limit < 2 ^ 31) :
    command (repairRequest desired limit) = str "NEED_REPAIR" ∧
      repairArgs (arguments (repairRequest desired limit)) = (desired, limit) := by
  have hline : repairRequest desired limit = str "NEED_REPAIR" ++
      32 :: (decimal desired.toNat ++ 32 :: decimal limit.toNat) := by
    rw [repairRequest, decimalInt_of_pos hdesired, decimalInt_of_pos hlimit]
    simp only [List.append_assoc]
    rfl
  obtain ⟨hcmd, hargs⟩ := @command_word (str "NEED_REPAIR")
    (decimal desired.toNat ++ 32 :: decimal limit.toNat) (by decide)
  have hfirst : IStream.getInt
      ⟨32 :: (decimal desired.toNat ++ 32 :: decimal limit.toNat), false⟩ 0 =
        (desired, ⟨32 :: decimal limit.toNat, false⟩) := by
    rw [IStream.getInt_space (by decide),
      IStream.getInt_decimal (by omega) (IStream.atBreak_cons (by decide) _),
      Int.toNat_of_nonneg hdesired.le]
  have hsecond : IStream.getInt ⟨32 :: decimal limit.toNat, false⟩ 0 = (limit, ⟨[], false⟩) := by
    have hread := IStream.getInt_decimal (n := limit.toNat) (by omega) IStream.atBreak_nil 0
    rw [List.append_nil, Int.toNat_of_nonneg hlimit.le] at hread
    rw [IStream.getInt_space (by decide), hread]
  rw [hline]
  refine ⟨hcmd, ?_⟩
  rw [hargs, repairArgs, hfirst]
  dsimp only
  rw [hsecond]
  dsimp only
  rw [if_neg (by omega), if_neg (by omega)]

end Lines

/-- A cleanup at the same time changes no count. -/
theorem counts_pruneStaleAndCleanup {s : Tracker} {t : Int} {c : Bytes} {n : Nat} :
    (s.pruneStaleAndCleanup t).Counts t c n ↔ s.Counts t c n := by
  have hsame : ∀ x, (s.pruneStaleAndCleanup t).Located c x ∧
      Live ttl t ((s.pruneStaleAndCleanup t).lastSeen x) ↔
        s.Located c x ∧ Live ttl t (s.lastSeen x) := by
    intro x
    rw [located_pruneStaleAndCleanup, lastSeen_pruneStaleAndCleanup, live_expire_iff]
    constructor
    · rintro ⟨⟨hlocated, -⟩, hlive⟩
      exact ⟨hlocated, hlive⟩
    · rintro ⟨hlocated, hlive⟩
      exact ⟨⟨hlocated, fun hstale => hstale.not_live hlive⟩, hlive⟩
  simp only [Counts, hsame]

section Owed

variable {s : Tracker} {t desired : Int} {rows : List (Bytes × Nat)}

/-- The chunks that `WHERE` lists too few peers for are those with a row. -/
theorem owed_eq_rows (hs : s.Whole) (o : TrackerOrders)
    (hrows : ∀ c n, (c, n) ∈ rows ↔ s.Counts t c n ∧ 0 < n ∧ (n : Int) < desired) :
    {c | Token c ∧ 0 < (s.whereLines o t c).length ∧
      ((s.whereLines o t c).length : Int) < desired} = ↑(rows.map (·.1)).toFinset := by
  ext c
  simp only [Set.mem_ofPred_eq, Finset.mem_coe, List.mem_toFinset, List.mem_map]
  constructor
  · rintro ⟨hc, hpos, hlt⟩
    exact ⟨(c, _), (hrows c _).mpr ⟨whereLines_counts hs o t hc, hpos, hlt⟩, rfl⟩
  · rintro ⟨⟨c, n⟩, hrow, rfl⟩
    obtain ⟨hcounts, hpos, hlt⟩ := (hrows c n).mp hrow
    have hc := hcounts.token hs hpos
    rw [(whereLines_counts hs o t hc).unique hcounts]
    exact ⟨hc, hpos, hlt⟩

theorem ncard_rows (hnodup : (rows.map (·.1)).Nodup) :
    (↑(rows.map (·.1)).toFinset : Set Bytes).ncard = rows.length := by
  calc (↑(rows.map (·.1)).toFinset : Set Bytes).ncard
      = (rows.map (·.1)).toFinset.card := Set.ncard_coe_finset _
    _ = (rows.map (·.1)).length := List.toFinset_card_of_nodup hnodup
    _ = rows.length := List.length_map _

end Owed

theorem getPeers_lists_latest {h : List Turn} {t : Int} (ht : Timed h t) (o : TrackerOrders)
    {now : Int} (hnow : now ≤ t) :
    Lists ((run h).answer o now t (str "GET_PEERS")).1
      fun x => ∃ ep, Live ttl t (latest h ep) ∧ x = entry ep := by
  have hlists := getPeers_lists (run_whole ht) o hnow
  rw [answer_getPeers (run h) o now t (by decide)]
  exact ⟨hlists.1, fun x => (hlists.2 x).trans (live_run_iff ht x)⟩

/-- **Liveness and repair answers agree.** -/
theorem liveness_answers_agree (h : List Turn) (t : Int) (ht : Timed h t) :
    (∀ o now, now ≤ t → Lists ((run h).answer o now t (str "GET_PEERS")).1
      fun x => ∃ ep, Live ttl t (latest h ep) ∧ x = entry ep) ∧
    ∀ o now desired limit, 0 < desired → desired < 2 ^ 31 → 0 < limit → limit < 2 ^ 31 →
      ∃ rows : List (Bytes × Nat),
        replyLines ((run h).answer o now t (repairRequest desired limit)).1 =
            rows.map repairLine ∧
          (rows.map (·.1)).Nodup ∧
          (∀ row ∈ rows, Token row.1 ∧ 0 < row.2 ∧ (row.2 : Int) < desired ∧
            ∀ o' s, (s = run h ∨ s = ((run h).answer o now t (repairRequest desired limit)).2) →
              (s.whereLines o' t row.1).length = row.2) ∧
          ∀ o', let owed := {c | Token c ∧ 0 < ((run h).whereLines o' t c).length ∧
              (((run h).whereLines o' t c).length : Int) < desired}
            owed.Finite ∧ ((owed.ncard : Int) ≤ limit → ∀ c ∈ owed, c ∈ rows.map (·.1)) ∧
              (limit < owed.ncard → (rows.length : Int) = limit) := by
  have hs := run_whole ht
  constructor
  · intro o now hnow
    exact getPeers_lists_latest ht o hnow
  · intro o now desired limit hdesired hdesired' hlimit hlimit'
    obtain ⟨hcmd, hargs⟩ := repairArgs_repairRequest hdesired hdesired' hlimit hlimit'
    obtain ⟨all, hnodup, hall, hreply⟩ :=
      needRepair_rows hs o t (arguments (repairRequest desired limit))
    rw [hargs] at hall hreply
    rw [answer_needRepair (run h) o now t hcmd]
    refine ⟨all.take limit.toNat, hreply, ?_, ?_, ?_⟩
    · rw [List.map_take]
      exact hnodup.sublist (List.take_sublist _ _)
    · rintro ⟨c, n⟩ hrow
      obtain ⟨hcounts, hpos, hlt⟩ := (hall c n).mp (List.mem_of_mem_take hrow)
      have hc := hcounts.token hs hpos
      refine ⟨hc, hpos, hlt, ?_⟩
      rintro o' s (rfl | rfl)
      · exact (whereLines_counts hs o' t hc).unique hcounts
      · have hafter := whereLines_counts (hs.pruneStaleAndCleanup t) o' t hc
        exact (counts_pruneStaleAndCleanup.mp hafter).unique hcounts
    · intro o' owed
      have howed : owed = ↑(all.map (·.1)).toFinset := owed_eq_rows hs o' hall
      have hcard : owed.ncard = all.length := by
        rw [howed, ncard_rows hnodup]
      refine ⟨howed ▸ Finset.finite_toSet _, ?_, ?_⟩
      · intro hfew c hc
        rw [List.take_of_length_le (by omega)]
        rw [howed] at hc
        exact List.mem_toFinset.mp hc
      · intro hmany
        rw [List.length_take]
        omega

def registerTurn : Turn := { now := 0, later := 0, sock := ⟨str "REGISTER a 1\n", [], .closed⟩ }

def announceTurn : Turn := { now := 1, later := 1, sock := ⟨str "ANNOUNCE c a 1\n", [], .closed⟩ }

def pairHistory : List Turn := [registerTurn, announceTurn]

theorem registerTurn_update : registerTurn.update = .seen ⟨str "a", 1⟩ := by decide

theorem announceTurn_update : announceTurn.update = .located (str "c") ⟨str "a", 1⟩ := by decide

theorem run_registerTurn : run [registerTurn] = see 0 ⟨str "a", 1⟩ {} := by
  rw [run, List.foldl_cons, List.foldl_nil, turn_eq (by decide), registerTurn_update]
  rfl

theorem pairHistory_state :
    run pairHistory = (see 0 ⟨str "a", 1⟩ {}).addLocation (str "c") (entry ⟨str "a", 1⟩) := by
  rw [show pairHistory = [registerTurn] ++ [announceTurn] from rfl, run_concat, run_registerTurn,
    turn_eq (by decide), announceTurn_update]
  rfl

theorem pairHistory_timed : Timed pairHistory 5 := by
  unfold Timed
  decide

theorem pairHistory_answers :
    (Lists ((run pairHistory).answer default 2 5 (str "GET_PEERS")).1
      fun x => ∃ ep, Live ttl 5 (latest pairHistory ep) ∧ x = entry ep) ∧
    ∃ rows : List (Bytes × Nat),
      replyLines ((run pairHistory).answer default 2 5 (repairRequest 2 1)).1 =
          rows.map repairLine ∧
        ∀ row ∈ rows, ((run pairHistory).whereLines default 5 row.1).length = row.2 := by
  obtain ⟨hpeers, hrepair⟩ := liveness_answers_agree pairHistory 5 pairHistory_timed
  obtain ⟨rows, hreply, -, hrows, -⟩ := hrepair default 2 2 1 (by decide) (by decide) (by decide)
    (by decide)
  exact ⟨hpeers default 2 (by decide), rows, hreply, fun row hrow =>
    (hrows row hrow).2.2.2 default _ (Or.inl rfl)⟩

/-- Every location is live, and no chunk is without one. -/
structure Hygienic (s : Tracker) (t : Int) : Prop where
  locations : ∀ c e, s.Located c e → Live ttl t (s.lastSeen e)
  chunks : ∀ c locs, s.chunkIndex.lookup c = some locs → ∃ e, e ∈ locs

/-- A cleanup takes away the locations of the peers it erases, and of no others. -/
theorem hygienic_cleanup_iff {s : Tracker} (hs : s.Whole) (t : Int) :
    Hygienic (s.pruneStaleAndCleanup t) t ↔ ∀ c e, s.Located c e → e ∈ s.peers := by
  constructor
  · intro hclean c e hlocated
    rw [mem_peers_iff]
    intro hnone
    have hkept : (s.pruneStaleAndCleanup t).Located c e := by
      rw [located_pruneStaleAndCleanup, hnone]
      refine ⟨hlocated, ?_⟩
      rintro ⟨last, hsome, -⟩
      cases hsome
    have hlive := hclean.locations c e hkept
    rw [lastSeen_pruneStaleAndCleanup, live_expire_iff, hnone] at hlive
    exact not_live_none hlive
  · intro hknown
    refine ⟨?_, fun c locs hlocs => ((hs.pruneStaleAndCleanup t).chunks c locs hlocs).2⟩
    intro c e hkept
    obtain ⟨hlocated, hfresh⟩ := (located_pruneStaleAndCleanup s t c e).mp hkept
    have hpeer := hknown c e hlocated
    rw [mem_peers_iff] at hpeer
    rw [lastSeen_pruneStaleAndCleanup, live_expire_iff]
    by_contra hdead
    rcases not_live_iff.mp hdead with hnone | hstale
    · exact hpeer hnone
    · exact hfresh hstale

/-- The two requests that clean up. -/
def Turn.Cleans (c : Turn) : Prop :=
  ∃ line, c.line = some line ∧
    (command line = str "NEED_REPAIR" ∨ command line = str "GET_PEERS")

theorem Turn.Cleans.update {c : Turn} (hc : c.Cleans) : c.update = .cleaned := by
  obtain ⟨line, hline, hcmd⟩ := hc
  have hfirst : ¬ (command line = str "REGISTER" ∨ command line = str "HEARTBEAT") := by
    rcases hcmd with hcmd | hcmd <;> rw [hcmd] <;> decide
  have hsecond : command line ≠ str "ANNOUNCE" := by
    rcases hcmd with hcmd | hcmd <;> rw [hcmd] <;> decide
  unfold Turn.update
  rw [hline]
  unfold updateOf
  exact (if_neg hfirst).trans ((if_neg hsecond).trans (if_pos hcmd))

/-- Every announcement is made by a peer that the tracker has. -/
def KnownAnnouncers (h : List Turn) : Prop :=
  ∀ before c, before ++ [c] <+: h → ∀ chunkId ep, c.update = .located chunkId ep →
    entry ep ∈ (run before).peers

theorem KnownAnnouncers.init {h : List Turn} {c : Turn} (hknown : KnownAnnouncers (h ++ [c])) :
    KnownAnnouncers h := by
  intro before c' hfront
  exact hknown before c' (hfront.trans (List.prefix_append h [c]))

theorem located_known {h : List Turn} {t : Int} (ht : Timed h t) (hknown : KnownAnnouncers h)
    (c e : Bytes) (hlocated : (run h).Located c e) : e ∈ (run h).peers := by
  induction h using List.reverseRecOn generalizing t with
  | nil => exact absurd hlocated (not_located_empty c e)
  | append_singleton h turn ih =>
      obtain ⟨hbefore, hturn, -⟩ := timed_concat ht
      rw [run_concat, turn_eq hturn] at hlocated ⊢
      have hpeer : e ∈ (run h).peers := by
        rcases Update.located_apply hlocated with hold | ⟨ep, hupdate, rfl⟩
        · exact ih hbefore hknown.init hold
        · exact hknown h turn List.prefix_rfl c ep hupdate
      rw [mem_peers_iff] at hpeer ⊢
      exact Update.lastSeen_apply_of_located hlocated hpeer

/-- **The index after a cleanup.** It is clean exactly if every location was that of a peer in the
table, and so in every history in which only such peers announce. -/
theorem cleanup_hygienic_iff (h : List Turn) (q : Turn) (hq : q.Cleans)
    (ht : Timed (h ++ [q]) q.later) :
    (Hygienic (run (h ++ [q])) q.later ↔ ∀ c e, (run h).Located c e → e ∈ (run h).peers) ∧
      (KnownAnnouncers h → Hygienic (run (h ++ [q])) q.later) := by
  obtain ⟨hbefore, hturn, -⟩ := timed_concat ht
  have hrun : run (h ++ [q]) = (run h).pruneStaleAndCleanup q.later := by
    rw [run_concat, turn_eq hturn, hq.update]
    rfl
  have hiff := hygienic_cleanup_iff (run_whole hbefore) q.later
  rw [hrun]
  refine ⟨hiff, ?_⟩
  intro hknown
  exact hiff.mpr (located_known hbefore hknown)

def listingTurn (t : Int) : Turn :=
  { now := t, later := t, sock := ⟨str "GET_PEERS\n", [], .closed⟩ }

theorem listingTurn_line (t : Int) : (listingTurn t).line = some (str "GET_PEERS") := by
  show (recvLine ⟨str "GET_PEERS\n", [], .closed⟩).1 = some (str "GET_PEERS")
  decide

theorem listingTurn_cleans (t : Int) : (listingTurn t).Cleans :=
  ⟨str "GET_PEERS", listingTurn_line t, by decide⟩

theorem pairHistory_known : KnownAnnouncers pairHistory := by
  intro before c hfront chunkId ep hupdate
  rcases before with _ | ⟨first, _ | ⟨second, before⟩⟩
  · simp only [pairHistory, List.nil_append, List.cons_prefix_cons] at hfront
    rw [hfront.1, registerTurn_update] at hupdate
    cases hupdate
  · simp only [pairHistory, List.cons_append, List.nil_append, List.cons_prefix_cons] at hfront
    rw [hfront.2.1, announceTurn_update] at hupdate
    cases hupdate
    rw [hfront.1, run_registerTurn, mem_peers_iff, lastSeen_see, if_pos rfl]
    exact Option.some_ne_none _
  · have hlength := hfront.length_le
    simp [pairHistory] at hlength

theorem pairHistory_hygienic : Hygienic (run (pairHistory ++ [listingTurn 5])) 5 := by
  have ht : Timed (pairHistory ++ [listingTurn 5]) 5 := by
    unfold Timed
    decide
  exact (cleanup_hygienic_iff pairHistory (listingTurn 5) (listingTurn_cleans 5) ht).2
    pairHistory_known

/-- A peer that never registers announces a chunk. -/
theorem unregistered_location_stays :
    ¬ ∀ (h : List Turn) (q : Turn), q.Cleans → Timed (h ++ [q]) q.later →
      Hygienic (run (h ++ [q])) q.later := by
  intro hall
  have ht : Timed ([announceTurn] ++ [listingTurn 5]) 5 := by
    unfold Timed
    decide
  have hclean := hall [announceTurn] (listingTurn 5) (listingTurn_cleans 5) ht
  have hstate : run [announceTurn] = addLocation (str "c") (str "a:1") {} := by
    rw [run, List.foldl_cons, List.foldl_nil, turn_eq (by decide), announceTurn_update]
    rfl
  rw [run_concat, turn_eq (by decide), (listingTurn_cleans 5).update, hstate] at hclean
  have hlocated : (addLocation (str "c") (str "a:1") {}).Located (str "c") (str "a:1") :=
    (located_addLocation _ _ _ _ _).mpr (Or.inl ⟨rfl, rfl⟩)
  have hwhole : (addLocation (str "c") (str "a:1") {}).Whole :=
    hstate ▸ run_whole (timed_concat ht).1
  exact AList.notMem_empty _ ((hygienic_cleanup_iff hwhole 5).mp hclean _ _ hlocated)

end Tracker

end DecentStore
