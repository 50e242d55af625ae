import DecentStore.Proof.Requests
import DecentStore.Proof.TrackerListings
import DecentStore.Proof.TrackerLocations

/-!
# Announcements and repairs

An announcement adds one peer to those that have a chunk, and the client does not mind if it fails.
`NEED_REPAIR` asks with two numbers of any sign and is answered with rows, which the client reads
word by word. What it returns can be told from the history alone: the chunks whose peers, live and
not expelled since they announced them, are too few but not none.
-/

namespace DecentStore

open Bytes Interaction Lease

namespace TrackerClient

theorem readRepair_newline (text cid : Bytes) (count : Int) :
    readRepair ⟨newline :: text, false⟩ cid count = readRepair ⟨text, false⟩ cid count := by
  conv_lhs => rw [readRepair]
  conv_rhs => rw [readRepair]
  rw [IStream.getString_space (by decide)]

theorem readRepair_nil (cid : Bytes) (count : Int) : readRepair ⟨[], false⟩ cid count = [] := by
  rw [readRepair]
  rfl

theorem readRepair_row {id : Bytes} (hid : Token id) {n : Nat} (hn : n < 2 ^ 31)
    (text cid : Bytes) (count : Int) :
    readRepair ⟨Tracker.repairLine (id, n) ++ newline :: text, false⟩ cid count =
      id :: readRepair ⟨newline :: text, false⟩ id n := by
  have hline : Tracker.repairLine (id, n) ++ newline :: text =
      id ++ 32 :: (decimal n ++ newline :: text) := by
    have hblank : str " " = [32] := by decide
    simp [Tracker.repairLine, hblank]
  have hword := IStream.getString_token hid
    (IStream.atBreak_cons (b := 32) (by decide) (decimal n ++ newline :: text)) cid
  have hnumber := IStream.getInt_decimal hn
    (IStream.atBreak_cons (b := newline) (by decide) text) count
  rw [hline, readRepair, hword]
  simp only [IStream.getInt_space (b := 32) (by decide), hnumber, hid.1, Bool.false_eq_true,
    ↓reduceIte, List.singleton_append]

theorem readRepair_rows {rows : List (Bytes × Nat)}
    (hrows : ∀ row ∈ rows, Token row.1 ∧ row.2 < 2 ^ 31) (cid : Bytes) (count : Int) :
    readRepair ⟨(rows.map Tracker.repairLine).flatMap (· ++ str "\n"), false⟩ cid count =
      rows.map (·.1) := by
  induction rows generalizing cid count with
  | nil => exact readRepair_nil cid count
  | cons row rows ih =>
      obtain ⟨hid, hn⟩ := hrows row List.mem_cons_self
      rw [List.map_cons, List.flatMap_cons, str_newline, List.append_assoc, List.singleton_append,
        readRepair_row hid hn, readRepair_newline, ← str_newline,
        ih fun other hother => hrows other (List.mem_cons_of_mem row hother), List.map_cons]

/-- **The rows of a repair read back.** -/
theorem readRepair_listing {rows : List (Bytes × Nat)}
    (hrows : ∀ row ∈ rows, Token row.1 ∧ row.2 < 2 ^ 31) :
    readRepair ⟨Tracker.listing (rows.map Tracker.repairLine), false⟩ [] 0 = rows.map (·.1) := by
  have hread := readRepair_rows hrows [] 0
  unfold Tracker.listing
  dsimp only
  split
  · rename_i hout
    rw [hout, readRepair_nil] at hread
    rw [str_newline, readRepair_newline, readRepair_nil, hread]
  · exact hread

end TrackerClient

namespace Tracker

/-! ### The request -/

theorem decimalInt_plain (n : Int) : ∀ b ∈ decimalInt n, b ≠ 10 ∧ b ≠ 13 := by
  intro b hb
  have hdigits := plain_of_token (decimal_token n.natAbs)
  unfold decimalInt at hb
  split at hb
  · rcases List.mem_cons.mp hb with rfl | hb
    · decide
    · exact hdigits b hb
  · exact hdigits b hb

theorem length_decimalInt_le {n : Int} (hn : n.natAbs < 2 ^ 64) : (decimalInt n).length ≤ 21 := by
  have hdigits := length_decimal_le hn
  unfold decimalInt
  split
  · rw [List.length_cons]
    omega
  · omega

section Request

variable {desired limit : Int} (hdesired : -2 ^ 31 ≤ desired ∧ desired < 2 ^ 31)
  (hlimit : -2 ^ 31 ≤ limit ∧ limit < 2 ^ 31)

include hdesired hlimit

theorem repairRequest_args : command (repairRequest desired limit) = str "NEED_REPAIR" ∧
    repairArgs (arguments (repairRequest desired limit)) =
      (if desired ≤ 0 then 2 else desired, if limit ≤ 0 then 50 else limit) := by
  have hline : repairRequest desired limit =
      str "NEED_REPAIR" ++ 32 :: (decimalInt desired ++ 32 :: decimalInt limit) := by
    rw [repairRequest]
    simp only [List.append_assoc]
    rfl
  obtain ⟨hcmd, hargs⟩ := @command_word (str "NEED_REPAIR")
    (decimalInt desired ++ 32 :: decimalInt limit) (by decide)
  have hfirst := IStream.getInt_decimalInt hdesired.1 hdesired.2
    (IStream.atBreak_cons (b := 32) (by decide) (decimalInt limit)) 0
  have hsecond := IStream.getInt_decimalInt hlimit.1 hlimit.2 IStream.atBreak_nil 0
  rw [List.append_nil] at hsecond
  rw [hline]
  refine ⟨hcmd, ?_⟩
  rw [hargs, repairArgs, IStream.getInt_space (by decide), hfirst]
  dsimp only
  rw [IStream.getInt_space (by decide), hsecond]

theorem wireReply_repair (s : Tracker) (o : TrackerOrders) (now later : Int) :
    TrackerClient.wireReply o now later s (repairRequest desired limit) =
      (s.needRepair o later (arguments (repairRequest desired limit))).1 := by
  have hplain : ∀ b ∈ repairRequest desired limit, b ≠ 10 ∧ b ≠ 13 := by
    have hwords : ∀ b ∈ str "NEED_REPAIR " ++ str " ", b ≠ 10 ∧ b ≠ 13 := by decide
    intro b hb
    simp only [repairRequest, List.mem_append] at hb hwords
    rcases hb with ((hb | hb) | hb) | hb
    · exact hwords b (Or.inl hb)
    · exact decimalInt_plain desired b hb
    · exact hwords b (Or.inr hb)
    · exact decimalInt_plain limit b hb
  have hshort : (repairRequest desired limit).length ≤ 8192 := by
    have hfirst := @length_decimalInt_le desired (by omega)
    have hsecond := @length_decimalInt_le limit (by omega)
    have hword : (str "NEED_REPAIR ").length = 12 := by decide
    have hblank : (str " ").length = 1 := by decide
    simp only [repairRequest, List.length_append, hword, hblank]
    omega
  have hheader := (headerLine_chars hplain []).1
  rw [if_pos hshort] at hheader
  rw [TrackerClient.wireReply, hheader]
  exact congrArg Prod.fst
    (answer_needRepair s o now later (repairRequest_args hdesired hlimit).1)

end Request

/-- A reply to `NEED_REPAIR` is the listing of its lines. -/
theorem needRepair_reply {s : Tracker} (hs : s.Whole) (o : TrackerOrders) (later : Int)
    (iss : IStream) :
    (s.needRepair o later iss).1 = listing (replyLines (s.needRepair o later iss).1) := by
  have hrows : (s.needRepair o later iss).1 =
      listing ((repairRows (s.pruneStaleAndCleanup later) (repairArgs iss).1 (repairArgs iss).2 0
        (o.chunkIndex.order (s.pruneStaleAndCleanup later).chunkIndex.entries)).map
          repairLine) := rfl
  rw [hrows, replyLines_listing]
  rw [repairRows_eq _ _ (repairArgs_limit_pos iss)]
  intro l hl
  obtain ⟨⟨c, n⟩, hrow, rfl⟩ := List.mem_map.mp hl
  obtain ⟨⟨locs, hmem, -⟩, -⟩ := mem_owedRows.mp (List.mem_of_mem_take hrow)
  have hlookup := AList.lookup_eq_some.mpr ((o.chunkIndex.perm _).mem_iff.mp hmem)
  exact repairLine_line ((hs.pruneStaleAndCleanup later).chunks c locs hlookup).1

/-! ### Told from the history -/

/-- The peers that have a chunk. -/
def holders (h : List Turn) (t : Int) (chunkId : Bytes) : Set PeerEndpoint :=
  {ep | Live ttl t (latest h ep) ∧ Announces h chunkId ep}

variable {h : List Turn} {t : Int}

theorem located_live_iff (ht : Timed h t) (c x : Bytes) :
    (run h).Located c x ∧ Live ttl t ((run h).lastSeen x) ↔ ∃ ep ∈ holders h t c, x = entry ep := by
  rw [live_run_iff ht]
  constructor
  · rintro ⟨hlocated, ep, hlive, rfl⟩
    exact ⟨ep, ⟨hlive, (located_run_iff ht c ep).mp hlocated⟩, rfl⟩
  · rintro ⟨ep, ⟨hlive, hannounces⟩, rfl⟩
    exact ⟨(located_run_iff ht c ep).mpr hannounces, ep, hlive, rfl⟩

theorem counts_run_iff (ht : Timed h t) (c : Bytes) (n : Nat) :
    (run h).Counts t c n ↔ (holders h t c).Finite ∧ (holders h t c).ncard = n := by
  unfold Counts
  simp only [located_live_iff ht]
  constructor
  · rintro ⟨live, hnodup, rfl, hlive⟩
    obtain ⟨eps, rfl, heps⟩ := TrackerClient.exists_endpoints fun x hx => (hlive x).mp hx
    have hset : holders h t c = ↑eps.toFinset := by
      ext ep
      rw [Finset.mem_coe, List.mem_toFinset]
      refine ⟨fun hep => ?_, heps ep⟩
      obtain ⟨ep', hep', hsame⟩ := List.mem_map.mp ((hlive (entry ep)).mpr ⟨ep, hep, rfl⟩)
      exact entry_injective hsame ▸ hep'
    rw [hset]
    refine ⟨Finset.finite_toSet _, ?_⟩
    rw [Set.ncard_coe_finset, List.toFinset_card_of_nodup hnodup.of_map, List.length_map]
  · rintro ⟨hfinite, rfl⟩
    refine ⟨hfinite.toFinset.toList.map entry, ?_, ?_, fun x => ?_⟩
    · exact (Finset.nodup_toList _).map entry_injective
    · rw [List.length_map, Finset.length_toList, Set.ncard_eq_toFinset_card _ hfinite]
    · simp [eq_comm]

/-- The chunks that have a peer but too few. -/
def owed (h : List Turn) (t wanted : Int) : Set Bytes :=
  {c | 0 < (holders h t c).ncard ∧ ((holders h t c).ncard : Int) < wanted}

/-- **What a client is told to repair.** After any requests of anybody, and however the connection
cuts the reply, `needRepair` returns different chunks that have a peer but too few, as many as there
are or as the limit allows. -/
theorem needRepair_names_owed (h : List Turn) (t : Int) (ht : Timed h t) (tracker : PeerEndpoint)
    (o : TrackerOrders) (now : Int) (cuts : Cuts) (disk : LocalDisk) {desired limit : Int}
    (hdesired : -2 ^ 31 ≤ desired ∧ desired < 2 ^ 31)
    (hlimit : -2 ^ 31 ≤ limit ∧ limit < 2 ^ 31) :
    ∃ ids s', (TrackerClient.needRepair tracker desired limit).run
        (worldHandle (trackerNetwork o now t cuts)) (run h, disk) = (.ok ids, s') ∧ ids.Nodup ∧
      let chunks := owed h t (if desired ≤ 0 then 2 else desired)
      chunks.Finite ∧ (∀ c ∈ ids, c ∈ chunks) ∧
        (ids.length : Int) = min (chunks.ncard : Int) (if limit ≤ 0 then 50 else limit) := by
  have hs := run_whole ht
  obtain ⟨-, hargs⟩ := repairRequest_args hdesired hlimit
  obtain ⟨rows, hnodup, hrows, hreply⟩ :=
    needRepair_rows hs o t (arguments (repairRequest desired limit))
  obtain ⟨s', hrun⟩ := TrackerClient.run_requestLine tracker o now t cuts (run h) disk
    (repairRequest desired limit)
  have hcount : ∀ c n, (c, n) ∈ rows ↔ (holders h t c).Finite ∧ (holders h t c).ncard = n ∧
      0 < n ∧ (n : Int) < if desired ≤ 0 then 2 else desired := by
    intro c n
    rw [hrows, counts_run_iff ht, hargs, and_assoc]
  have hshape : ∀ row ∈ rows, Token row.1 ∧ row.2 < 2 ^ 31 := by
    rintro ⟨c, n⟩ hrow
    obtain ⟨hcounts, hpos, -⟩ := (hrows c n).mp hrow
    obtain ⟨-, -, -, hlt⟩ := (hcount c n).mp hrow
    refine ⟨hcounts.token hs hpos, ?_⟩
    split at hlt <;> omega
  have hset : owed h t (if desired ≤ 0 then 2 else desired) = ↑(rows.map (·.1)).toFinset := by
    ext c
    rw [Finset.mem_coe, List.mem_toFinset, List.mem_map]
    constructor
    · rintro ⟨hpos, hlt⟩
      exact ⟨(c, _), (hcount c _).mpr ⟨Set.finite_of_ncard_pos hpos, rfl, hpos, hlt⟩, rfl⟩
    · rintro ⟨⟨c, n⟩, hrow, rfl⟩
      obtain ⟨-, rfl, hpos, hlt⟩ := (hcount c n).mp hrow
      exact ⟨hpos, hlt⟩
  rw [hargs] at hreply
  generalize hmost : (if limit ≤ 0 then 50 else limit) = most at hreply ⊢
  have hpos : 0 < most := by
    rw [← hmost]
    split <;> omega
  refine ⟨(rows.take most.toNat).map (·.1), s', ?_, ?_, ?_⟩
  · rw [wireReply_repair hdesired hlimit, needRepair_reply hs, hreply] at hrun
    have hread := TrackerClient.readRepair_listing
      (fun row hrow => hshape row (List.mem_of_mem_take (i := most.toNat) hrow))
    unfold TrackerClient.needRepair
    rw [show str "NEED_REPAIR " ++ decimalInt desired ++ str " " ++ decimalInt limit ++ str "\n" =
      repairRequest desired limit ++ [newline] from rfl, Prog.run_bind_of_ok hrun, hread]
    rfl
  · exact hnodup.sublist ((List.take_sublist _ _).map _)
  · intro chunks
    have hchunks : chunks = ↑(rows.map (·.1)).toFinset := hset
    rw [hchunks, ncard_rows hnodup, List.length_map, List.length_take]
    refine ⟨Finset.finite_toSet _, fun c hc => ?_, by omega⟩
    rw [Finset.mem_coe, List.mem_toFinset]
    exact List.map_subset _ (List.take_subset _ _) hc

theorem pairHistory_owed : ∃ ids s', (TrackerClient.needRepair ⟨str "t", 9000⟩ (-3) 0).run
    (worldHandle (trackerNetwork default 3 5 {})) (run pairHistory, {}) = (.ok ids, s') ∧
      ids.Nodup ∧
      let chunks := owed pairHistory 5 2
      chunks.Finite ∧ (∀ c ∈ ids, c ∈ chunks) ∧ (ids.length : Int) = min (chunks.ncard : Int) 50 :=
  needRepair_names_owed pairHistory 5 pairHistory_timed ⟨str "t", 9000⟩ default 3 {} {}
    (by decide) (by decide)

/-! ### An announcement -/

/-- The line that announces a chunk. -/
def announcement (chunkId : Bytes) (ep : PeerEndpoint) : Bytes :=
  str "ANNOUNCE " ++ chunkId ++ str " " ++ ep.ip ++ str " " ++ decimalInt ep.port

section Announcement

variable {chunkId : Bytes} {ep : PeerEndpoint}

theorem announcement_eq (chunkId : Bytes) (ep : PeerEndpoint) : announcement chunkId ep =
    str "ANNOUNCE" ++ 32 :: (chunkId ++ 32 :: (ep.ip ++ 32 :: decimalInt ep.port)) := by
  have hblank : str " " = [32] := by decide
  have hword : str "ANNOUNCE " = str "ANNOUNCE" ++ [32] := by decide
  simp [announcement, hblank, hword]

theorem updateOf_announcement (hid : Token chunkId) (hep : Accepted ep) :
    updateOf (announcement chunkId ep) = .located chunkId ep := by
  obtain ⟨hcmd, hargs⟩ := @command_word (str "ANNOUNCE")
    (chunkId ++ 32 :: (ep.ip ++ 32 :: decimalInt ep.port)) (by decide)
  rw [← announcement_eq] at hcmd hargs
  have hchunk : (arguments (announcement chunkId ep)).getString [] =
      (chunkId, ⟨32 :: (ep.ip ++ 32 :: decimalInt ep.port), false⟩) := by
    rw [hargs, IStream.getString_space (by decide),
      IStream.getString_token hid (IStream.atBreak_cons (by decide) _)]
  have hendpoint : endpointOf ⟨32 :: (ep.ip ++ 32 :: decimalInt ep.port), false⟩ = some ep := by
    have hport := IStream.getInt_decimalInt (by have := hep.port; omega)
      (by have := hep.port; omega : ep.port < 2 ^ 31) IStream.atBreak_nil 0
    have hvalid : ¬ (ep.ip = [] ∨ ep.port ≤ 0 ∨ 65535 < ep.port) := by
      rw [not_or, not_or, not_le, not_lt]
      exact ⟨hep.ip.1, hep.port⟩
    rw [List.append_nil] at hport
    rw [endpointOf, IStream.getString_space (by decide),
      IStream.getString_token hep.ip (IStream.atBreak_cons (by decide) _)]
    dsimp only
    rw [IStream.getInt_space (by decide), hport]
    exact if_neg hvalid
  have hupdate := @updateOf_announce (announcement chunkId ep) ep hcmd
    (by rw [hchunk]; exact hid.1) (by rw [hchunk]; exact hendpoint)
  rwa [hchunk] at hupdate

theorem announcement_plain (hid : Token chunkId) (hep : Accepted ep) :
    ∀ b ∈ announcement chunkId ep, b ≠ 10 ∧ b ≠ 13 := by
  rw [announcement_eq]
  exact plain_of_words (by decide) (plain_of_words hid (plain_of_words hep.ip
    (decimalInt_plain ep.port)))

/-- An announcement adds its peer to those that have the chunk, and changes nothing else. -/
theorem holders_concat {h : List Turn} {a : Turn} (ha : a.update = .located chunkId ep) (t : Int)
    (c : Bytes) (ep' : PeerEndpoint) : ep' ∈ holders (h ++ [a]) t c ↔
      (c = chunkId ∧ ep' = ep ∧ Live ttl t (latest h ep)) ∨ ep' ∈ holders h t c := by
  have hnot : ¬ Expels h a ep' := fun hexpels => by simp [hexpels.1.1] at ha
  unfold holders
  simp only [Set.mem_ofPred_eq, announces_concat, latest_concat, hnot, not_false_iff, and_true, ha,
    Update.located.injEq]
  constructor
  · rintro ⟨hlive, ⟨rfl, rfl⟩ | hold⟩
    · exact Or.inl ⟨rfl, rfl, hlive⟩
    · exact Or.inr ⟨hlive, hold⟩
  · rintro (⟨rfl, rfl, hlive⟩ | ⟨hlive, hold⟩)
    · exact ⟨hlive, Or.inl ⟨rfl, rfl⟩⟩
    · exact ⟨hlive, Or.inr hold⟩

section RequestLine

variable {σ : Type} (net : Network σ) (tracker : PeerEndpoint) (line : Bytes) (s : σ × LocalDisk)

theorem run_requestLine : (TrackerClient.requestLine tracker (line ++ [newline])).run
    (worldHandle net) s = (match (net tracker (line ++ [newline]) s).1 with
      | .refused e => .error e
      | .sendFailed e => .error e
      | .brokenPipe => .error .killed
      | .silent => .error .stuck
      | .answered sock => recvAllText sock, (net tracker (line ++ [newline]) s).2, s.2) := by
  have hsend : (if (line ++ [newline]).getLast? = some newline then line ++ [newline]
      else line ++ [newline] ++ [newline]) = line ++ [newline] := if_pos (by simp)
  unfold TrackerClient.requestLine
  rw [hsend, Prog.run_bind]
  unfold PeerClient.exchange
  rw [Prog.run_bind_of_ok (Prog.run_ask _ _ _)]
  cases hanswer : (net tracker (line ++ [newline]) s).1 with
  | answered sock =>
      simp only [worldHandle, hanswer, Prog.run_pure]
      cases recvAllText sock <;> rfl
  | _ => simp [worldHandle, hanswer]

/-- A handler around a request line sees what it throws exactly when the exchange ends. -/
theorem requestLine_catchable_iff : Catchable ((TrackerClient.requestLine tracker
    (line ++ [newline])).run (worldHandle net) s).1 ↔
      (net tracker (line ++ [newline]) s).1.Ends := by
  rw [run_requestLine]
  cases (net tracker (line ++ [newline]) s).1 with
  | refused e => exact ⟨fun hseen => hseen e rfl, fun hcaught => .error hcaught⟩
  | sendFailed e => exact ⟨fun hseen => hseen e rfl, fun hcaught => .error hcaught⟩
  | brokenPipe => exact ⟨fun hseen => (nomatch hseen _ rfl), False.elim⟩
  | silent => exact ⟨fun hseen => (nomatch hseen _ rfl), False.elim⟩
  | answered sock => exact ⟨fun _ => trivial, fun _ => recvAllText_catchable sock⟩

end RequestLine

theorem run_announceChunk {σ : Type} (net : Network σ) (tracker : PeerEndpoint) (chunkId : Bytes)
    (ep : PeerEndpoint) (s : σ × LocalDisk) :
    ((TrackerClient.announceChunk tracker chunkId ep.ip ep.port).run (worldHandle net) s).2 =
        ((net tracker (announcement chunkId ep ++ [newline]) s).2, s.2) ∧
      (((TrackerClient.announceChunk tracker chunkId ep.ip ep.port).run (worldHandle net) s).1 =
        .ok () ↔ (net tracker (announcement chunkId ep ++ [newline]) s).1.Ends) := by
  have hrequest := run_requestLine net tracker (announcement chunkId ep) s
  rw [← requestLine_catchable_iff net tracker (announcement chunkId ep) s]
  unfold TrackerClient.announceChunk
  rw [show str "ANNOUNCE " ++ chunkId ++ str " " ++ ep.ip ++ str " " ++ decimalInt ep.port ++
    str "\n" = announcement chunkId ep ++ [newline] from rfl, Prog.run_catching, Prog.run_bind]
  rcases hreply : (TrackerClient.requestLine tracker (announcement chunkId ep ++ [newline])).run
    (worldHandle net) s with ⟨e | text, s'⟩
  · obtain rfl : s' = _ := congrArg Prod.snd (hreply.symm.trans hrequest)
    cases hcaught : e.caught with
    | true => simpa [hcaught] using Catchable.error (α := Bytes) hcaught
    | false =>
        have hunseen : ¬ Catchable (.error e : Except Exc Bytes) := fun hseen => by
          simpa [hcaught] using hseen e rfl
        simpa [hcaught] using hunseen
  · obtain rfl : s' = _ := congrArg Prod.snd (hreply.symm.trans hrequest)
    simpa using Catchable.ok text

/-- **An announcement is made or not, and nobody is told.** It returns whenever the exchange ends,
and only then. A tracker that hears it has one more peer for one chunk, if the peer is live, and no
other change can be seen in what it knows. -/
theorem announceChunk_adds_holder (tracker : PeerEndpoint) (chunkId : Bytes) (ep : PeerEndpoint) :
    (∀ (σ : Type) (net : Network σ) s, ((TrackerClient.announceChunk tracker chunkId ep.ip
        ep.port).run (worldHandle net) s).1 = .ok () ↔
          (net tracker (announcement chunkId ep ++ [newline]) s).1.Ends) ∧
      (Token chunkId → Accepted ep → (announcement chunkId ep).length ≤ 8192 →
        ∀ (h : List Turn) (o : TrackerOrders) (now later : Int) (cuts : Cuts) (disk : LocalDisk),
          ∃ a, a.now = now ∧ a.later = later ∧
            ((TrackerClient.announceChunk tracker chunkId ep.ip ep.port).run
              (worldHandle (trackerNetwork o now later cuts)) (run h, disk)).2 =
                (run (h ++ [a]), disk) ∧
            ∀ t c ep', ep' ∈ holders (h ++ [a]) t c ↔
              (c = chunkId ∧ ep' = ep ∧ Live ttl t (latest h ep)) ∨ ep' ∈ holders h t c) := by
  refine ⟨fun σ net s => (run_announceChunk net tracker chunkId ep s).2,
    fun hid hep hshort h o now later cuts disk => ?_⟩
  let a : Turn := ⟨o, now, later, ⟨Socket.sent cuts.requestSent (announcement chunkId ep ++
    [newline]), cuts.requestReceived, cuts.ending⟩⟩
  have hline : a.line = some (announcement chunkId ep) := by
    have hbytes : a.sock.bytes = announcement chunkId ep ++ [newline] := Socket.sent_eq _ _
    rw [Turn.line, (recvLine_eq a.sock).1, hbytes]
    exact ((headerLine_chars (announcement_plain hid hep) []).1).trans (if_pos hshort)
  have hupdate : a.update = .located chunkId ep := by
    rw [Turn.update, hline]
    exact updateOf_announcement hid hep
  refine ⟨a, rfl, rfl, ?_, holders_concat hupdate⟩
  rw [(run_announceChunk _ tracker chunkId ep _).1, run_concat]
  rfl

theorem pair_announced : ∃ a : Turn, a.now = 1 ∧ a.later = 1 ∧
    ((TrackerClient.announceChunk ⟨str "t", 9000⟩ (str "c") (str "a") 1).run
      (worldHandle (trackerNetwork default 1 1 {})) (run [registerTurn], {})).2 =
        (run ([registerTurn] ++ [a]), {}) ∧
    ∀ t c ep', ep' ∈ holders ([registerTurn] ++ [a]) t c ↔
      (c = str "c" ∧ ep' = ⟨str "a", 1⟩ ∧ Live ttl t (latest [registerTurn] ⟨str "a", 1⟩)) ∨
        ep' ∈ holders [registerTurn] t c :=
  (announceChunk_adds_holder ⟨str "t", 9000⟩ (str "c") ⟨str "a", 1⟩).2 (by decide)
    ⟨by decide, by decide⟩ (by decide) [registerTurn] default 1 1 {} {}

end Announcement

end Tracker

end DecentStore
