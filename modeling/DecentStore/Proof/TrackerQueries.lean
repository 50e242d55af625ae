import DecentStore.Proof.TrackerLiveness

/-!
# A query among the requests

The same history with and without one more cleanup. What the cleanup erases is no longer live, so
nothing about liveness changes. Locations do change: those of a peer that is found dead are gone,
and if the peer returns, only the history without the cleanup still has them. A peer that does not
return is not live in either history, and one that was not found dead keeps its locations in both.
-/

namespace DecentStore

open Bytes Lease

namespace Tracker

/-- The endpoint was announced for the chunk. -/
def Announced (h : List Turn) (chunkId : Bytes) (ep : PeerEndpoint) : Prop :=
  ∃ c ∈ h, c.update = .located chunkId ep

def Seen (h : List Turn) (e : Bytes) : Prop :=
  ∃ c ∈ h, ∃ ep, c.update = .seen ep ∧ e = entry ep

/-- The entry was seen and later announced for the chunk. -/
def Reannounced (h : List Turn) (chunkId e : Bytes) : Prop :=
  ∃ before after ep, h = before ++ after ∧ e = entry ep ∧ Seen before e ∧ Announced after chunkId ep

/-- A location of an entry that the query finds dead and that is seen again, and that has not been
announced for the chunk since. -/
structure Forgotten (h₁ : List Turn) (q : Turn) (h₂ : List Turn) (chunkId e : Bytes) : Prop where
  stale : Stale ttl q.later ((run h₁).lastSeen e)
  announced : ∃ ep, e = entry ep ∧ Announced (h₁ ++ h₂) chunkId ep
  seen : Seen h₂ e
  lost : ¬ Reannounced h₂ chunkId e

theorem seen_concat {h : List Turn} {c : Turn} {e : Bytes} (hseen : Seen (h ++ [c]) e) :
    Seen h e ∨ ∃ ep, c.update = .seen ep ∧ e = entry ep := by
  obtain ⟨c', hc', ep, hupdate, rfl⟩ := hseen
  rcases List.mem_append.mp hc' with hold | hnew
  · exact Or.inl ⟨c', hold, ep, hupdate, rfl⟩
  · rw [List.mem_singleton.mp hnew] at hupdate
    exact Or.inr ⟨ep, hupdate, rfl⟩

theorem seen_of_concat {h : List Turn} {c : Turn} {e : Bytes} (hc : ∀ ep, c.update ≠ .seen ep)
    (hseen : Seen (h ++ [c]) e) : Seen h e := by
  rcases seen_concat hseen with hold | ⟨ep, hnew, -⟩
  · exact hold
  · exact absurd hnew (hc ep)

theorem Seen.concat {h : List Turn} {e : Bytes} (hseen : Seen h e) (c : Turn) :
    Seen (h ++ [c]) e := by
  obtain ⟨c', hc', hrest⟩ := hseen
  exact ⟨c', List.mem_append_left _ hc', hrest⟩

theorem reannounced_concat {h : List Turn} {c : Turn} {chunkId e : Bytes}
    (hagain : Reannounced (h ++ [c]) chunkId e) :
    Reannounced h chunkId e ∨
      Seen h e ∧ ∃ ep, c.update = .located chunkId ep ∧ e = entry ep := by
  obtain ⟨before, after, ep, hsplit, rfl, hseen, turn, hturn, hupdate⟩ := hagain
  rcases List.eq_nil_or_concat' after with rfl | ⟨after, last, rfl⟩
  · cases hturn
  · rw [← List.append_assoc] at hsplit
    obtain ⟨rfl, hlast⟩ := List.append_inj' hsplit rfl
    obtain rfl := List.singleton_inj.mp hlast
    rcases List.mem_append.mp hturn with hold | hnew
    · exact Or.inl ⟨before, after, ep, rfl, rfl, hseen, turn, hold, hupdate⟩
    · rw [List.mem_singleton.mp hnew] at hupdate
      obtain ⟨c', hc', hrest⟩ := hseen
      exact Or.inr ⟨⟨c', List.mem_append_left _ hc', hrest⟩, ep, hupdate, rfl⟩

theorem reannounced_of_concat {h : List Turn} {c : Turn} {chunkId e : Bytes}
    (hc : ∀ chunkId ep, c.update ≠ .located chunkId ep)
    (hagain : Reannounced (h ++ [c]) chunkId e) : Reannounced h chunkId e := by
  rcases reannounced_concat hagain with hold | ⟨-, ep, hnew, -⟩
  · exact hold
  · exact absurd hnew (hc chunkId ep)

/-- The states without and with the query at time `t`, after the same further requests. An entry is
dead if it was found dead by the query. -/
structure Alike (t : Int) (dead : Bytes → Prop) (since : List Turn) (plain queried : Tracker) :
    Prop where
  seen : ∀ e, Keeps ttl t (queried.lastSeen e) (plain.lastSeen e)
  others : ∀ e, ¬ dead e → queried.lastSeen e = plain.lastSeen e ∧
    ∀ c, queried.Located c e ↔ plain.Located c e
  silent : ∀ e, dead e → ¬ Seen since e → ¬ Live ttl t (plain.lastSeen e)
  returned : ∀ e, Seen since e → queried.lastSeen e = plain.lastSeen e
  again : ∀ c e, Reannounced since c e →
    Seen since e ∧ (queried.Located c e ↔ plain.Located c e)

theorem alike_cleanup (s : Tracker) (t : Int) :
    Alike t (fun e => Stale ttl t (s.lastSeen e)) [] s (s.pruneStaleAndCleanup t) where
  seen e := by
    rw [lastSeen_pruneStaleAndCleanup]
    exact (Keeps.refl _).expire
  others e hfresh := by
    rw [lastSeen_pruneStaleAndCleanup, expire_of_not_stale hfresh]
    refine ⟨rfl, ?_⟩
    intro c
    rw [located_pruneStaleAndCleanup]
    exact and_iff_left hfresh
  silent e hdead _ := hdead.not_live
  returned e hseen := by
    obtain ⟨c, hc, -⟩ := hseen
    cases hc
  again c e hagain := by
    obtain ⟨before, after, ep, hsplit, -, ⟨turn, hturn, -⟩, -⟩ := hagain
    rw [(List.append_eq_nil_iff.mp hsplit.symm).1] at hturn
    cases hturn

namespace Alike

variable {t : Int} {dead : Bytes → Prop} {since : List Turn} {plain queried : Tracker} {c : Turn}

/-- The endpoint of the request has returned. -/
theorem see (halike : Alike t dead since plain queried) {ep : PeerEndpoint}
    (hc : c.update = .seen ep) (now : Int) :
    Alike t dead (since ++ [c]) (Tracker.see now ep plain) (Tracker.see now ep queried) where
  seen e := by
    simp only [lastSeen_see]
    split
    · exact Keeps.refl _
    · exact halike.seen e
  others e hfresh := by
    simp only [lastSeen_see, located_see]
    refine ⟨?_, (halike.others e hfresh).2⟩
    split
    · rfl
    · exact (halike.others e hfresh).1
  silent e hdead hnot := by
    have hother : e ≠ entry ep := fun heq => hnot ⟨c, by simp, ep, hc, heq⟩
    simp only [lastSeen_see, if_neg hother]
    exact halike.silent e hdead fun hseen => hnot (hseen.concat c)
  returned e hseen := by
    simp only [lastSeen_see]
    split
    · rfl
    · rename_i hother
      rcases seen_concat hseen with hold | ⟨ep', hsame, rfl⟩
      · exact halike.returned e hold
      · exact absurd (congrArg entry (Update.seen.inj (hsame.symm.trans hc))) hother
  again chunkId e hagain := by
    obtain ⟨hseen, hiff⟩ :=
      halike.again chunkId e (reannounced_of_concat (by simp [hc]) hagain)
    simp only [located_see]
    exact ⟨hseen.concat c, hiff⟩

/-- Both sides have the location. -/
theorem locate (halike : Alike t dead since plain queried) {chunkId : Bytes} {ep : PeerEndpoint}
    (hc : c.update = .located chunkId ep) :
    Alike t dead (since ++ [c]) (plain.addLocation chunkId (entry ep))
      (queried.addLocation chunkId (entry ep)) where
  seen := halike.seen
  others e hfresh := by
    refine ⟨(halike.others e hfresh).1, ?_⟩
    intro chunkId'
    simp only [located_addLocation, (halike.others e hfresh).2 chunkId']
  silent e hdead hnot := halike.silent e hdead fun hseen => hnot (hseen.concat c)
  returned e hseen := halike.returned e (seen_of_concat (by simp [hc]) hseen)
  again chunkId' e hagain := by
    simp only [located_addLocation]
    rcases reannounced_concat hagain with hold | ⟨hseen, ep', hsame, rfl⟩
    · obtain ⟨hseen, hiff⟩ := halike.again chunkId' e hold
      exact ⟨hseen.concat c, or_congr_right hiff⟩
    · cases hc.symm.trans hsame
      exact ⟨hseen.concat c, iff_of_true (Or.inl ⟨rfl, rfl⟩) (Or.inl ⟨rfl, rfl⟩)⟩

/-- An entry that is equally old on both sides is erased on both or on neither. -/
theorem clean (halike : Alike t dead since plain queried) (hc : c.update = .cleaned) {later : Int}
    (hlater : t ≤ later) :
    Alike t dead (since ++ [c]) (plain.pruneStaleAndCleanup later)
      (queried.pruneStaleAndCleanup later) where
  seen e := by
    simp only [lastSeen_pruneStaleAndCleanup]
    exact (halike.seen e).expire_both hlater
  others e hfresh := by
    obtain ⟨hseen, hlocated⟩ := halike.others e hfresh
    simp only [lastSeen_pruneStaleAndCleanup, located_pruneStaleAndCleanup, hseen, hlocated,
      implies_true, and_self]
  silent e hdead hnot := by
    have hgone := halike.silent e hdead fun hseen => hnot (hseen.concat c)
    have hnone : expire ttl later (plain.lastSeen e) = none :=
      expire_of_not_live fun hlive => hgone (hlive.earlier hlater)
    rw [lastSeen_pruneStaleAndCleanup, hnone]
    exact not_live_none
  returned e hseen := by
    simp only [lastSeen_pruneStaleAndCleanup,
      halike.returned e (seen_of_concat (by simp [hc]) hseen)]
  again chunkId e hagain := by
    obtain ⟨hseen, hiff⟩ :=
      halike.again chunkId e (reannounced_of_concat (by simp [hc]) hagain)
    simp only [located_pruneStaleAndCleanup, halike.returned e hseen]
    exact ⟨hseen.concat c, and_congr_left' hiff⟩

theorem skip (halike : Alike t dead since plain queried) (hc : c.update = .nothing) :
    Alike t dead (since ++ [c]) plain queried where
  seen := halike.seen
  others := halike.others
  silent e hdead hnot := halike.silent e hdead fun hseen => hnot (hseen.concat c)
  returned e hseen := halike.returned e (seen_of_concat (by simp [hc]) hseen)
  again chunkId e hagain := by
    obtain ⟨hseen, hiff⟩ :=
      halike.again chunkId e (reannounced_of_concat (by simp [hc]) hagain)
    exact ⟨hseen.concat c, hiff⟩

/-- One more request on both sides. -/
theorem apply (halike : Alike t dead since plain queried) (c : Turn) {now later : Int}
    (hlater : t ≤ later) :
    Alike t dead (since ++ [c]) (c.update.apply now later plain)
      (c.update.apply now later queried) := by
  cases hc : c.update with
  | seen ep => exact halike.see hc now
  | located chunkId ep => exact halike.locate hc
  | cleaned => exact halike.clean hc hlater
  | nothing => exact halike.skip hc

end Alike

theorem alike_run {h₁ : List Turn} {q : Turn} (hq : q.Cleans) (h₂ : List Turn) {t : Int}
    (ht : Timed (h₁ ++ q :: h₂) t) :
    q.later ≤ t ∧
      Alike q.later (fun e => Stale ttl q.later ((run h₁).lastSeen e)) h₂ (run (h₁ ++ h₂))
        (run (h₁ ++ q :: h₂)) := by
  induction h₂ using List.reverseRecOn generalizing t with
  | nil =>
      obtain ⟨hbefore, hturn, hlater⟩ := timed_concat ht
      have hrun : run (h₁ ++ [q]) = (run h₁).pruneStaleAndCleanup q.later := by
        rw [run_concat, turn_eq hturn, hq.update]
        rfl
      rw [List.append_nil, hrun]
      exact ⟨hlater, alike_cleanup (run h₁) q.later⟩
  | append_singleton h₂ c ih =>
      have hsplit : h₁ ++ q :: (h₂ ++ [c]) = (h₁ ++ q :: h₂) ++ [c] := by simp
      rw [hsplit] at ht ⊢
      obtain ⟨hbefore, hturn, hlater⟩ := timed_concat ht
      obtain ⟨hq', halike⟩ := ih hbefore
      rw [← List.append_assoc, run_concat, run_concat, turn_eq hturn, turn_eq hturn]
      exact ⟨hq'.trans (hturn.trans hlater), halike.apply c (hq'.trans hturn)⟩

/-! ### The replies -/

theorem located_announced {h : List Turn} {t : Int} (ht : Timed h t) {c e : Bytes}
    (hlocated : (run h).Located c e) : ∃ ep, e = entry ep ∧ Announced h c ep := by
  induction h using List.reverseRecOn generalizing t with
  | nil => exact absurd hlocated (not_located_empty c e)
  | append_singleton h turn ih =>
      obtain ⟨hbefore, hturn, -⟩ := timed_concat ht
      rw [run_concat, turn_eq hturn] at hlocated
      rcases Update.located_apply hlocated with hold | ⟨ep, hupdate, rfl⟩
      · obtain ⟨ep, rfl, c', hc', hupdate⟩ := ih hbefore hold
        exact ⟨ep, rfl, c', List.mem_append_left _ hc', hupdate⟩
      · exact ⟨ep, rfl, turn, List.mem_append_right _ (List.mem_singleton_self turn), hupdate⟩

/-- Under a limit that no answer reaches, `NEED_REPAIR` returns every chunk with too few live
locations. -/
theorem mem_needRepair {s : Tracker} (hs : s.Whole) (o : TrackerOrders) (later : Int)
    {iss : IStream} (hlimit : (s.chunkIndex.entries.length : Int) ≤ (repairArgs iss).2)
    (x : Bytes) :
    x ∈ replyLines (s.needRepair o later iss).1 ↔
      ∃ c n, x = repairLine (c, n) ∧ s.Counts later c n ∧ 0 < n ∧
        (n : Int) < (repairArgs iss).1 := by
  obtain ⟨rows, hnodup, hrows, hreply⟩ := needRepair_rows hs o later iss
  have hsub : rows.map (·.1) ⊆ s.chunkIndex.keys := by
    intro c hc
    obtain ⟨⟨c', n⟩, hrow, rfl⟩ := List.mem_map.mp hc
    obtain ⟨⟨live, -, hlength, hlive⟩, hpos, -⟩ := (hrows c' n).mp hrow
    obtain ⟨e, he⟩ := List.exists_mem_of_length_pos (hlength ▸ hpos)
    obtain ⟨⟨locs, hlocs, -⟩, -⟩ := (hlive e).mp he
    rw [← AList.mem_keys, ← AList.lookup_isSome, hlocs]
    rfl
  have hlength : rows.length ≤ s.chunkIndex.entries.length :=
    calc rows.length = (rows.map (·.1)).length := (List.length_map _).symm
      _ ≤ s.chunkIndex.keys.length := (List.subperm_of_subset hnodup hsub).length_le
      _ = s.chunkIndex.entries.length := List.length_map _
  rw [hreply, List.take_of_length_le (by omega), List.mem_map]
  constructor
  · rintro ⟨⟨c, n⟩, hrow, rfl⟩
    exact ⟨c, n, rfl, (hrows c n).mp hrow⟩
  · rintro ⟨c, n, rfl, hcounts⟩
    exact ⟨(c, n), (hrows c n).mpr hcounts, rfl⟩

theorem whereChunk_malformed {iss : IStream} (hid : (iss.getString []).1 = []) {s : Tracker}
    {o : TrackerOrders} {now : Int} :
    (s.whereChunk o now iss).1 = str "ERR invalid WHERE. Use: WHERE <chunk_id>\n" := by
  unfold whereChunk
  dsimp only
  rw [if_pos hid]

theorem keepAlive_stateless (usage : Bytes) (now : Int) (iss : IStream) (s s' : Tracker) :
    (keepAlive usage now iss s).1 = (keepAlive usage now iss s').1 := by
  unfold keepAlive
  dsimp only
  split <;> rfl

theorem announce_stateless (iss : IStream) (s s' : Tracker) :
    (s.announce iss).1 = (s'.announce iss).1 := by
  unfold announce
  dsimp only
  split <;> rfl

/-- What is not a query is answered by the line alone. -/
theorem answer_stateless {line : Bytes}
    (hcmd : command line ∉ [str "GET_PEERS", str "WHERE", str "NEED_REPAIR"]) (s s' : Tracker)
    (o : TrackerOrders) (now later : Int) :
    (s.answer o now later line).1 = (s'.answer o now later line).1 := by
  simp only [List.mem_cons, List.not_mem_nil, or_false, not_or] at hcmd
  obtain ⟨hpeers, hwhere, hrepair⟩ := hcmd
  rw [answer_eq, answer_eq]
  split
  · exact keepAlive_stateless _ now _ s s'
  split
  · exact keepAlive_stateless _ now _ s s'
  split
  · exact announce_stateless _ s s'
  rfl

/-- No chunk of which this could be the row has a forgotten location. -/
def RowUnaffected (h₁ : List Turn) (q : Turn) (h₂ : List Turn) (x : Bytes) : Prop :=
  ∀ c n, x = repairLine (c, n) → ∀ e, ¬ Forgotten h₁ q h₂ c e

section Main

variable {h₁ h₂ : List Turn} {q : Turn} {t : Int}

theorem announced_without {c : Bytes} {ep : PeerEndpoint} (hq : q.Cleans)
    (hannounced : Announced (h₁ ++ q :: h₂) c ep) : Announced (h₁ ++ h₂) c ep := by
  obtain ⟨turn, hturn, hupdate⟩ := hannounced
  refine ⟨turn, ?_, hupdate⟩
  rcases List.mem_append.mp hturn with hfirst | hrest
  · exact List.mem_append_left _ hfirst
  · rcases List.mem_cons.mp hrest with rfl | hlast
    · rw [hq.update] at hupdate
      cases hupdate
    · exact List.mem_append_right _ hlast

theorem timed_without (ht : Timed (h₁ ++ q :: h₂) t) : Timed (h₁ ++ h₂) t :=
  ht.sublist (List.Sublist.append_left (List.sublist_cons_self q h₂) h₁)

/-- A location that is not forgotten is live in both or in neither. -/
theorem live_location_iff (hq : q.Cleans) (ht : Timed (h₁ ++ q :: h₂) t) {now : Int}
    (hnow : t ≤ now) {c e : Bytes} (hkept : ¬ Forgotten h₁ q h₂ c e) :
    (run (h₁ ++ q :: h₂)).Located c e ∧ Live ttl now ((run (h₁ ++ q :: h₂)).lastSeen e) ↔
      (run (h₁ ++ h₂)).Located c e ∧ Live ttl now ((run (h₁ ++ h₂)).lastSeen e) := by
  obtain ⟨hq', halike⟩ := alike_run hq h₂ ht
  rw [(halike.seen e).live_iff (hq'.trans hnow)]
  by_cases hannounced : ∃ ep, e = entry ep ∧ Announced (h₁ ++ h₂) c ep
  · by_cases hdead : Stale ttl q.later ((run h₁).lastSeen e)
    · by_cases hseen : Seen h₂ e
      · have hagain : Reannounced h₂ c e := by
          by_contra hlost
          exact hkept ⟨hdead, hannounced, hseen, hlost⟩
        rw [(halike.again c e hagain).2]
      · have hgone : ¬ Live ttl now ((run (h₁ ++ h₂)).lastSeen e) := fun hlive =>
          halike.silent e hdead hseen (hlive.earlier (hq'.trans hnow))
        exact iff_of_false (fun h => hgone h.2) fun h => hgone h.2
    · rw [(halike.others e hdead).2 c]
  · refine iff_of_false ?_ ?_
    · rintro ⟨hlocated, -⟩
      obtain ⟨ep, rfl, hmade⟩ := located_announced ht hlocated
      exact hannounced ⟨ep, rfl, announced_without hq hmade⟩
    · rintro ⟨hlocated, -⟩
      exact hannounced (located_announced (timed_without ht) hlocated)

theorem mem_needRepair_iff (hq : q.Cleans) (ht : Timed (h₁ ++ q :: h₂) t) (o : TrackerOrders)
    {later : Int} (hlater : t ≤ later) {iss : IStream}
    (hplain : ((run (h₁ ++ h₂)).chunkIndex.entries.length : Int) ≤ (repairArgs iss).2)
    (hqueried : ((run (h₁ ++ q :: h₂)).chunkIndex.entries.length : Int) ≤ (repairArgs iss).2)
    {x : Bytes} (hx : RowUnaffected h₁ q h₂ x) :
    x ∈ replyLines ((run (h₁ ++ q :: h₂)).needRepair o later iss).1 ↔
      x ∈ replyLines ((run (h₁ ++ h₂)).needRepair o later iss).1 := by
  rw [mem_needRepair (run_whole ht) o later hqueried,
    mem_needRepair (run_whole (timed_without ht)) o later hplain]
  apply exists_congr
  intro c
  apply exists_congr
  intro n
  apply and_congr_right
  intro hrow
  have hsame := fun e => live_location_iff hq ht hlater (hx c n hrow e)
  simp only [Counts, hsame]

/-- **A query among the requests.** It changes no later `GET_PEERS`. It changes later answers of
`WHERE` and `NEED_REPAIR` about forgotten locations only: those of peers that it found dead, that
were seen again and that were not announced for the chunk since. Nothing else is answered
differently. -/
theorem query_changes_returning_only (h₁ h₂ : List Turn) (q r : Turn) (hq : q.Cleans)
    (ht : Timed (h₁ ++ q :: h₂ ++ [r]) r.later) (line : Bytes) (hline : r.line = some line) :
    (command line = str "GET_PEERS" → ∀ x,
      x ∈ replyLines ((run (h₁ ++ q :: h₂)).reply r) ↔ x ∈ replyLines ((run (h₁ ++ h₂)).reply r)) ∧
    (command line = str "WHERE" → ∀ x,
      ¬ Forgotten h₁ q h₂ ((arguments line).getString []).1 x →
      (x ∈ replyLines ((run (h₁ ++ q :: h₂)).reply r) ↔
        x ∈ replyLines ((run (h₁ ++ h₂)).reply r))) ∧
    (command line = str "NEED_REPAIR" →
      ((run (h₁ ++ h₂)).chunkIndex.entries.length : Int) ≤ (repairArgs (arguments line)).2 →
      ((run (h₁ ++ q :: h₂)).chunkIndex.entries.length : Int) ≤ (repairArgs (arguments line)).2 →
      ∀ x, RowUnaffected h₁ q h₂ x →
        (x ∈ replyLines ((run (h₁ ++ q :: h₂)).reply r) ↔
          x ∈ replyLines ((run (h₁ ++ h₂)).reply r))) ∧
    (command line ∉ [str "GET_PEERS", str "WHERE", str "NEED_REPAIR"] →
      (run (h₁ ++ q :: h₂)).reply r = (run (h₁ ++ h₂)).reply r) := by
  obtain ⟨hbefore, hturn, -⟩ := timed_concat ht
  obtain ⟨hq', halike⟩ := alike_run hq h₂ hbefore
  have hplain := run_whole (timed_without hbefore)
  have hqueried := run_whole hbefore
  rw [reply_of_line hline, reply_of_line hline]
  refine ⟨?_, ?_, ?_, ?_⟩
  · intro hcmd x
    rw [answer_getPeers _ _ _ _ hcmd, answer_getPeers _ _ _ _ hcmd,
      (getPeers_lists hqueried r.orders hturn).2 x, (getPeers_lists hplain r.orders hturn).2 x]
    exact (halike.seen x).live_iff (hq'.trans hturn)
  · intro hcmd x hkept
    rw [answer_whereChunk _ _ _ _ hcmd, answer_whereChunk _ _ _ _ hcmd]
    by_cases hid : ((arguments line).getString []).1 = []
    · rw [whereChunk_malformed hid, whereChunk_malformed hid]
    · rw [(whereChunk_lists hqueried r.orders hid r.now).2 x,
        (whereChunk_lists hplain r.orders hid r.now).2 x]
      exact live_location_iff hq hbefore le_rfl hkept
  · intro hcmd hfew hfew' x hx
    rw [answer_needRepair _ _ _ _ hcmd, answer_needRepair _ _ _ _ hcmd]
    exact mem_needRepair_iff hq hbefore r.orders hturn hfew hfew' hx
  · intro hcmd
    exact answer_stateless hcmd _ _ r.orders r.now r.later

end Main

/-! ### A peer that returns -/

def second : Int := 1000000000

def heartbeatTurn (t : Int) : Turn :=
  { now := t, later := t, sock := ⟨str "HEARTBEAT a 1\n", [], .closed⟩ }

def announcingTurn (t : Int) : Turn :=
  { now := t, later := t, sock := ⟨str "ANNOUNCE c a 1\n", [], .closed⟩ }

def whereTurn (t : Int) : Turn := { now := t, later := t, sock := ⟨str "WHERE c\n", [], .closed⟩ }

def repairTurn (t : Int) : Turn :=
  { now := t, later := t, sock := ⟨str "NEED_REPAIR 2 5\n", [], .closed⟩ }

theorem heartbeatTurn_line (t : Int) : (heartbeatTurn t).line = some (str "HEARTBEAT a 1") := by
  show (recvLine ⟨str "HEARTBEAT a 1\n", [], .closed⟩).1 = some (str "HEARTBEAT a 1")
  decide

theorem heartbeatTurn_update (t : Int) : (heartbeatTurn t).update = .seen ⟨str "a", 1⟩ := by
  show Turn.update { now := 0, later := 0, sock := ⟨str "HEARTBEAT a 1\n", [], .closed⟩ } = _
  decide

theorem announcingTurn_update (t : Int) :
    (announcingTurn t).update = .located (str "c") ⟨str "a", 1⟩ := by
  show Turn.update { now := 0, later := 0, sock := ⟨str "ANNOUNCE c a 1\n", [], .closed⟩ } = _
  decide

theorem whereTurn_line (t : Int) : (whereTurn t).line = some (str "WHERE c") := by
  show (recvLine ⟨str "WHERE c\n", [], .closed⟩).1 = some (str "WHERE c")
  decide

theorem repairTurn_line (t : Int) : (repairTurn t).line = some (str "NEED_REPAIR 2 5") := by
  show (recvLine ⟨str "NEED_REPAIR 2 5\n", [], .closed⟩).1 = some (str "NEED_REPAIR 2 5")
  decide

/-- The peer is heard again after 40 seconds, and announces its chunk again. -/
def comeback : List Turn := [heartbeatTurn (40 * second), announcingTurn (41 * second)]

theorem comeback_timed {r : Turn} (hr : r.now = 42 * second) (hlater : r.later = 42 * second) :
    Timed (pairHistory ++ listingTurn (35 * second) :: comeback ++ [r]) r.later := by
  unfold Timed
  simp only [comeback, List.append_assoc, List.cons_append, List.nil_append, List.flatMap_append,
    List.flatMap_cons, List.flatMap_nil, hr, hlater]
  decide

theorem comeback_keeps (c e : Bytes) :
    ¬ Forgotten pairHistory (listingTurn (35 * second)) comeback c e := by
  rintro ⟨-, ⟨ep, rfl, turn, hturn, hupdate⟩, -, hlost⟩
  have hmade : turn.update = .located c ep → c = str "c" ∧ ep = ⟨str "a", 1⟩ := by
    intro hupdate
    simp only [pairHistory, comeback, List.cons_append, List.nil_append, List.mem_cons,
      List.not_mem_nil, or_false] at hturn
    rcases hturn with rfl | rfl | rfl | rfl
    · rw [registerTurn_update] at hupdate
      cases hupdate
    · rw [announceTurn_update] at hupdate
      cases hupdate
      exact ⟨rfl, rfl⟩
    · rw [heartbeatTurn_update] at hupdate
      cases hupdate
    · rw [announcingTurn_update] at hupdate
      cases hupdate
      exact ⟨rfl, rfl⟩
  obtain ⟨rfl, rfl⟩ := hmade hupdate
  exact hlost ⟨[heartbeatTurn (40 * second)], [announcingTurn (41 * second)], _, rfl, rfl,
    ⟨_, List.mem_singleton_self _, _, heartbeatTurn_update _, rfl⟩,
    _, List.mem_singleton_self _, announcingTurn_update _⟩

/-- A listing before the peer comes back does not change the answers after it. -/
theorem listing_unchanged :
    let queried := run (pairHistory ++ listingTurn (35 * second) :: comeback)
    let plain := run (pairHistory ++ comeback)
    (str "a:1" ∈ replyLines (queried.reply (listingTurn (42 * second))) ↔
      str "a:1" ∈ replyLines (plain.reply (listingTurn (42 * second)))) ∧
    (str "a:1" ∈ replyLines (queried.reply (whereTurn (42 * second))) ↔
      str "a:1" ∈ replyLines (plain.reply (whereTurn (42 * second)))) ∧
    (str "c 1" ∈ replyLines (queried.reply (repairTurn (42 * second))) ↔
      str "c 1" ∈ replyLines (plain.reply (repairTurn (42 * second)))) ∧
    queried.reply (heartbeatTurn (42 * second)) = plain.reply (heartbeatTurn (42 * second)) := by
  have hquery := fun r => query_changes_returning_only pairHistory comeback
    (listingTurn (35 * second)) r (listingTurn_cleans _)
  refine ⟨?_, ?_, ?_, ?_⟩
  · exact (hquery _ (comeback_timed rfl rfl) _ (listingTurn_line _)).1 (by decide) _
  · exact (hquery _ (comeback_timed rfl rfl) _ (whereTurn_line _)).2.1 (by decide) _
      (comeback_keeps _ _)
  · exact (hquery _ (comeback_timed rfl rfl) _ (repairTurn_line _)).2.2.1 (by decide)
      (by decide +kernel) (by decide +kernel) _ fun c _ _ e => comeback_keeps c e
  · exact (hquery _ (comeback_timed rfl rfl) _ (heartbeatTurn_line _)).2.2.2 (by decide)

theorem mem_reply_whereTurn {s : Tracker} (hs : s.Whole) (t : Int) (x : Bytes) :
    x ∈ replyLines (s.reply (whereTurn t)) ↔
      s.Located (str "c") x ∧ Live ttl t (s.lastSeen x) := by
  rw [reply_of_line (whereTurn_line t)]
  exact (where_lists hs (whereTurn t).orders t t (c := str "c") (by decide)).2 x

theorem pairHistory_seen : (run pairHistory).lastSeen (str "a:1") = some 0 := by
  rw [pairHistory_state, lastSeen_addLocation, lastSeen_see, if_pos (by decide)]

theorem pairHistory_located : (run pairHistory).Located (str "c") (str "a:1") := by
  rw [pairHistory_state, located_addLocation]
  exact Or.inl ⟨rfl, by decide⟩

/-- A peer announces a chunk, is silent for 40 seconds and sends a heartbeat. The listing asked for
in between makes the tracker forget the chunk. -/
theorem query_forgets_location :
    ¬ ∀ (h₁ h₂ : List Turn) (q r : Turn), q.Cleans → Timed (h₁ ++ q :: h₂ ++ [r]) r.later →
      ∀ line, r.line = some line → command line = str "WHERE" →
        ∀ x, x ∈ replyLines ((run (h₁ ++ q :: h₂)).reply r) ↔
          x ∈ replyLines ((run (h₁ ++ h₂)).reply r) := by
  intro hall
  have ht : Timed (pairHistory ++ listingTurn (35 * second) :: [heartbeatTurn (40 * second)] ++
      [whereTurn (41 * second)]) (41 * second) := by
    unfold Timed
    decide
  have hsame := hall pairHistory [heartbeatTurn (40 * second)] (listingTurn (35 * second))
    (whereTurn (41 * second)) (listingTurn_cleans _) ht (str "WHERE c") (whereTurn_line _)
    (by decide) (str "a:1")
  obtain ⟨hbefore, -, -⟩ := timed_concat ht
  have hqueried := run_whole hbefore
  have hplain : (run (pairHistory ++ [heartbeatTurn (40 * second)])).Whole :=
    run_whole (hbefore.sublist (List.Sublist.append_left
      (List.sublist_cons_self _ [heartbeatTurn (40 * second)]) pairHistory))
  rw [mem_reply_whereTurn hqueried, mem_reply_whereTurn hplain] at hsame
  have hlocated := hsame.mpr
  have hsplit : pairHistory ++ [listingTurn (35 * second), heartbeatTurn (40 * second)] =
      pairHistory ++ [listingTurn (35 * second)] ++ [heartbeatTurn (40 * second)] := rfl
  rw [hsplit, run_concat, run_concat, run_concat, turn_eq le_rfl, turn_eq le_rfl,
    turn_eq le_rfl, heartbeatTurn_update, (listingTurn_cleans _).update] at hlocated
  simp only [Update.apply, located_see, lastSeen_see, located_pruneStaleAndCleanup,
    pairHistory_seen] at hlocated
  have hlive : Live ttl (41 * second) (if str "a:1" = entry ⟨str "a", 1⟩ then some (40 * second)
      else some 0) := ⟨40 * second, by rw [if_pos (by decide)], by decide⟩
  have hstale : Stale ttl (35 * second) (some 0) := ⟨0, rfl, by decide⟩
  exact (hlocated ⟨pairHistory_located, hlive⟩).1.2 hstale

end Tracker

end DecentStore
