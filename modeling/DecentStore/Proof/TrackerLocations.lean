import DecentStore.Lib.Since
import DecentStore.Proof.TrackerLiveness

/-!
# Where a chunk is

The tracker forgets a location when a cleanup finds the lease of its peer run out, and only then: a
peer it has already forgotten is not found, so what such a peer announces stays. Told from the
history alone, a location is there if it has been announced and its peer has not been expelled
since.
-/

namespace DecentStore

open Bytes Lease History

namespace Tracker

variable {h : List Turn} {c : Turn} {t : Int} {ep : PeerEndpoint}

/-- A cleanup at which the latest sign of life is too old. -/
def RunsOut (h : List Turn) (q : Turn) (ep : PeerEndpoint) : Prop :=
  q.update = .cleaned ∧ Stale ttl q.later (latest h ep)

/-- The lease has run out at a cleanup, and the peer has not been seen since. -/
def Dropped (h : List Turn) (ep : PeerEndpoint) : Prop :=
  Since (fun h q => RunsOut h q ep) (fun _ c => c.update = .seen ep) h

/-- The first cleanup at which the lease has run out. -/
def Expels (h : List Turn) (q : Turn) (ep : PeerEndpoint) : Prop :=
  RunsOut h q ep ∧ ¬ Dropped h ep

/-- The peer has announced the chunk and has not been expelled since. -/
def Announces (h : List Turn) (chunkId : Bytes) (ep : PeerEndpoint) : Prop :=
  Since (fun _ a => a.update = .located chunkId ep) (fun h q => Expels h q ep) h

theorem dropped_concat :
    Dropped (h ++ [c]) ep ↔ RunsOut h c ep ∨ Dropped h ep ∧ c.update ≠ .seen ep := since_concat

theorem announces_concat {chunkId : Bytes} : Announces (h ++ [c]) chunkId ep ↔
    c.update = .located chunkId ep ∨ Announces h chunkId ep ∧ ¬ Expels h c ep := since_concat

/-- **What the table has** of a peer is its latest sign of life, unless it has been dropped. -/
theorem lastSeen_run (ht : Timed h t) (ep : PeerEndpoint) :
    (Dropped h ep → (run h).lastSeen (entry ep) = none) ∧
      (¬ Dropped h ep → (run h).lastSeen (entry ep) = latest h ep) := by
  induction h using List.reverseRecOn generalizing t with
  | nil => exact ⟨fun hdropped => absurd hdropped not_since_nil, fun _ => rfl⟩
  | append_singleton h c ih =>
      obtain ⟨hbefore, hc, -⟩ := timed_concat ht
      have ih := ih hbefore
      rw [dropped_concat, run_concat, turn_eq hc, latest_concat]
      -- only a sign of life of this peer and a cleanup make a difference
      have hother : c.update ≠ .seen ep → c.update ≠ .cleaned →
          (c.update.apply c.now c.later (run h)).lastSeen (entry ep) =
            (run h).lastSeen (entry ep) →
          (RunsOut h c ep ∨ Dropped h ep ∧ c.update ≠ .seen ep →
            (c.update.apply c.now c.later (run h)).lastSeen (entry ep) = none) ∧
          (¬ (RunsOut h c ep ∨ Dropped h ep ∧ c.update ≠ .seen ep) →
            (c.update.apply c.now c.later (run h)).lastSeen (entry ep) =
              if c.update = .seen ep then some c.now else latest h ep) := by
        intro hseen hcleaned hsame
        have hnot : ¬ RunsOut h c ep := fun hout => hcleaned hout.1
        rw [hsame, if_neg hseen]
        exact ⟨fun hdropped => ih.1 (hdropped.resolve_left hnot).1,
          fun hkept => ih.2 fun hdropped => hkept (Or.inr ⟨hdropped, hseen⟩)⟩
      cases hupdate : c.update with
      | seen ep' =>
          by_cases hsame : ep' = ep
          · subst hsame
            have hnot : ¬ RunsOut h c ep' := fun hout => by simp [hout.1] at hupdate
            rw [Update.apply, lastSeen_see, if_pos rfl, if_pos rfl]
            exact ⟨fun hdropped => absurd rfl (hdropped.resolve_left hnot).2, fun _ => rfl⟩
          · have hne : Update.seen ep' ≠ .seen ep := fun heq => hsame (Update.seen.inj heq)
            rw [hupdate] at hother
            refine hother hne Update.noConfusion ?_
            rw [Update.apply, lastSeen_see, if_neg fun heq => hsame (entry_injective heq).symm]
      | located chunkId ep' =>
          rw [hupdate] at hother
          exact hother Update.noConfusion Update.noConfusion rfl
      | cleaned =>
          rw [Update.apply, lastSeen_pruneStaleAndCleanup, if_neg Update.noConfusion]
          constructor
          · rintro (hout | ⟨hdropped, -⟩)
            · by_cases hbefore : Dropped h ep
              · rw [ih.1 hbefore]
                rfl
              · rw [ih.2 hbefore]
                exact expire_of_not_live hout.2.not_live
            · rw [ih.1 hdropped]
              rfl
          · intro hkept
            obtain ⟨hin, hbefore⟩ := not_or.mp hkept
            have hnot : ¬ Dropped h ep := fun hdropped =>
              hbefore ⟨hdropped, Update.noConfusion⟩
            rw [ih.2 hnot]
            exact expire_of_not_stale fun hstale => hin ⟨hupdate, hstale⟩
      | nothing =>
          rw [hupdate] at hother
          exact hother Update.noConfusion Update.noConfusion rfl

/-- A cleanup takes away the locations of the peers that it expels. -/
theorem stale_run_iff (ht : Timed h t) (hclean : c.update = .cleaned) :
    Stale ttl c.later ((run h).lastSeen (entry ep)) ↔ Expels h c ep := by
  obtain ⟨hdropped, hkept⟩ := lastSeen_run ht ep
  by_cases hgone : Dropped h ep
  · rw [hdropped hgone]
    exact iff_of_false (by rintro ⟨s, hnone, -⟩; cases hnone) fun hexpels => hexpels.2 hgone
  · rw [hkept hgone]
    exact ⟨fun hstale => ⟨⟨hclean, hstale⟩, hgone⟩, fun hexpels => hexpels.1.2⟩

theorem located_run_iff (ht : Timed h t) (chunkId : Bytes) (ep : PeerEndpoint) :
    (run h).Located chunkId (entry ep) ↔ Announces h chunkId ep := by
  induction h using List.reverseRecOn generalizing t with
  | nil => exact iff_of_false (not_located_empty _ _) not_since_nil
  | append_singleton h c ih =>
      obtain ⟨hbefore, hc, -⟩ := timed_concat ht
      rw [run_concat, turn_eq hc, announces_concat, ← ih hbefore]
      have hstays : c.update ≠ .cleaned → ¬ Expels h c ep := fun hne hexpels => hne hexpels.1.1
      cases hupdate : c.update with
      | seen ep' =>
          rw [hupdate] at hstays
          rw [Update.apply, located_see]
          simp [hstays Update.noConfusion]
      | located chunkId' ep' =>
          rw [hupdate] at hstays
          rw [Update.apply, located_addLocation]
          simp only [hstays Update.noConfusion, not_false_iff, and_true, Update.located.injEq]
          constructor
          · rintro (⟨rfl, hsame⟩ | hold)
            · exact Or.inl ⟨rfl, (entry_injective hsame).symm⟩
            · exact Or.inr hold
          · rintro (⟨rfl, rfl⟩ | hold)
            · exact Or.inl ⟨rfl, rfl⟩
            · exact Or.inr hold
      | cleaned =>
          rw [Update.apply, located_pruneStaleAndCleanup, stale_run_iff hbefore hupdate]
          simp
      | nothing =>
          rw [hupdate] at hstays
          simp [Update.apply, hstays Update.noConfusion]

/-- **What `WHERE` answers.** After any requests of anybody it lists the peers whose latest sign of
life is not too old and that have announced the chunk, each once, except those that a cleanup has
expelled since. -/
theorem where_lists_announced (h : List Turn) (t : Int) (ht : Timed h t) (o : TrackerOrders)
    (later : Int) {chunkId : Bytes} (hid : Token chunkId) :
    Lists ((run h).answer o t later (str "WHERE " ++ chunkId)).1
      fun x => ∃ ep, (Live ttl t (latest h ep) ∧ Announces h chunkId ep) ∧ x = entry ep := by
  have hlists := where_lists (run_whole ht) o t later hid
  refine ⟨hlists.1, fun x => (hlists.2 x).trans ?_⟩
  dsimp only
  rw [live_run_iff ht]
  constructor
  · rintro ⟨hlocated, ep, hlive, rfl⟩
    exact ⟨ep, ⟨hlive, (located_run_iff ht chunkId ep).mp hlocated⟩, rfl⟩
  · rintro ⟨ep, ⟨hlive, hannounces⟩, rfl⟩
    exact ⟨(located_run_iff ht chunkId ep).mpr hannounces, ep, hlive, rfl⟩

theorem pairHistory_where : Lists ((run pairHistory).answer default 5 5 (str "WHERE c")).1
    fun x => ∃ ep, (Live ttl 5 (latest pairHistory ep) ∧ Announces pairHistory (str "c") ep) ∧
      x = entry ep :=
  where_lists_announced pairHistory 5 pairHistory_timed default 5 (by decide)

end Tracker

end DecentStore
