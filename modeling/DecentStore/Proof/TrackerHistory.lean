import DecentStore.Proof.TrackerReplies
import Mathlib.Data.List.Flatten
import Mathlib.Data.Set.Card

/-!
# What the tracker knows after a history

The tracker may have dropped an endpoint that is no longer live, and then a cleanup has done it. So
its table keeps the latest `REGISTER` or `HEARTBEAT` of every endpoint, as a table of leases does,
and the queries agree about what is live.
-/

namespace DecentStore

open Bytes Lease

namespace Tracker

/-- The line of a connection, if it can be read. -/
def Turn.line (c : Turn) : Option Bytes := (recvLine c.sock).1

def Turn.update (c : Turn) : Update :=
  match c.line with
  | none => .nothing
  | some line => updateOf line

def reply (s : Tracker) (c : Turn) : Bytes := (s.serve c.orders c.now c.later c.sock).1

theorem reply_of_line {s : Tracker} {c : Turn} {line : Bytes} (hline : c.line = some line) :
    s.reply c = (s.answer c.orders c.now c.later line).1 := by
  unfold Turn.line at hline
  unfold reply serve
  rcases hrecv : recvLine c.sock with ⟨got, sock⟩
  rw [hrecv] at hline
  cases hline
  rfl

theorem turn_eq {c : Turn} (hc : c.now ≤ c.later) (s : Tracker) :
    s.turn c = c.update.apply c.now c.later s := by
  unfold turn serve Turn.update Turn.line
  rcases hrecv : recvLine c.sock with ⟨got, sock⟩
  cases got with
  | none => rfl
  | some line => exact answer_snd c.orders hc line s

theorem run_concat (h : List Turn) (c : Turn) : run (h ++ [c]) = (run h).turn c := by
  rw [run, List.foldl_append]
  rfl

/-- The latest valid `REGISTER` or `HEARTBEAT` of an endpoint. -/
def latest (h : List Turn) (ep : PeerEndpoint) : Option Int :=
  ((h.filter fun c => c.update = .seen ep).getLast?).map (·.now)

theorem latest_concat (h : List Turn) (c : Turn) (ep : PeerEndpoint) :
    latest (h ++ [c]) ep = if c.update = .seen ep then some c.now else latest h ep := by
  unfold latest
  rw [List.filter_append]
  by_cases hseen : c.update = .seen ep
  · simp [hseen]
  · simp [hseen]

theorem timed_concat {h : List Turn} {c : Turn} {t : Int} (ht : Timed (h ++ [c]) t) :
    Timed h c.now ∧ c.now ≤ c.later ∧ c.later ≤ t := by
  unfold Timed at ht ⊢
  rw [List.flatMap_append, List.append_assoc] at ht
  obtain ⟨hbefore, hlast, hcross⟩ := List.pairwise_append.mp ht
  refine ⟨?_, ?_, ?_⟩
  · apply List.pairwise_append.mpr
    refine ⟨hbefore, List.pairwise_singleton _ _, ?_⟩
    intro a ha b hb
    rw [List.mem_singleton.mp hb]
    exact hcross a ha c.now (by simp)
  · exact List.rel_of_pairwise_cons hlast (by simp)
  · exact List.rel_of_pairwise_cons (List.Pairwise.of_cons hlast) (by simp)

theorem Timed.later {h : List Turn} {t t' : Int} (ht : Timed h t) (hle : t ≤ t') : Timed h t' := by
  obtain ⟨hbefore, -, hcross⟩ := List.pairwise_append.mp ht
  apply List.pairwise_append.mpr
  refine ⟨hbefore, List.pairwise_singleton _ _, ?_⟩
  intro a ha b hb
  rw [List.mem_singleton.mp hb]
  exact le_trans (hcross a ha t (List.mem_singleton_self t)) hle

theorem Timed.sublist {h h' : List Turn} {t : Int} (ht : Timed h t) (hsub : h'.Sublist h) :
    Timed h' t :=
  List.Pairwise.sublist ((hsub.flatMap _).append_right [t]) ht

theorem run_whole {h : List Turn} {t : Int} (ht : Timed h t) : (run h).Whole := by
  induction h using List.reverseRecOn generalizing t with
  | nil => exact whole_empty
  | append_singleton h c ih =>
      obtain ⟨hbefore, hc, -⟩ := timed_concat ht
      have hvalid : c.update.Valid := by
        unfold Turn.update
        split
        · trivial
        · exact updateOf_valid _
      rw [run_concat, turn_eq hc]
      exact (ih hbefore).apply hvalid c.now c.later

/-- **The table keeps the latest sign of life.** -/
theorem run_keeps {h : List Turn} {t : Int} (ht : Timed h t) (ep : PeerEndpoint) :
    Keeps ttl t ((run h).lastSeen (entry ep)) (latest h ep) := by
  induction h using List.reverseRecOn generalizing t with
  | nil => exact Keeps.refl none
  | append_singleton h c ih =>
      obtain ⟨hbefore, hc, hlater⟩ := timed_concat ht
      have hkeeps := ih hbefore
      rw [run_concat, turn_eq hc, latest_concat]
      cases hupdate : c.update with
      | seen ep' =>
          rw [Update.apply, lastSeen_see]
          by_cases hsame : ep = ep'
          · rw [if_pos (congrArg entry hsame), if_pos (congrArg Update.seen hsame.symm)]
            exact Keeps.refl _
          · rw [if_neg fun heq => hsame (entry_injective heq),
              if_neg fun heq => hsame (Update.seen.inj heq).symm]
            exact hkeeps.later (hc.trans hlater)
      | located chunkId ep' =>
          rw [if_neg Update.noConfusion]
          exact hkeeps.later (hc.trans hlater)
      | cleaned =>
          rw [if_neg Update.noConfusion, Update.apply, lastSeen_pruneStaleAndCleanup]
          exact ((hkeeps.later hc).expire).later hlater
      | nothing =>
          rw [if_neg Update.noConfusion]
          exact hkeeps.later (hc.trans hlater)

theorem live_run_iff {h : List Turn} {t : Int} (ht : Timed h t) (x : Bytes) :
    Live ttl t ((run h).lastSeen x) ↔ ∃ ep, Live ttl t (latest h ep) ∧ x = entry ep := by
  constructor
  · intro hlive
    have hmem : x ∈ (run h).peers := by
      rw [mem_peers_iff]
      intro hnone
      rw [hnone] at hlive
      exact not_live_none hlive
    obtain ⟨ep, -, rfl⟩ := (run_whole ht).peers x hmem
    exact ⟨ep, ((run_keeps ht ep).live_iff le_rfl).mp hlive, rfl⟩
  · rintro ⟨ep, hlive, rfl⟩
    exact ((run_keeps ht ep).live_iff le_rfl).mpr hlive

end Tracker

end DecentStore
