import DecentStore.Lib.Lease
import DecentStore.Lib.Text
import DecentStore.Tracker

/-!
# What a request does to the tracker

A line updates the tracker in one of four ways, and each is seen entry by entry: in when an entry
was last seen, and in which entries are locations of which chunk. A cleanup lets the entries expire
that are no longer live, and takes their locations away.
-/

namespace DecentStore

open Bytes Lease

namespace Tracker

/-- The key of an endpoint in the maps. -/
def entry (ep : PeerEndpoint) : Bytes := entryOf ep.ip ep.port

theorem colon_notMem_decimalInt (n : Int) : (58 : UInt8) ∉ decimalInt n := by
  have hdigits : (58 : UInt8) ∉ decimal n.natAbs := fun hmem =>
    absurd (isDigit_of_mem_decimal hmem) (by decide)
  unfold decimalInt
  split
  · simpa using hdigits
  · exact hdigits

theorem decimalInt_injective : Function.Injective decimalInt := by
  intro m n hsame
  have hdigits : ∀ k : Nat, (45 : UInt8) ∉ decimal k := fun k hmem =>
    absurd (isDigit_of_mem_decimal hmem) (by decide)
  have hhead : ∀ (k l : Nat), 45 :: decimal k ≠ decimal l := fun k l h =>
    hdigits l (h ▸ List.mem_cons_self)
  unfold decimalInt at hsame
  split at hsame <;> split at hsame
  · have := decimal_injective (List.cons.inj hsame).2
    omega
  · exact absurd hsame (hhead _ _)
  · exact absurd hsame.symm (hhead _ _)
  · have := decimal_injective hsame
    omega

theorem entry_eq (ep : PeerEndpoint) : entry ep = ep.ip ++ 58 :: decimalInt ep.port := by
  have hcolon : str ":" = [58] := by decide
  rw [entry, entryOf, hcolon, List.append_assoc, List.singleton_append]

theorem entry_injective : Function.Injective entry := by
  intro a b hsame
  rw [entry_eq, entry_eq] at hsame
  obtain ⟨hip, hport⟩ := Text.append_cons_inj_right (colon_notMem_decimalInt _)
    (colon_notMem_decimalInt _) hsame
  cases a
  cases b
  exact congrArg₂ PeerEndpoint.mk hip (decimalInt_injective hport)

structure Accepted (ep : PeerEndpoint) : Prop where
  ip : Token ep.ip
  port : 0 < ep.port ∧ ep.port ≤ 65535

theorem decimalInt_of_pos {n : Int} (hn : 0 < n) : decimalInt n = decimal n.toNat := by
  have hnot : ¬ n < 0 := by omega
  have habs : n.natAbs = n.toNat := by omega
  rw [decimalInt, if_neg hnot, habs]

theorem Accepted.token {ep : PeerEndpoint} (hep : Accepted ep) : Token (entry ep) := by
  have hport := decimal_token ep.port.toNat
  rw [entry_eq, decimalInt_of_pos hep.port.1]
  refine ⟨by simp [hep.ip.1], ?_⟩
  intro b hb
  rcases List.mem_append.mp hb with hip | hrest
  · exact hep.ip.2 b hip
  · rcases List.mem_cons.mp hrest with rfl | hdigit
    · decide
    · exact hport.2 b hdigit

/-! ### Lines -/

def endpointOf (iss : IStream) : Option PeerEndpoint :=
  let (ip, iss) := iss.getString []
  let (p, _) := iss.getInt 0
  if ip = [] ∨ p ≤ 0 ∨ 65535 < p then none else some ⟨ip, p⟩

/-- What a line does to the tracker. -/
inductive Update where
  | seen (ep : PeerEndpoint)
  | located (chunkId : Bytes) (ep : PeerEndpoint)
  | cleaned
  | nothing
deriving DecidableEq

def updateOf (line : Bytes) : Update :=
  let (cmd, iss) := IStream.getString ⟨line, false⟩ []
  if cmd = str "REGISTER" ∨ cmd = str "HEARTBEAT" then
    match endpointOf iss with
    | none => .nothing
    | some ep => .seen ep
  else if cmd = str "ANNOUNCE" then
    let (chunkId, iss) := iss.getString []
    match endpointOf iss with
    | none => .nothing
    | some ep => if chunkId = [] then .nothing else .located chunkId ep
  else if cmd = str "NEED_REPAIR" ∨ cmd = str "GET_PEERS" then .cleaned
  else .nothing

def see (now : Int) (ep : PeerEndpoint) (s : Tracker) : Tracker :=
  { s with peers := s.peers.insert (entry ep) ⟨now⟩ }

def Update.apply (now later : Int) : Update → Tracker → Tracker
  | .seen ep, s => s.see now ep
  | .located chunkId ep, s => s.addLocation chunkId (entry ep)
  | .cleaned, s => s.pruneStaleAndCleanup later
  | .nothing, s => s

theorem keepAlive_snd (usage : Bytes) (now later : Int) (iss : IStream) (s : Tracker) :
    (keepAlive usage now iss s).2 =
      (match endpointOf iss with
        | none => Update.nothing
        | some ep => .seen ep).apply now later s := by
  unfold keepAlive endpointOf
  dsimp only
  split <;> rfl

theorem pruneStale_earlier {now later : Int} (hnow : now ≤ later) (s : Tracker) :
    (s.pruneStaleAndCleanup later).pruneStale now = s.pruneStaleAndCleanup later := by
  have hkeep : ∀ peers : AList fun _ : Bytes => PeerInfo,
      (peers.keep fun e => !stale later e.2).keep (fun e => !stale now e.2) =
        peers.keep fun e => !stale later e.2 := by
    intro peers
    apply AList.ext
    apply List.filter_eq_self.mpr
    intro e he
    have hlive := (List.mem_filter.mp he).2
    simp only [stale, Bool.not_eq_true', decide_eq_false_iff_not, not_lt] at hlive ⊢
    exact le_trans (Int.sub_le_sub_right hnow _) hlive
  unfold pruneStaleAndCleanup pruneStale
  dsimp only
  split
  · simp only [hkeep]
  · simp only [hkeep]

theorem announce_snd (now later : Int) (iss : IStream) (s : Tracker) :
    (s.announce iss).2 =
      (match endpointOf (iss.getString []).2 with
        | none => Update.nothing
        | some ep =>
            if (iss.getString []).1 = [] then .nothing else .located (iss.getString []).1 ep).apply
        now later s := by
  unfold announce endpointOf
  dsimp only
  by_cases hid : (iss.getString []).1 = []
  · rw [if_pos (Or.inl hid)]
    split
    · rfl
    · rw [if_pos hid]
      rfl
  · by_cases hep : ((iss.getString []).2.getString []).1 = [] ∨
        (((iss.getString []).2.getString []).2.getInt 0).1 ≤ 0 ∨
          65535 < (((iss.getString []).2.getString []).2.getInt 0).1
    · rw [if_pos (Or.inr hep), if_pos hep]
      rfl
    · rw [if_neg (not_or.mpr ⟨hid, hep⟩), if_neg hep]
      dsimp only
      rw [if_neg hid]
      rfl

theorem answer_snd (o : TrackerOrders) {now later : Int} (hnow : now ≤ later) (line : Bytes)
    (s : Tracker) : (s.answer o now later line).2 = (updateOf line).apply now later s := by
  unfold answer updateOf
  dsimp only
  generalize (IStream.getString ⟨line, false⟩ []).1 = cmd
  generalize (IStream.getString ⟨line, false⟩ []).2 = iss
  by_cases hregister : cmd = str "REGISTER"
  · rw [if_pos hregister, if_pos (Or.inl hregister)]
    exact keepAlive_snd _ now later iss s
  rw [if_neg hregister]
  by_cases hheartbeat : cmd = str "HEARTBEAT"
  · rw [if_pos hheartbeat, if_pos (Or.inr hheartbeat)]
    exact keepAlive_snd _ now later iss s
  rw [if_neg hheartbeat, if_neg (not_or.mpr ⟨hregister, hheartbeat⟩)]
  by_cases hannounce : cmd = str "ANNOUNCE"
  · rw [if_pos hannounce, if_pos hannounce]
    exact announce_snd now later iss s
  rw [if_neg hannounce, if_neg hannounce]
  by_cases hwhere : cmd = str "WHERE"
  · have hother : ¬ (cmd = str "NEED_REPAIR" ∨ cmd = str "GET_PEERS") := by
      rw [hwhere]
      decide
    rw [if_pos hwhere, if_neg hother]
    unfold whereChunk
    dsimp only
    split
    · rfl
    · split <;> rfl
  rw [if_neg hwhere]
  by_cases hrepair : cmd = str "NEED_REPAIR"
  · rw [if_pos hrepair, if_pos (Or.inl hrepair)]
    rfl
  rw [if_neg hrepair]
  by_cases hpeers : cmd = str "GET_PEERS"
  · rw [if_pos hpeers, if_pos (Or.inr hpeers)]
    exact pruneStale_earlier hnow s
  rw [if_neg hpeers, if_neg (not_or.mpr ⟨hrepair, hpeers⟩)]
  rfl

/-! ### Entry by entry -/

/-- When an entry was last seen, as far as the tracker knows. -/
def lastSeen (s : Tracker) (e : Bytes) : Option Int := (s.peers.lookup e).map (·.lastSeen)

/-- The tracker has an entry as a location of a chunk. -/
def Located (s : Tracker) (chunkId e : Bytes) : Prop :=
  ∃ locs, s.chunkIndex.lookup chunkId = some locs ∧ e ∈ locs

@[simp]
theorem lastSeen_see (s : Tracker) (now : Int) (ep : PeerEndpoint) (e : Bytes) :
    (s.see now ep).lastSeen e = if e = entry ep then some now else s.lastSeen e := by
  unfold lastSeen see
  dsimp only
  split
  · rename_i hsame
    rw [hsame, AList.lookup_insert]
    rfl
  · rename_i hne
    rw [AList.lookup_insert_ne hne]

@[simp]
theorem located_see (s : Tracker) (now : Int) (ep : PeerEndpoint) (c e : Bytes) :
    (s.see now ep).Located c e ↔ s.Located c e := Iff.rfl

@[simp]
theorem lastSeen_addLocation (s : Tracker) (c e e' : Bytes) :
    (s.addLocation c e).lastSeen e' = s.lastSeen e' := rfl

@[simp]
theorem located_addLocation (s : Tracker) (c e c' e' : Bytes) :
    (s.addLocation c e).Located c' e' ↔ (c' = c ∧ e' = e) ∨ s.Located c' e' := by
  unfold Located addLocation
  dsimp only
  by_cases hid : c' = c
  · subst hid
    simp only [AList.lookup_insert, Option.some.injEq, exists_eq_left', AList.mem_insert, true_and]
    apply or_congr_right
    cases s.chunkIndex.lookup c' with
    | none => simp
    | some locs => simp
  · simp [AList.lookup_insert_ne hid, hid]

@[simp]
theorem lastSeen_pruneStale (s : Tracker) (t : Int) (e : Bytes) :
    (s.pruneStale t).lastSeen e = expire ttl t (s.lastSeen e) := by
  unfold lastSeen pruneStale expire
  dsimp only
  rw [AList.lookup_keep]
  cases s.peers.lookup e with
  | none => rfl
  | some info =>
      by_cases hlive : t - info.lastSeen ≤ ttl
      · simp [stale, Option.filter, hlive, not_lt.mpr hlive]
      · simp [stale, Option.filter, hlive, not_le.mp hlive]

@[simp]
theorem lastSeen_pruneStaleAndCleanup (s : Tracker) (t : Int) (e : Bytes) :
    (s.pruneStaleAndCleanup t).lastSeen e = expire ttl t (s.lastSeen e) := by
  rw [← lastSeen_pruneStale]
  unfold pruneStaleAndCleanup
  dsimp only
  split <;> rfl

theorem mem_eraseAll (dead : List Bytes) (locs : Locations) (e : Bytes) :
    e ∈ eraseAll dead locs ↔ e ∈ locs ∧ e ∉ dead := by
  unfold eraseAll
  induction dead generalizing locs with
  | nil => simp
  | cons d dead ih =>
      rw [List.foldl_cons, ih, AList.mem_erase, List.mem_cons, not_or]
      tauto

theorem not_isEmpty_iff (locs : Locations) :
    (!locs.entries.isEmpty) = true ↔ ∃ e, e ∈ locs := by
  obtain ⟨entries, hkeys⟩ := locs
  cases entries with
  | nil => simp [AList.mem_mk]
  | cons x xs => simp [AList.mem_mk, List.keys]

theorem mem_dead (s : Tracker) (t : Int) (e : Bytes) :
    e ∈ (s.peers.keep fun entry => stale t entry.2).keys ↔ Stale ttl t (s.lastSeen e) := by
  rw [← AList.mem_keys, ← AList.lookup_isSome, AList.lookup_keep, lastSeen]
  cases s.peers.lookup e with
  | none => simp [Stale]
  | some info =>
      by_cases hstale : ttl < t - info.lastSeen
      · simp [stale, Stale, Option.filter, hstale]
      · simp [stale, Stale, Option.filter, hstale]

theorem pruneStaleAndCleanup_of_none_stale {s : Tracker} {t : Int}
    (hnone : ∀ e, ¬ Stale ttl t (s.lastSeen e)) :
    s.pruneStaleAndCleanup t = s.pruneStale t := by
  have hdead : (s.peers.keep fun entry => stale t entry.2).keys = [] :=
    List.eq_nil_iff_forall_not_mem.mpr fun e he => hnone e ((mem_dead s t e).mp he)
  unfold pruneStaleAndCleanup
  dsimp only
  rw [if_pos hdead]

/-- A cleanup takes away the locations of the entries that expire. -/
@[simp]
theorem located_pruneStaleAndCleanup (s : Tracker) (t : Int) (c e : Bytes) :
    (s.pruneStaleAndCleanup t).Located c e ↔ s.Located c e ∧ ¬ Stale ttl t (s.lastSeen e) := by
  by_cases hnone : ∀ e, ¬ Stale ttl t (s.lastSeen e)
  · rw [pruneStaleAndCleanup_of_none_stale hnone]
    exact (and_iff_left (hnone e)).symm
  have hdead : (s.peers.keep fun entry => stale t entry.2).keys ≠ [] := by
    intro hnil
    exact hnone fun e he => List.not_mem_nil (hnil ▸ (mem_dead s t e).mpr he)
  unfold pruneStaleAndCleanup Located
  dsimp only
  rw [if_neg hdead]
  dsimp only [pruneStale]
  simp only [AList.lookup_keep, AList.lookup_mapValues]
  rw [← mem_dead]
  cases s.chunkIndex.lookup c with
  | none => simp
  | some locs =>
      simp only [Option.map_some, Option.filter_eq_some_iff, Option.some.injEq]
      constructor
      · rintro ⟨left, ⟨rfl, -⟩, he⟩
        have hleft := (mem_eraseAll _ locs e).mp he
        exact ⟨⟨locs, rfl, hleft.1⟩, hleft.2⟩
      · rintro ⟨⟨_, rfl, he⟩, hlive⟩
        have hleft := (mem_eraseAll _ locs e).mpr ⟨he, hlive⟩
        exact ⟨_, ⟨rfl, (not_isEmpty_iff _).mpr ⟨e, hleft⟩⟩, hleft⟩

theorem not_located_empty (c e : Bytes) : ¬ Located {} c e := by
  rintro ⟨locs, hlocs, -⟩
  cases hlocs

/-- A location is new only when it is announced. -/
theorem Update.located_apply {u : Update} {now later : Int} {s : Tracker} {c e : Bytes}
    (hlocated : (u.apply now later s).Located c e) :
    s.Located c e ∨ ∃ ep, u = .located c ep ∧ e = entry ep := by
  cases u with
  | seen ep =>
      rw [Update.apply, located_see] at hlocated
      exact Or.inl hlocated
  | located chunkId ep =>
      rw [Update.apply, located_addLocation] at hlocated
      rcases hlocated with ⟨rfl, rfl⟩ | hold
      · exact Or.inr ⟨ep, rfl, rfl⟩
      · exact Or.inl hold
  | cleaned =>
      rw [Update.apply, located_pruneStaleAndCleanup] at hlocated
      exact Or.inl hlocated.1
  | nothing => exact Or.inl hlocated

/-- The peer of a location that is left is left too. -/
theorem Update.lastSeen_apply_of_located {u : Update} {now later : Int} {s : Tracker} {c e : Bytes}
    (hlocated : (u.apply now later s).Located c e) (hpeer : s.lastSeen e ≠ none) :
    (u.apply now later s).lastSeen e ≠ none := by
  cases u with
  | seen ep =>
      rw [Update.apply, lastSeen_see]
      split
      · exact Option.some_ne_none _
      · exact hpeer
  | located chunkId ep => exact hpeer
  | cleaned =>
      rw [Update.apply, located_pruneStaleAndCleanup] at hlocated
      rw [Update.apply, lastSeen_pruneStaleAndCleanup, expire_of_not_stale hlocated.2]
      exact hpeer
  | nothing => exact hpeer

/-! ### What the maps hold -/

/-- Every key is an accepted endpoint, every chunk id a word, and no chunk without a location. -/
structure Whole (s : Tracker) : Prop where
  peers : ∀ e, e ∈ s.peers → ∃ ep, Accepted ep ∧ e = entry ep
  chunks : ∀ c locs, s.chunkIndex.lookup c = some locs → Token c ∧ ∃ e, e ∈ locs
  locations : ∀ c e, s.Located c e → ∃ ep, Accepted ep ∧ e = entry ep

theorem whole_empty : Whole {} where
  peers e he := absurd he (AList.notMem_empty e)
  chunks c locs hlocs := by cases hlocs
  locations c e he := absurd he (not_located_empty c e)

theorem endpointOf_accepted {iss : IStream} {ep : PeerEndpoint} (hep : endpointOf iss = some ep) :
    Accepted ep := by
  unfold endpointOf at hep
  dsimp only at hep
  split at hep
  · cases hep
  · rename_i hvalid
    cases hep
    simp only [not_or, not_le, not_lt] at hvalid
    rcases IStream.getString_fst iss [] with hempty | hspace
    · exact absurd hempty hvalid.1
    · exact ⟨⟨hvalid.1, hspace⟩, hvalid.2⟩

def Update.Valid : Update → Prop
  | .seen ep => Accepted ep
  | .located chunkId ep => Token chunkId ∧ Accepted ep
  | .cleaned => True
  | .nothing => True

theorem updateOf_valid (line : Bytes) : (updateOf line).Valid := by
  unfold updateOf
  dsimp only
  generalize (IStream.getString ⟨line, false⟩ []).2 = iss
  split
  · cases hep : endpointOf iss with
    | none => trivial
    | some ep => exact endpointOf_accepted hep
  split
  · cases hep : endpointOf (iss.getString []).2 with
    | none => trivial
    | some ep =>
        dsimp only
        split
        · trivial
        · rename_i hne
          rcases IStream.getString_fst iss [] with hempty | hspace
          · exact absurd hempty hne
          · exact ⟨⟨hne, hspace⟩, endpointOf_accepted hep⟩
  split <;> trivial

theorem mem_peers_iff (s : Tracker) (e : Bytes) : e ∈ s.peers ↔ s.lastSeen e ≠ none := by
  rw [← AList.lookup_isSome, lastSeen, Option.isSome_iff_ne_none, ne_eq, ne_eq,
    Option.map_eq_none_iff]

theorem Whole.pruneStaleAndCleanup {s : Tracker} (hs : s.Whole) (t : Int) :
    (s.pruneStaleAndCleanup t).Whole where
  peers e he := by
    rw [mem_peers_iff, lastSeen_pruneStaleAndCleanup] at he
    apply hs.peers e
    rw [mem_peers_iff]
    intro hnone
    rw [hnone] at he
    exact he rfl
  chunks c locs hlocs := by
    unfold Tracker.pruneStaleAndCleanup at hlocs
    dsimp only [pruneStale] at hlocs
    split at hlocs
    · exact hs.chunks c locs hlocs
    · rw [AList.lookup_keep, AList.lookup_mapValues, Option.filter_eq_some_iff,
        Option.map_eq_some_iff] at hlocs
      obtain ⟨⟨before, hbefore, -⟩, hleft⟩ := hlocs
      exact ⟨(hs.chunks c before hbefore).1, (not_isEmpty_iff locs).mp hleft⟩
  locations c e he := hs.locations c e ((located_pruneStaleAndCleanup s t c e).mp he).1

theorem Whole.apply {s : Tracker} (hs : s.Whole) {u : Update} (hu : u.Valid) (now later : Int) :
    (u.apply now later s).Whole := by
  cases u with
  | seen ep =>
      refine ⟨?_, hs.chunks, hs.locations⟩
      intro e he
      rcases (AList.mem_insert s.peers).mp he with rfl | hmem
      · exact ⟨ep, hu, rfl⟩
      · exact hs.peers e hmem
  | located chunkId ep =>
      refine ⟨hs.peers, ?_, ?_⟩
      · intro c locs hlocs
        by_cases hid : c = chunkId
        · rw [hid, show (Update.located chunkId ep).apply now later s =
            s.addLocation chunkId (entry ep) from rfl, addLocation, AList.lookup_insert] at hlocs
          rw [hid, ← Option.some.inj hlocs]
          exact ⟨hu.1, entry ep, (AList.mem_insert _).mpr (Or.inl rfl)⟩
        · rw [show (Update.located chunkId ep).apply now later s =
            s.addLocation chunkId (entry ep) from rfl, addLocation,
            AList.lookup_insert_ne hid] at hlocs
          exact hs.chunks c locs hlocs
      · intro c e he
        rcases Update.located_apply he with hbefore | ⟨ep', hsame, rfl⟩
        · exact hs.locations c e hbefore
        · cases hsame
          exact ⟨ep, hu.2, rfl⟩
  | cleaned => exact hs.pruneStaleAndCleanup later
  | nothing => exact hs

end Tracker

end DecentStore
