import DecentStore.Proof.Requests
import DecentStore.Proof.TrackerQueries
import DecentStore.World

/-!
# Listings on the wire

The tracker joins an address and a port with a colon, after any address that is one word. The client
splits at the first colon. So a listing comes back exactly if no address in it has a colon of its
own; one that has is lost, and mostly the whole listing with it.
-/

namespace DecentStore

open Bytes Lease Interaction

theorem strtol_decimal (n : Nat) : strtol 10 (decimal n) = some (n : Int) := by
  rw [strtol_digits (decimal_ne_nil n) fun _ hb => isDigit_of_mem_decimal hb, value_decimal]

theorem stoi_decimal {n : Nat} (hn : n < 2 ^ 31) : Crypto.stoi 10 (decimal n) = .ok (n : Int) := by
  have hlow : ¬ (n : Int) < -2 ^ 31 := by omega
  have hhigh : ¬ (2 ^ 31 - 1 : Int) < n := by omega
  simp only [Crypto.stoi, strtol_decimal, hlow, hhigh, or_self, ↓reduceIte]

/-! ### The reader of a listing -/

namespace TrackerClient

open Tracker

theorem splitEntry_entry {ep : PeerEndpoint} (hep : Accepted ep) (hcolon : (58 : UInt8) ∉ ep.ip) :
    splitEntry (entry ep) = .ok (some ep) := by
  obtain ⟨htake, hdrop⟩ := @IStream.takeWhile_run ep.ip (58 :: decimal ep.port.toNat) (· ≠ 58)
    (fun b hb => by simpa using fun h : b = 58 => hcolon (h ▸ hb))
    (fun b hb => by simp only [List.head?_cons, Option.mem_some_iff] at hb; subst hb; rfl)
  have hport : (ep.port.toNat : Int) = ep.port := Int.toNat_of_nonneg hep.port.1.le
  have hsmall : ep.port.toNat < 2 ^ 31 := by
    have hmost := hep.port.2
    omega
  unfold splitEntry
  rw [entry_eq, decimalInt_of_pos hep.port.1, htake, hdrop]
  dsimp only
  rw [stoi_decimal hsmall, hport]
  rfl

/-- What the client returns has no colon in an address. -/
theorem splitEntry_ip {text : Bytes} {ep : PeerEndpoint} (hread : splitEntry text = .ok (some ep)) :
    (58 : UInt8) ∉ ep.ip := by
  have hnone : (58 : UInt8) ∉ text.takeWhile (· ≠ 58) := by
    intro hmem
    simpa using List.mem_takeWhile_imp hmem
  unfold splitEntry at hread
  split at hread
  · cases hread
  · rename_i port _
    cases hport : Crypto.stoi 10 port with
    | error e =>
        rw [hport] at hread
        cases hread
    | ok n =>
        rw [hport] at hread
        cases hread
        exact hnone

theorem readListing_ip {word : Bytes → Bytes} {lines : List Bytes} {eps : List PeerEndpoint}
    (hread : readListing word lines = .ok eps) : ∀ ep ∈ eps, (58 : UInt8) ∉ ep.ip := by
  induction lines generalizing eps with
  | nil =>
      cases hread
      intro ep hep
      cases hep
  | cons line lines ih =>
      unfold readListing at hread
      split at hread
      · exact ih hread
      · cases hsplit : splitEntry (word line) with
        | error e =>
            rw [hsplit] at hread
            cases hread
        | ok first =>
            cases hrest : readListing word lines with
            | error e =>
                rw [hsplit, hrest] at hread
                cases hread
            | ok rest =>
                rw [hsplit, hrest] at hread
                cases hread
                intro ep hep
                rcases List.mem_append.mp hep with hfirst | hlater
                · rw [Option.mem_toList] at hfirst
                  rw [Option.mem_def.mp hfirst] at hsplit
                  exact splitEntry_ip hsplit
                · exact ih hrest ep hlater

theorem firstWord_token {line : Bytes} (hline : Token line) : firstWord line = line := by
  have hread := IStream.getString_token hline IStream.atBreak_nil []
  rw [List.append_nil] at hread
  exact congrArg Prod.fst hread

theorem readListing_filter {word : Bytes → Bytes} (hword : word [] = []) (lines : List Bytes) :
    readListing word lines = readListing word (lines.filter (· ≠ [])) := by
  induction lines with
  | nil => rfl
  | cons line lines ih =>
      by_cases hempty : line = []
      · rw [hempty, readListing, if_pos hword, ih]
        rfl
      · have hkeep : (line :: lines).filter (· ≠ []) = line :: lines.filter (· ≠ []) :=
          List.filter_cons_of_pos (by simpa using hempty)
        rw [hkeep, readListing, readListing, ih]

theorem readListing_entries {word : Bytes → Bytes} (hword : ∀ line, Token line → word line = line)
    {eps : List PeerEndpoint} (heps : ∀ ep ∈ eps, Accepted ep ∧ (58 : UInt8) ∉ ep.ip) :
    readListing word (eps.map entry) = .ok eps := by
  induction eps with
  | nil => rfl
  | cons ep eps ih =>
      obtain ⟨hep, hcolon⟩ := heps ep List.mem_cons_self
      have hline := hword (entry ep) hep.token
      rw [List.map_cons, readListing, hline, if_neg hep.token.1, splitEntry_entry hep hcolon,
        ih fun ep' hep' => heps ep' (List.mem_cons_of_mem ep hep')]
      rfl

theorem exists_endpoints {lines : List Bytes} {members : PeerEndpoint → Prop}
    (hlines : ∀ x ∈ lines, ∃ ep, members ep ∧ x = entry ep) :
    ∃ eps : List PeerEndpoint, lines = eps.map entry ∧ ∀ ep ∈ eps, members ep := by
  induction lines with
  | nil => exact ⟨[], rfl, fun ep hep => absurd hep List.not_mem_nil⟩
  | cons x lines ih =>
      obtain ⟨ep, hep, rfl⟩ := hlines x List.mem_cons_self
      obtain ⟨eps, rfl, heps⟩ := ih fun y hy => hlines y (List.mem_cons_of_mem _ hy)
      refine ⟨ep :: eps, rfl, ?_⟩
      intro ep' hep'
      rcases List.mem_cons.mp hep' with rfl | hmem
      · exact hep
      · exact heps ep' hmem

/-- **A listing reads back exactly if no address in it has a colon.** -/
theorem readListing_iff {word : Bytes → Bytes} (hword : ∀ line, Token line → word line = line)
    (hempty : word [] = []) {reply : Bytes} {members : PeerEndpoint → Prop}
    (haccepted : ∀ ep, members ep → Accepted ep)
    (hreply : ∀ x, x ∈ replyLines reply ↔ ∃ ep, members ep ∧ x = entry ep) :
    (∃ eps, readListing word (getLines reply) = .ok eps ∧ ∀ ep, ep ∈ eps ↔ members ep) ↔
      ∀ ep, members ep → (58 : UInt8) ∉ ep.ip := by
  constructor
  · rintro ⟨eps, hread, heps⟩ ep hep
    exact readListing_ip hread ep ((heps ep).mpr hep)
  · intro hcolon
    obtain ⟨eps, hlines, heps⟩ := exists_endpoints fun x hx => (hreply x).mp hx
    refine ⟨eps, ?_, ?_⟩
    · rw [readListing_filter hempty, show (getLines reply).filter (· ≠ []) = _ from hlines]
      exact readListing_entries hword fun ep hep =>
        ⟨haccepted ep (heps ep hep), hcolon ep (heps ep hep)⟩
    · intro ep
      constructor
      · exact heps ep
      · intro hep
        have hmem := (hreply (entry ep)).mpr ⟨ep, hep, rfl⟩
        rw [hlines] at hmem
        obtain ⟨ep', hep', hsame⟩ := List.mem_map.mp hmem
        exact entry_injective hsame ▸ hep'

/-! ### The request and its reply -/

section Wire

variable (tracker : PeerEndpoint) (o : TrackerOrders) (now later : Int) (cuts : Cuts)
  (s : Tracker) (disk : LocalDisk)

/-- What the tracker sends back for a line. -/
def wireReply (line : Bytes) : Bytes :=
  match headerLine (line ++ [newline]) with
  | none => []
  | some line => (s.answer o now later line).1

theorem serve_fst (sock : Socket) {line : Bytes} (hbytes : sock.bytes = line ++ [newline]) :
    (s.serve o now later sock).1 = wireReply o now later s line := by
  have hrecv := (recvLine_eq sock).1
  unfold Tracker.serve wireReply
  rcases hgot : recvLine sock with ⟨got, rest⟩
  rw [hgot, hbytes] at hrecv
  dsimp only at hrecv
  rw [← hrecv]
  cases got <;> rfl

theorem run_requestLine (line : Bytes) :
    ∃ s', (requestLine tracker (line ++ [newline])).run
        (worldHandle (trackerNetwork o now later cuts)) (s, disk) =
      (.ok (wireReply o now later s line), s') := by
  have hsend : (if (line ++ [newline]).getLast? = some newline then line ++ [newline]
      else line ++ [newline] ++ [newline]) = line ++ [newline] := if_pos (by simp)
  have hreply := serve_fst o now later s
    ⟨Socket.sent cuts.requestSent (line ++ [newline]), cuts.requestReceived, cuts.ending⟩
    (Socket.sent_eq _ _)
  have hread := @PeerClient.recvAllText_closed
    ⟨Socket.sent cuts.replySent (wireReply o now later s line), cuts.replyReceived, .closed⟩ rfl
  rw [Socket.sent_eq] at hread
  unfold requestLine
  rw [hsend]
  refine ⟨((s.serve o now later ⟨Socket.sent cuts.requestSent (line ++ [newline]),
    cuts.requestReceived, cuts.ending⟩).2, disk), ?_⟩
  rw [← hreply] at hread ⊢
  show (Prog.ofExcept (recvAllText ⟨Socket.sent cuts.replySent (s.serve o now later
    ⟨Socket.sent cuts.requestSent (line ++ [newline]), cuts.requestReceived, cuts.ending⟩).1,
    cuts.replyReceived, .closed⟩) : ClientProg Bytes).run _ _ = _
  rw [Socket.sent_eq, hread]
  rfl

theorem run_listing (line : Bytes) (word : Bytes → Bytes) {eps : List PeerEndpoint} :
    (∃ s', (do
        let resp ← requestLine tracker (line ++ [newline])
        Prog.ofExcept (readListing word (getLines resp)) : ClientProg (List PeerEndpoint)).run
          (worldHandle (trackerNetwork o now later cuts)) (s, disk) = (.ok eps, s')) ↔
      readListing word (getLines (wireReply o now later s line)) = .ok eps := by
  obtain ⟨s', hrun⟩ := run_requestLine tracker o now later cuts s disk line
  rw [Prog.run_bind_of_ok hrun]
  cases readListing word (getLines (wireReply o now later s line)) with
  | error e => simp
  | ok read => simp

end Wire

end TrackerClient

/-! ### Histories of accepted requests -/

namespace Tracker

/-- Every request is a `REGISTER`, a `HEARTBEAT` or an `ANNOUNCE`, and is answered `OK`. -/
def AnsweredOk (h : List Turn) : Prop :=
  ∀ before c, before ++ [c] <+: h → (run before).reply c = ok ∧ ∃ line, c.line = some line ∧
    command line ∈ [str "REGISTER", str "HEARTBEAT", str "ANNOUNCE"]

theorem endpointOf_of_ok {usage : Bytes} {now : Int} {iss : IStream} {s : Tracker}
    (husage : usage ≠ ok) (hok : (keepAlive usage now iss s).1 = ok) :
    ∃ ep, endpointOf iss = some ep := by
  unfold keepAlive at hok
  dsimp only at hok
  split at hok
  · exact absurd hok husage
  · rename_i hvalid
    exact ⟨_, if_neg hvalid⟩

theorem updateOf_keepAlive {line : Bytes} {ep : PeerEndpoint}
    (hcmd : command line = str "REGISTER" ∨ command line = str "HEARTBEAT")
    (hep : endpointOf (arguments line) = some ep) : updateOf line = .seen ep := by
  unfold command at hcmd
  unfold arguments at hep
  unfold updateOf
  dsimp only
  rw [if_pos hcmd, hep]

theorem updateOf_announce {line : Bytes} {ep : PeerEndpoint}
    (hcmd : command line = str "ANNOUNCE") (hid : ((arguments line).getString []).1 ≠ [])
    (hep : endpointOf ((arguments line).getString []).2 = some ep) :
    updateOf line = .located ((arguments line).getString []).1 ep := by
  have hother : ¬ (command line = str "REGISTER" ∨ command line = str "HEARTBEAT") := by
    rw [hcmd]
    decide
  unfold command at hcmd hother
  unfold arguments at hid hep ⊢
  unfold updateOf
  dsimp only
  rw [if_neg hother, if_pos hcmd, hep]
  exact if_neg hid

theorem update_of_answer_ok {line : Bytes} {o : TrackerOrders} {now later : Int} {s : Tracker}
    (hcmd : command line ∈ [str "REGISTER", str "HEARTBEAT", str "ANNOUNCE"])
    (hok : (s.answer o now later line).1 = ok) :
    (∃ ep, updateOf line = .seen ep) ∨ ∃ chunkId ep, updateOf line = .located chunkId ep := by
  simp only [List.mem_cons, List.not_mem_nil, or_false] at hcmd
  rw [answer_eq] at hok
  rcases hcmd with hcmd | hcmd | hcmd
  · rw [hcmd, if_pos rfl] at hok
    obtain ⟨ep, hep⟩ := endpointOf_of_ok (by decide) hok
    exact Or.inl ⟨ep, updateOf_keepAlive (Or.inl hcmd) hep⟩
  · rw [hcmd, if_neg (by decide), if_pos rfl] at hok
    obtain ⟨ep, hep⟩ := endpointOf_of_ok (by decide) hok
    exact Or.inl ⟨ep, updateOf_keepAlive (Or.inr hcmd) hep⟩
  · rw [hcmd, if_neg (by decide), if_neg (by decide), if_pos rfl] at hok
    unfold announce at hok
    dsimp only at hok
    split at hok
    · have husage : str "ERR invalid ANNOUNCE. Use: ANNOUNCE <chunk_id> <ip> <port>\n" ≠ ok := by
        decide
      exact absurd hok husage
    · rename_i hvalid
      rw [not_or] at hvalid
      exact Or.inr ⟨_, _, updateOf_announce hcmd hvalid.1 (if_neg hvalid.2)⟩

theorem AnsweredOk.init {h : List Turn} {c : Turn} (hok : AnsweredOk (h ++ [c])) :
    AnsweredOk h := by
  intro before c' hfront
  exact hok before c' (hfront.trans (List.prefix_append h [c]))

theorem AnsweredOk.update {h : List Turn} {c : Turn} (hok : AnsweredOk (h ++ [c])) :
    (∃ ep, c.update = .seen ep) ∨ ∃ chunkId ep, c.update = .located chunkId ep := by
  obtain ⟨hreply, line, hline, hcmd⟩ := hok h c List.prefix_rfl
  rw [reply_of_line hline] at hreply
  unfold Turn.update
  rw [hline]
  exact update_of_answer_ok hcmd hreply

/-- Nothing is forgotten without a cleanup. -/
theorem located_iff_announced {h : List Turn} {t : Int} (ht : Timed h t) (hok : AnsweredOk h)
    (chunkId : Bytes) (ep : PeerEndpoint) :
    (run h).Located chunkId (entry ep) ↔ Announced h chunkId ep := by
  constructor
  · intro hlocated
    obtain ⟨ep', hsame, hannounced⟩ := located_announced ht hlocated
    rw [entry_injective hsame]
    exact hannounced
  · induction h using List.reverseRecOn generalizing t with
    | nil =>
        rintro ⟨c, hc, -⟩
        cases hc
    | append_singleton h turn ih =>
        rintro ⟨c, hc, hupdate⟩
        obtain ⟨hbefore, hturn, -⟩ := timed_concat ht
        rw [run_concat, turn_eq hturn]
        rcases List.mem_append.mp hc with hold | hnew
        · have hlocated := ih hbefore hok.init ⟨c, hold, hupdate⟩
          rcases hok.update with ⟨ep', hseen⟩ | ⟨chunkId', ep', hother⟩
          · rw [hseen, Update.apply, located_see]
            exact hlocated
          · rw [hother, Update.apply, located_addLocation]
            exact Or.inr hlocated
        · rw [List.mem_singleton.mp hnew] at hupdate
          rw [hupdate, Update.apply, located_addLocation]
          exact Or.inl ⟨rfl, rfl⟩

theorem line_short {c : Turn} {line : Bytes} (hline : c.line = some line) : line.length ≤ 8192 := by
  have hread := (recvLine_eq c.sock).1
  rw [show (recvLine c.sock).1 = some line from hline] at hread
  unfold headerLine lineFrom at hread
  dsimp only at hread
  split at hread
  · rename_i hfits
    rw [Option.some.inj hread]
    exact hfits.2
  · cases hread

theorem command_of_located {line chunkId : Bytes} {ep : PeerEndpoint}
    (hupdate : updateOf line = .located chunkId ep) :
    command line = str "ANNOUNCE" ∧ chunkId = ((arguments line).getString []).1 := by
  unfold updateOf at hupdate
  dsimp only at hupdate
  split at hupdate
  · split at hupdate <;> cases hupdate
  split at hupdate
  · rename_i hcmd
    refine ⟨hcmd, ?_⟩
    split at hupdate
    · cases hupdate
    split at hupdate
    · cases hupdate
    · cases hupdate
      rfl
  split at hupdate <;> cases hupdate

/-- An announced chunk id leaves room for a `WHERE`. -/
theorem announced_short {h : List Turn} {chunkId : Bytes} {ep : PeerEndpoint}
    (hannounced : Announced h chunkId ep) : (str "WHERE " ++ chunkId).length ≤ 8192 := by
  obtain ⟨c, -, hupdate⟩ := hannounced
  unfold Turn.update at hupdate
  cases hline : c.line with
  | none =>
      rw [hline] at hupdate
      cases hupdate
  | some line =>
      rw [hline] at hupdate
      obtain ⟨hcmd, rfl⟩ := command_of_located hupdate
      have hshort := line_short hline
      have hfirst := IStream.length_getString ⟨line, false⟩
      have hsecond := IStream.length_getString (arguments line)
      have hannounce : (command line).length = 8 := by
        rw [hcmd]
        decide
      have hwhere : (str "WHERE ").length = 6 := by decide
      rw [List.length_append, hwhere]
      unfold command at hannounce
      unfold arguments at hsecond ⊢
      dsimp only at hfirst
      omega

/-! ### What the client gets -/

section Client

variable {h : List Turn} {t : Int} (ht : Timed h t)

include ht

theorem accepted_of_live {ep : PeerEndpoint} (hlive : Live ttl t (latest h ep)) : Accepted ep := by
  have hseen := ((run_keeps ht ep).live_iff le_rfl).mpr hlive
  have hmem : entry ep ∈ (run h).peers := by
    rw [mem_peers_iff]
    intro hnone
    rw [hnone] at hseen
    exact not_live_none hseen
  obtain ⟨ep', hep', hsame⟩ := (run_whole ht).peers _ hmem
  exact entry_injective hsame ▸ hep'

/-- The entries of a `WHERE` on the wire; a chunk id too long for a line was never announced. -/
theorem mem_wireReply_where (hok : AnsweredOk h) (o : TrackerOrders) (later : Int)
    {chunkId : Bytes} (hid : Token chunkId) (x : Bytes) :
    x ∈ replyLines (TrackerClient.wireReply o t later (run h) (str "WHERE " ++ chunkId)) ↔
      ∃ ep, (Live ttl t (latest h ep) ∧ Announced h chunkId ep) ∧ x = entry ep := by
  have hplain : ∀ b ∈ str "WHERE " ++ chunkId, b ≠ 10 ∧ b ≠ 13 := by
    intro b hb
    rcases List.mem_append.mp hb with hword | hchunk
    · have hall : ∀ b ∈ str "WHERE ", b ≠ 10 ∧ b ≠ 13 := by decide
      exact hall b hword
    · exact plain_of_token hid b hchunk
  have hheader := (headerLine_chars hplain []).1
  by_cases hshort : (str "WHERE " ++ chunkId).length ≤ 8192
  · rw [if_pos hshort] at hheader
    have hwire : TrackerClient.wireReply o t later (run h) (str "WHERE " ++ chunkId) =
        ((run h).answer o t later (str "WHERE " ++ chunkId)).1 := by
      unfold TrackerClient.wireReply
      rw [hheader]
    rw [hwire, (where_lists (run_whole ht) o t later hid).2 x]
    dsimp only
    rw [live_run_iff ht]
    constructor
    · rintro ⟨hlocated, ep, hlive, rfl⟩
      exact ⟨ep, ⟨hlive, (located_iff_announced ht hok chunkId ep).mp hlocated⟩, rfl⟩
    · rintro ⟨ep, ⟨hlive, hannounced⟩, rfl⟩
      exact ⟨(located_iff_announced ht hok chunkId ep).mpr hannounced, ep, hlive, rfl⟩
  · rw [if_neg hshort] at hheader
    have hwire : TrackerClient.wireReply o t later (run h) (str "WHERE " ++ chunkId) = [] := by
      unfold TrackerClient.wireReply
      rw [hheader]
    rw [hwire]
    apply iff_of_false List.not_mem_nil
    rintro ⟨ep, ⟨-, hannounced⟩, -⟩
    exact hshort (announced_short hannounced)

end Client

/-- **Listings survive the wire exactly if no address in them has a colon.** -/
theorem listings_survive_iff (h : List Turn) (t : Int) (ht : Timed h t) (hok : AnsweredOk h)
    (tracker : PeerEndpoint) (o : TrackerOrders) (cuts : Cuts) (disk : LocalDisk) :
    (∀ now, now ≤ t →
      ((∃ eps s', (TrackerClient.getPeers tracker).run
            (worldHandle (trackerNetwork o now t cuts)) (run h, disk) = (.ok eps, s') ∧
          ∀ ep, ep ∈ eps ↔ Live ttl t (latest h ep)) ↔
        ∀ ep, Live ttl t (latest h ep) → (58 : UInt8) ∉ ep.ip)) ∧
    ∀ later chunkId, Token chunkId →
      ((∃ eps s', (TrackerClient.whereChunk tracker chunkId).run
            (worldHandle (trackerNetwork o t later cuts)) (run h, disk) = (.ok eps, s') ∧
          ∀ ep, ep ∈ eps ↔ Live ttl t (latest h ep) ∧ Announced h chunkId ep) ↔
        ∀ ep, Live ttl t (latest h ep) ∧ Announced h chunkId ep → (58 : UInt8) ∉ ep.ip) := by
  have hreturns : ∀ (now later : Int) (line : Bytes) (word : Bytes → Bytes)
      (members : PeerEndpoint → Prop),
      (∃ eps s', (do
          let resp ← TrackerClient.requestLine tracker (line ++ [newline])
          Prog.ofExcept (TrackerClient.readListing word (TrackerClient.getLines resp)) :
            ClientProg (List PeerEndpoint)).run
          (worldHandle (trackerNetwork o now later cuts)) (run h, disk) = (.ok eps, s') ∧
        ∀ ep, ep ∈ eps ↔ members ep) ↔
      ∃ eps, TrackerClient.readListing word (TrackerClient.getLines
        (TrackerClient.wireReply o now later (run h) line)) = .ok eps ∧
          ∀ ep, ep ∈ eps ↔ members ep := by
    intro now later line word members
    apply exists_congr
    intro eps
    rw [exists_and_right, TrackerClient.run_listing]
  constructor
  · intro now hnow
    have hwire : TrackerClient.wireReply o now t (run h) (str "GET_PEERS") =
        ((run h).answer o now t (str "GET_PEERS")).1 := by
      have hheader : headerLine (str "GET_PEERS" ++ [newline]) = some (str "GET_PEERS") := by decide
      unfold TrackerClient.wireReply
      rw [hheader]
    apply (hreturns now t (str "GET_PEERS") TrackerClient.firstWord _).trans
    apply TrackerClient.readListing_iff (fun line hline => TrackerClient.firstWord_token hline) rfl
    · intro ep hlive
      exact accepted_of_live ht hlive
    · rw [hwire]
      exact (getPeers_lists_latest ht o hnow).2
  · intro later chunkId hid
    apply (hreturns t later (str "WHERE " ++ chunkId) id _).trans
    apply TrackerClient.readListing_iff (fun line _ => rfl) rfl
    · rintro ep ⟨hlive, -⟩
      exact accepted_of_live ht hlive
    · exact mem_wireReply_where ht hok o later hid

theorem pairHistory_ok : AnsweredOk pairHistory := by
  intro before c hfront
  rcases before with _ | ⟨first, _ | ⟨second, before⟩⟩
  · simp only [pairHistory, List.nil_append, List.cons_prefix_cons] at hfront
    rw [hfront.1]
    exact ⟨by decide +kernel, str "REGISTER a 1", by decide, by decide⟩
  · simp only [pairHistory, List.cons_append, List.nil_append, List.cons_prefix_cons] at hfront
    rw [hfront.1, hfront.2.1]
    exact ⟨by decide +kernel, str "ANNOUNCE c a 1", by decide, by decide⟩
  · have hlength := hfront.length_le
    simp [pairHistory] at hlength

theorem pairHistory_latest {ep : PeerEndpoint} {s : Int}
    (hlatest : latest pairHistory ep = some s) : ep = ⟨str "a", 1⟩ := by
  by_contra hother
  have hne : registerTurn.update ≠ .seen ep := by
    rw [registerTurn_update]
    exact fun heq => hother (Update.seen.inj heq).symm
  rw [show pairHistory = [registerTurn] ++ [announceTurn] from rfl, latest_concat,
    announceTurn_update, if_neg Update.noConfusion,
    show [registerTurn] = [] ++ [registerTurn] from rfl, latest_concat, if_neg hne] at hlatest
  cases hlatest

theorem pair_listing_survives :
    (∃ eps s', (TrackerClient.getPeers ⟨str "t", 9000⟩).run
        (worldHandle (trackerNetwork default 3 5 {})) (run pairHistory, {}) = (.ok eps, s') ∧
      ∀ ep, ep ∈ eps ↔ Live ttl 5 (latest pairHistory ep)) ∧
    ∃ eps s', (TrackerClient.whereChunk ⟨str "t", 9000⟩ (str "c")).run
        (worldHandle (trackerNetwork default 5 6 {})) (run pairHistory, {}) = (.ok eps, s') ∧
      ∀ ep, ep ∈ eps ↔ Live ttl 5 (latest pairHistory ep) ∧ Announced pairHistory (str "c") ep := by
  obtain ⟨hpeers, hwhere⟩ := listings_survive_iff pairHistory 5 pairHistory_timed pairHistory_ok
    ⟨str "t", 9000⟩ default {} {}
  have hplain : ∀ ep, Live ttl 5 (latest pairHistory ep) → (58 : UInt8) ∉ ep.ip := by
    rintro ep ⟨s, hlatest, -⟩
    rw [pairHistory_latest hlatest]
    decide
  exact ⟨(hpeers 3 (by decide)).mpr hplain,
    (hwhere 6 (str "c") (by decide)).mpr fun ep hep => hplain ep hep.1⟩

def colonTurn : Turn := { now := 0, later := 0, sock := ⟨str "REGISTER a:b 80\n", [], .closed⟩ }

theorem colonTurn_ok : AnsweredOk [colonTurn] := by
  intro before c hfront
  rcases before with _ | ⟨first, before⟩
  · simp only [List.nil_append, List.cons_prefix_cons] at hfront
    rw [hfront.1]
    exact ⟨by decide +kernel, str "REGISTER a:b 80", by decide, by decide⟩
  · have hlength := hfront.length_le
    simp at hlength

/-- The address `a:b` makes the listing throw for every client. -/
theorem colon_listing_lost :
    ¬ ∀ (h : List Turn) (t : Int), Timed h t → AnsweredOk h →
      ∃ eps s', (TrackerClient.getPeers ⟨str "t", 9000⟩).run
          (worldHandle (trackerNetwork default t t {})) (run h, {}) = (.ok eps, s') ∧
        ∀ ep, ep ∈ eps ↔ Live ttl t (latest h ep) := by
  intro hall
  obtain ⟨eps, s', hrun, -⟩ := hall [colonTurn] 5 (by unfold Timed; decide) colonTurn_ok
  have hthrows : ((TrackerClient.getPeers ⟨str "t", 9000⟩).run
      (worldHandle (trackerNetwork default 5 5 {})) (run [colonTurn], {})).1 =
        .error (.invalidArgument (str "stoi")) := by decide +kernel
  rw [hrun] at hthrows
  cases hthrows

end Tracker

end DecentStore
