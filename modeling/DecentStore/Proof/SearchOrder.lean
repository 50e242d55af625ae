import DecentStore.Proof.DownloadOrder
import DecentStore.Proof.NearestPeers

/-!
# How a download searches, and how it fails

For the manifest and for each chunk the configured peers are asked one after another, those of the
placement first and none twice, until one gives what was asked for. So a download gives up on an
object only when every one of its peers has been asked for it and has failed. One answer can end it
before that, with the process: a ciphertext with a bad tag, or none at all. Whatever else a download
can fail with has its cause on this machine.
-/

namespace DecentStore

open Bytes Interaction DssClient

namespace DhtNode

variable (ssl : OpenSsl) (peers : List PeerEndpoint) (key : Bytes)

/-- Every node has the id of its endpoint, and no id is there twice. -/
structure Keyed (nodes : List NodeInfo) : Prop where
  ids : ∀ n ∈ nodes, n.id = nodeIdOf ssl n.endpoint
  nodup : (nodes.map NodeInfo.id).Nodup

variable {ssl}

theorem replaceNode_keyed {nodes nodes' : List NodeInfo} {p : PeerEndpoint}
    (hids : ∀ n ∈ nodes, n.id = nodeIdOf ssl n.endpoint)
    (hreplace : RoutingTable.replaceNode ⟨nodeIdOf ssl p, p⟩ nodes = some nodes') :
    ∀ n ∈ nodes', n.id = nodeIdOf ssl n.endpoint := by
  induction nodes generalizing nodes' with
  | nil => cases hreplace
  | cons m nodes ih =>
      unfold RoutingTable.replaceNode at hreplace
      split at hreplace
      · rename_i hsame
        cases hreplace
        intro n hn
        rcases List.mem_cons.mp hn with rfl | hn
        · exact hsame
        · exact hids n (List.mem_cons_of_mem m hn)
      · obtain ⟨rest, hrest, rfl⟩ := Option.map_eq_some_iff.mp hreplace
        intro n hn
        rcases List.mem_cons.mp hn with rfl | hn
        · exact hids n List.mem_cons_self
        · exact ih (fun n hn => hids n (List.mem_cons_of_mem m hn)) hrest n hn

theorem Keyed.addPeer {table : RoutingTable} (hkeyed : Keyed ssl table.nodes) (p : PeerEndpoint) :
    Keyed ssl (table.addPeer ssl p).nodes where
  ids := by
    unfold RoutingTable.addPeer RoutingTable.addNode
    split
    · exact hkeyed.ids
    · split
      · rename_i nodes hreplace
        exact replaceNode_keyed hkeyed.ids hreplace
      · intro n hn
        rcases List.mem_append.mp hn with hn | hn
        · exact hkeyed.ids n hn
        · rw [List.mem_singleton.mp hn]
  nodup := RoutingTable.addNode_ids_nodup hkeyed.nodup _

theorem keyed_tableOf : Keyed ssl (tableOf ssl peers).nodes := by
  suffices hgen : ∀ table : RoutingTable, Keyed ssl table.nodes →
      Keyed ssl (peers.foldl (RoutingTable.addPeer ssl) table).nodes from
    hgen _ ⟨by simp, by simp⟩
  induction peers with
  | nil => exact fun table hkeyed => hkeyed
  | cons p peers ih => exact fun table hkeyed => ih _ (hkeyed.addPeer p)

/-- Whatever the ids are, no peer is placed twice. -/
theorem nodup_ranked : (ranked ssl peers key).Nodup := by
  have hkeyed : Keyed ssl (tableOf ssl peers).nodes := keyed_tableOf peers
  have hendpoints : ((tableOf ssl peers).nodes.map NodeInfo.endpoint).Nodup := by
    refine List.Nodup.of_map (nodeIdOf ssl) ?_
    rw [List.map_map]
    exact List.map_congr_left hkeyed.ids ▸ hkeyed.nodup
  exact (((List.perm_insertionSort _ _).map NodeInfo.endpoint).nodup_iff).mpr hendpoints

end DhtNode

section Candidates

variable (ssl : OpenSsl) (cfg : ClientConfig) (key : Bytes)

theorem nodup_withFallback {placed : List PeerEndpoint} (hplaced : placed.Nodup)
    (peers : List PeerEndpoint) : (withFallback placed peers).Nodup := by
  induction peers generalizing placed with
  | nil => exact hplaced
  | cons p peers ih =>
      unfold withFallback
      rw [List.foldl_cons]
      refine ih ?_
      split
      · exact hplaced
      · rename_i hany
        rw [List.nodup_append]
        refine ⟨hplaced, List.nodup_singleton p, fun q hq r hr hsame => hany ?_⟩
        obtain rfl : r = p := List.mem_singleton.mp hr
        exact List.any_eq_true.mpr ⟨q, hq, by simp [hsame]⟩

theorem nodup_candidates : (candidates ssl cfg key).Nodup :=
  nodup_withFallback (DhtNode.nodup_ranked cfg.peers key).take cfg.peers

end Candidates

/-- A request, whom it went to and what came of it. -/
structure Asked where
  peer : PeerEndpoint
  request : Bytes
  answer : Exchange

/-- What has been asked since the last call that was no request. -/
def trail (past : List ClientEvent) : List Asked :=
  past.foldl (fun asked event =>
    match event with
    | ⟨.exchange peer request, answer⟩ => asked ++ [⟨peer, request, answer⟩]
    | _ => []) []

@[simp]
theorem trail_snoc_exchange (past : List ClientEvent) (peer : PeerEndpoint) (request : Bytes)
    (answer : Exchange) : trail (past ++ [⟨.exchange peer request, answer⟩]) =
      trail past ++ [⟨peer, request, answer⟩] := by
  simp [trail]

theorem trail_snoc_other (past : List ClientEvent) {c : Call}
    (hc : ∀ peer request, c ≠ .exchange peer request) (r : Call.Reply c) :
    trail (past ++ [⟨c, r⟩]) = [] := by
  cases c with
  | exchange peer request => exact absurd rfl (hc peer request)
  | _ => simp [trail]

/-- What is on the trail has happened since the last chunk was written. -/
theorem exists_of_mem_trail {past : List ClientEvent} {ask : Asked} (hask : ask ∈ trail past) :
    ∃ before, before ++ [⟨.exchange ask.peer ask.request, ask.answer⟩] <+: past ∧
      writes before = writes past := by
  induction past using List.reverseRecOn with
  | nil => cases hask
  | append_singleton past event ih =>
      obtain ⟨c, r⟩ := event
      cases c with
      | exchange peer request =>
          rw [trail_snoc_exchange] at hask
          have hwrites : writes (past ++ [⟨.exchange peer request, r⟩]) = writes past :=
            writes_snoc_other past (by simp) r
          rcases List.mem_append.mp hask with hask | hask
          · obtain ⟨before, hbefore, hsame⟩ := ih hask
            exact ⟨before, hbefore.trans (List.prefix_append _ _), hsame.trans hwrites.symm⟩
          · rw [List.mem_singleton.mp hask]
            exact ⟨past, List.prefix_rfl, hwrites.symm⟩
      | _ =>
          rw [trail_snoc_other past (by simp)] at hask
          cases hask

/-! ### Searches -/

/-- One object that a download searches for: where it is placed, how it is asked for, which answers
are of no use, which end the download, and what is said when there is no other. -/
structure Search where
  key : Bytes
  request : Bytes
  rejects : Exchange → Prop
  stops : Exchange → Exc → Prop
  failure : Bytes

namespace Search

def manifest (ssl : OpenSsl) (manifestRef : Bytes) : Search where
  key := str "manifest:" ++ normalizeManifestId manifestRef
  request := manifestQuery manifestRef
  rejects answer := acceptManifest ssl (normalizeManifestId manifestRef) answer = .ok none
  stops answer e := acceptManifest ssl (normalizeManifestId manifestRef) answer = .error e
  failure := str "Failed to retrieve manifest " ++ normalizeManifestId manifestRef

/-- The chunk at position `n` of a file. -/
def chunk (ssl : OpenSsl) (enc : Encryption) (n : Nat) (entry : ManifestEntry) : Search where
  key := entry.chunkId
  request := chunkQuery entry
  rejects answer := acceptChunk ssl enc (UInt64.ofNat n) entry.chunkId answer = .ok none
  stops answer e := acceptChunk ssl enc (UInt64.ofNat n) entry.chunkId answer = .error e
  failure := str "Failed to retrieve chunk " ++ entry.chunkId

variable (search : Search) (ssl : OpenSsl) (cfg : ClientConfig) (past : List ClientEvent)

/-- These peers have been asked for the object, in this order, and none has given it. -/
structure Tried (tried : List PeerEndpoint) : Prop where
  asked : (trail past).map Asked.peer = tried
  failed : ∀ ask ∈ trail past, ask.request = search.request ∧ search.rejects ask.answer

/-- It is the peer's turn: all candidates before it have been tried, and it has not. -/
structure Due (peer : PeerEndpoint) : Prop where
  turn : ∃ tried later, candidates ssl cfg search.key = tried ++ peer :: later ∧
    search.Tried past tried
  fresh : peer ∉ (trail past).map Asked.peer

/-- All candidates have been tried, and these are all the configured peers. -/
structure Exhausted : Prop where
  all : search.Tried past (candidates ssl cfg search.key)
  everyone : ∀ p ∈ cfg.peers, p ∈ (trail past).map Asked.peer

/-- The last answer, from the peer whose turn it was, has ended the download: no handler sees what
came of it. -/
structure Ended (e : Exc) : Prop where
  last : ∃ before peer answer, past = before ++ [⟨.exchange peer search.request, answer⟩] ∧
    search.Due ssl cfg before peer ∧ search.stops answer e
  uncaught : e.caught = false

variable {search ssl cfg past}

theorem Tried.none (htrail : trail past = []) : search.Tried past [] :=
  ⟨by rw [htrail]; rfl, by simp [htrail]⟩

theorem Tried.snoc {tried : List PeerEndpoint} (htried : search.Tried past tried)
    (peer : PeerEndpoint) {answer : Exchange} (hanswer : search.rejects answer) :
    search.Tried (past ++ [⟨.exchange peer search.request, answer⟩]) (tried ++ [peer]) where
  asked := by rw [trail_snoc_exchange, List.map_append, htried.asked]; rfl
  failed := by
    intro ask hask
    rw [trail_snoc_exchange] at hask
    rcases List.mem_append.mp hask with hask | hask
    · exact htried.failed ask hask
    · rw [List.mem_singleton.mp hask]
      exact ⟨rfl, hanswer⟩

theorem Tried.due {tried later : List PeerEndpoint} {peer : PeerEndpoint}
    (htried : search.Tried past tried)
    (hturn : candidates ssl cfg search.key = tried ++ peer :: later) :
    search.Due ssl cfg past peer where
  turn := ⟨tried, later, hturn, htried⟩
  fresh := by
    have hnodup := hturn ▸ nodup_candidates ssl cfg search.key
    rw [htried.asked]
    exact fun hpeer => List.disjoint_of_nodup_append hnodup hpeer List.mem_cons_self

theorem Tried.exhausted (hall : search.Tried past (candidates ssl cfg search.key)) :
    search.Exhausted ssl cfg past :=
  ⟨hall, fun p hp => hall.asked ▸ (mem_candidates ssl cfg _ p).mpr hp⟩

theorem Due.mem {peer : PeerEndpoint} (hdue : search.Due ssl cfg past peer) :
    peer ∈ cfg.peers := by
  obtain ⟨tried, later, hturn, -⟩ := hdue.turn
  have hpeer : peer ∈ candidates ssl cfg search.key := by simp [hturn]
  exact (mem_candidates ssl cfg _ peer).mp hpeer

section FirstOf

variable {α : Type} {before : List ClientEvent → Call → Prop}
  {attempt : PeerEndpoint → ClientProg (Option α)} {keep : List ClientEvent → Prop}
  {found : α → List ClientEvent → Prop} {stopped : Exc → List ClientEvent → Prop}

theorem firstOf_searches
    (hattempt : ∀ p tried past, search.Tried past tried → search.Due ssl cfg past p → keep past →
      (Prog.catching Exc.caught (attempt p) fun _ => pure none).Follows before
        (fun past' r => Searched (fun past' => search.Tried past' (tried ++ [p]) ∧ keep past')
          found stopped r past') past)
    {tried rest : List PeerEndpoint}
    (hrest : candidates ssl cfg search.key = tried ++ rest) (htried : search.Tried past tried)
    (hpast : keep past) :
    (firstOf attempt rest).Follows before
      (fun past' r => Searched (fun past' => search.Exhausted ssl cfg past' ∧ keep past')
        found stopped r past') past := by
  induction rest generalizing tried past with
  | nil =>
      rw [List.append_nil] at hrest
      rw [← hrest] at htried
      exact ⟨htried.exhausted, hpast⟩
  | cons p rest ih =>
      unfold firstOf
      refine (hattempt p tried past htried (htried.due hrest) hpast).bind ?_
        fun _ e hstopped => hstopped
      intro past' r hr
      cases r with
      | some a => exact hr
      | none =>
          obtain ⟨htried', hpast'⟩ := hr
          exact ih (by rw [hrest, List.append_assoc, List.singleton_append]) htried' hpast'

/-- **A search.** An attempt at a peer whose turn it is tries it, finds the object or ends the
download, so a search that ends without the object has tried every candidate. -/
theorem follows (search : Search)
    (hattempt : ∀ p tried past, search.Tried past tried → search.Due ssl cfg past p → keep past →
      (Prog.catching Exc.caught (attempt p) fun _ => pure none).Follows before
        (fun past' r => Searched (fun past' => search.Tried past' (tried ++ [p]) ∧ keep past')
          found stopped r past') past)
    (htrail : trail past = []) (hpast : keep past) :
    (firstOf attempt (candidates ssl cfg search.key)).Follows before
      (fun past' r => Searched (fun past' => search.Exhausted ssl cfg past' ∧ keep past')
        found stopped r past') past :=
  firstOf_searches hattempt (List.nil_append _).symm (.none htrail) hpast

end FirstOf

end Search

/-! ### What is searched for, and what goes wrong -/

section Failures

variable (ssl : OpenSsl) (cfg : ClientConfig) (manifestRef outPath : Bytes)
  (past : List ClientEvent)

/-- What a download can be searching for now: the manifest before anything is written, or the next
chunk of the manifest it has. -/
inductive Sought : Search → Prop where
  | manifest (hnone : writes past = []) : Sought (.manifest ssl manifestRef)
  | chunk {manifest : Manifest} {enc : Encryption} {entry : ManifestEntry}
      (hknown : Known ssl cfg manifestRef past manifest)
      (hkey : unwrapKey ssl cfg manifest = .ok enc)
      (hentry : manifest.chunks[(writes past).length]? = some entry) :
      Sought (.chunk ssl enc (writes past).length entry)

/-- **What a download can fail with**, and what must have happened then. -/
inductive Failed : Exc → Prop where
  | noPeers (hpeers : cfg.peers = []) : Failed noPeers
  | unseen {e : Exc} (hlooked : ⟨.fileExists manifestRef, .error e⟩ ∈ past) : Failed e
  | unreadable (hlocal : ⟨.fileExists manifestRef, .ok true⟩ ∈ past)
      (hread : ⟨.readFile manifestRef, none⟩ ∈ past) :
      Failed (.runtimeError (str "Failed to open manifest for read: " ++ manifestRef))
  | malformed {text : Bytes} {e : Exc} (hlocal : ⟨.fileExists manifestRef, .ok true⟩ ∈ past)
      (hread : ⟨.readFile manifestRef, some text⟩ ∈ past)
      (hparse : parseManifestText text = .error e) :
      Failed (.runtimeError (e.what ++ str ": " ++ manifestRef))
  | missing {search : Search} (hsought : Sought ssl cfg manifestRef past search)
      (hall : search.Exhausted ssl cfg past) : Failed (.runtimeError search.failure)
  | ended {search : Search} {e : Exc} (hsought : Sought ssl cfg manifestRef past search)
      (hended : search.Ended ssl cfg past e) : Failed e
  | locked {manifest : Manifest} {e : Exc} (hknown : Known ssl cfg manifestRef past manifest)
      (hkey : unwrapKey ssl cfg manifest = .error e) : Failed e
  | unwritable (hopen : ⟨.openOut outPath, false⟩ ∈ past) :
      Failed (.runtimeError (str "Cannot open output file: " ++ outPath))

/-- A peer is asked for what is searched for, and only when it is its turn. -/
def InTurn (c : Call) : Prop :=
  ∀ peer request, c = .exchange peer request → ∃ search, Sought ssl cfg manifestRef past search ∧
    request = search.request ∧ search.Due ssl cfg past peer

/-- No answer so far ends the process: no request went into a closed connection, and no peer gave a
ciphertext with a bad tag for the chunk that was due. -/
def Spares (enc : Encryption) : Prop :=
  ∀ before peer request answer, before ++ [⟨.exchange peer request, answer⟩] <+: past →
    answer ≠ .brokenPipe ∧ ∀ entry encData, request = chunkQuery entry →
      PeerClient.chunkResult answer = .ok encData →
        ¬ BadTag ssl enc (UInt64.ofNat (writes before).length) encData

/-- Nothing is written, and the download has been spared. -/
structure Unscathed : Prop where
  none : writes past = []
  spares : ∀ enc, Spares ssl past enc

/-- A manifest has been found and nothing is written, or there is a reason why not. -/
structure Resolved (r : Except Exc Manifest) : Prop where
  ok : ∀ manifest, r = .ok manifest → Known ssl cfg manifestRef past manifest ∧ Unscathed ssl past
  error : ∀ e, r = .error e → Failed ssl cfg manifestRef outPath past e

/-- The first `n` chunks of a file are written. -/
structure Awaiting (manifest : Manifest) (enc : Encryption) (n : Nat) : Prop where
  known : Known ssl cfg manifestRef past manifest
  key : unwrapKey ssl cfg manifest = .ok enc
  written : (writes past).length = n
  spares : Spares ssl past enc

/-- No search is under way besides. -/
structure Reading (manifest : Manifest) (enc : Encryption) (n : Nat) : Prop extends
    Awaiting ssl cfg manifestRef past manifest enc n where
  idle : trail past = []

end Failures

section Rules

variable {ssl : OpenSsl} {cfg : ClientConfig} {manifestRef outPath : Bytes}
  {past : List ClientEvent} {manifest : Manifest} {enc : Encryption}

theorem inTurn_local {c : Call} (hc : ∀ peer request, c ≠ .exchange peer request) :
    InTurn ssl cfg manifestRef past c :=
  fun peer request hcall => absurd hcall (hc peer request)

theorem Spares.snoc_exchange (hspares : Spares ssl past enc) {peer : PeerEndpoint}
    {request : Bytes} {answer : Exchange} (hanswer : answer ≠ .brokenPipe ∧
      ∀ entry encData, request = chunkQuery entry → PeerClient.chunkResult answer = .ok encData →
        ¬ BadTag ssl enc (UInt64.ofNat (writes past).length) encData) :
    Spares ssl (past ++ [⟨.exchange peer request, answer⟩]) enc := by
  intro before peer' request' answer' hbegins
  rcases List.prefix_concat_iff.mp hbegins with hlast | hbegins
  · obtain ⟨rfl, hevent⟩ := List.append_inj' hlast rfl
    cases hevent
    exact hanswer
  · exact hspares before peer' request' answer' hbegins

theorem Spares.snoc_other (hspares : Spares ssl past enc) {c : Call}
    (hc : ∀ peer request, c ≠ .exchange peer request) (r : Call.Reply c) :
    Spares ssl (past ++ [⟨c, r⟩]) enc := by
  intro before peer request answer hbegins
  rcases List.prefix_concat_iff.mp hbegins with hlast | hbegins
  · obtain ⟨-, hevent⟩ := List.append_inj' hlast rfl
    cases hevent
    exact absurd rfl (hc peer request)
  · exact hspares before peer request answer hbegins

theorem Unscathed.snoc_other (hpast : Unscathed ssl past) {c : Call}
    (hexchange : ∀ peer request, c ≠ .exchange peer request) (hwrite : ∀ data, c ≠ .write data)
    (r : Call.Reply c) : Unscathed ssl (past ++ [⟨c, r⟩]) where
  none := by rw [writes_snoc_other past hwrite, hpast.none]
  spares := fun enc => (hpast.spares enc).snoc_other hexchange r

theorem unscathed_nil : Unscathed ssl [] where
  none := rfl
  spares := fun enc before peer request answer hbegins => by simp at hbegins

/-- The two requests begin in different ways. -/
theorem manifestQuery_ne_chunkQuery (entry : ManifestEntry) :
    manifestQuery manifestRef ≠ chunkQuery entry := by
  intro hsame
  have hmanifest : (manifestQuery manifestRef)[4]? = some 77 := by
    unfold manifestQuery PeerClient.getRequest
    rw [List.append_assoc, List.append_assoc, List.getElem?_append_left (by decide)]
    decide
  have hchunk : (chunkQuery entry)[4]? = some 67 := by
    unfold chunkQuery PeerClient.getRequest
    rw [List.append_assoc, List.append_assoc, List.getElem?_append_left (by decide)]
    decide
  rw [hsame, hchunk] at hmanifest
  cases hmanifest

/-! ### Along the download -/

theorem tryManifest_searches (outPath : Bytes) {p : PeerEndpoint} {tried : List PeerEndpoint}
    (htried : (Search.manifest ssl manifestRef).Tried past tried)
    (hdue : (Search.manifest ssl manifestRef).Due ssl cfg past p) (hpast : Unscathed ssl past) :
    (Prog.catching Exc.caught (attemptManifest ssl (normalizeManifestId manifestRef) p) fun _ =>
        pure none).Follows (InTurn ssl cfg manifestRef)
      (fun past' r => Searched
        (fun past' => (Search.manifest ssl manifestRef).Tried past' (tried ++ [p]) ∧
          Unscathed ssl past')
        (fun manifest past' => Known ssl cfg manifestRef past' manifest ∧ Unscathed ssl past')
        (fun e past' => Failed ssl cfg manifestRef outPath past' e) r past') past := by
  rw [tryManifest_eq]
  refine ⟨?_, fun answer => ?_⟩
  · intro peer request hcall
    cases hcall
    exact ⟨_, .manifest hpast.none, rfl, hdue⟩
  have hnone : writes (past ++ [⟨.exchange p (manifestQuery manifestRef), answer⟩]) = [] := by
    rw [writes_snoc_other past (by simp), hpast.none]
  have hunscathed : ∀ {found}, acceptManifest ssl (normalizeManifestId manifestRef) answer =
      .ok found → Unscathed ssl (past ++ [⟨.exchange p (manifestQuery manifestRef), answer⟩]) :=
    fun haccept => ⟨hnone, fun enc => (hpast.spares enc).snoc_exchange
      ⟨acceptManifest_ne_brokenPipe haccept,
        fun entry _ hrequest => absurd hrequest (manifestQuery_ne_chunkQuery entry)⟩⟩
  change Prog.Follows _ _
    (Prog.ofExcept (acceptManifest ssl (normalizeManifestId manifestRef) answer)) _
  rcases haccept : acceptManifest ssl (normalizeManifestId manifestRef) answer
      with e | _ | manifest
  · exact .ended (.manifest hnone)
      ⟨⟨past, p, answer, rfl, hdue, haccept⟩, (Prog.handled_error haccept).2⟩
  · exact ⟨htried.snoc p haccept, hunscathed haccept⟩
  · exact ⟨Or.inr ⟨answer, ⟨p, hdue.mem, List.mem_append_right _ List.mem_cons_self⟩, haccept⟩,
      hunscathed haccept⟩

theorem Resolved.of_failed {e : Exc} (hfailed : Failed ssl cfg manifestRef outPath past e) :
    Resolved ssl cfg manifestRef outPath past (.error e) where
  ok := by simp
  error := by
    rintro e' he
    cases he
    exact hfailed

theorem Resolved.of_known (hknown : Known ssl cfg manifestRef past manifest)
    (hpast : Unscathed ssl past) : Resolved ssl cfg manifestRef outPath past (.ok manifest) where
  ok := by
    rintro manifest' hmanifest
    cases hmanifest
    exact ⟨hknown, hpast⟩
  error := by simp

theorem fetchManifest_searches (hpast : Unscathed ssl past) (htrail : trail past = []) :
    (fetchManifest ssl cfg ⟨DhtNode.tableOf ssl cfg.peers⟩
        (normalizeManifestId manifestRef)).Follows (InTurn ssl cfg manifestRef)
      (Resolved ssl cfg manifestRef outPath) past := by
  unfold fetchManifest DhtNode.findValue
  rw [DhtNode.store_eq, Prog.ofExcept_ok_bind]
  refine ((Search.manifest ssl manifestRef).follows
    (fun p tried past' htried hdue hpast' => tryManifest_searches outPath htried hdue hpast') htrail
    hpast).bind ?_ fun past' e hfailed => .of_failed hfailed
  intro past' found hfound
  cases found with
  | none =>
      obtain ⟨hall, hpast'⟩ := hfound
      exact .of_failed (.missing (.manifest hpast'.none) hall)
  | some manifest =>
      obtain ⟨hknown, hpast'⟩ := hfound
      exact .of_known hknown hpast'

theorem readManifest_searches (hpast : Unscathed ssl past)
    (hlocal : ⟨.fileExists manifestRef, .ok true⟩ ∈ past) :
    (readManifest manifestRef).Follows (InTurn ssl cfg manifestRef)
      (Resolved ssl cfg manifestRef outPath) past := by
  refine ⟨inTurn_local (by simp), fun text => ?_⟩
  have hpast' := hpast.snoc_other (c := .readFile manifestRef) (by simp) (by simp) text
  have hread : (⟨.readFile manifestRef, text⟩ : ClientEvent) ∈
      past ++ [⟨.readFile manifestRef, text⟩] := List.mem_append_right _ List.mem_cons_self
  have hlocal' : (⟨.fileExists manifestRef, .ok true⟩ : ClientEvent) ∈
      past ++ [⟨.readFile manifestRef, text⟩] := List.mem_append_left _ hlocal
  cases text with
  | none => exact .of_failed (.unreadable hlocal' hread)
  | some text =>
      dsimp only [Prog.bind]
      cases hparse : parseManifestText text with
      | error e => exact .of_failed (.malformed hlocal' hread hparse)
      | ok manifest => exact .of_known (Or.inl ⟨text, hlocal', hread, hparse⟩) hpast'

theorem Known.snoc (hknown : Known ssl cfg manifestRef past manifest) (event : ClientEvent) :
    Known ssl cfg manifestRef (past ++ [event]) manifest :=
  hknown.mono (List.prefix_append past _)

theorem tryChunk_searches (outPath : Bytes) {entry : ManifestEntry} {n : Nat}
    {p : PeerEndpoint} {tried : List PeerEndpoint} (hentry : manifest.chunks[n]? = some entry)
    (htried : (Search.chunk ssl enc n entry).Tried past tried)
    (hdue : (Search.chunk ssl enc n entry).Due ssl cfg past p)
    (hpast : Awaiting ssl cfg manifestRef past manifest enc n) :
    (Prog.catching Exc.caught (attemptChunk ssl enc (UInt64.ofNat n) entry.chunkId p) fun _ =>
        pure none).Follows (InTurn ssl cfg manifestRef)
      (fun past' r => Searched
        (fun past' => (Search.chunk ssl enc n entry).Tried past' (tried ++ [p]) ∧
          Awaiting ssl cfg manifestRef past' manifest enc n)
        (fun _ past' => Reading ssl cfg manifestRef past' manifest enc (n + 1))
        (fun e past' => Failed ssl cfg manifestRef outPath past' e) r past') past := by
  obtain ⟨hknown, hkey, rfl, hspares⟩ := hpast
  rw [tryChunk_eq]
  refine ⟨?_, fun answer => ?_⟩
  · intro peer request hcall
    cases hcall
    exact ⟨_, .chunk hknown hkey hentry, rfl, hdue⟩
  have hwrites : writes (past ++ [⟨.exchange p (chunkQuery entry), answer⟩]) = writes past :=
    writes_snoc_other past (by simp) answer
  have hknown' := hknown.snoc ⟨.exchange p (chunkQuery entry), answer⟩
  have hspares' : ∀ {found}, acceptChunk ssl enc (UInt64.ofNat (writes past).length) entry.chunkId
      answer = .ok found → Spares ssl (past ++ [⟨.exchange p (chunkQuery entry), answer⟩]) enc :=
    fun haccept => hspares.snoc_exchange
      ⟨(acceptChunk_spares haccept).1, fun _ encData _ => (acceptChunk_spares haccept).2 encData⟩
  change Prog.Follows _ _ (Prog.ofExcept (acceptChunk ssl enc (UInt64.ofNat (writes past).length)
    entry.chunkId answer) >>= writeAccepted) _
  rcases haccept : acceptChunk ssl enc (UInt64.ofNat (writes past).length) entry.chunkId answer
      with e | _ | plain
  · have hsought : Sought ssl cfg manifestRef
        (past ++ [⟨.exchange p (chunkQuery entry), answer⟩])
        (.chunk ssl enc (writes past).length entry) := by
      rw [← hwrites] at hentry ⊢
      exact .chunk hknown' hkey hentry
    exact .ended hsought ⟨⟨past, p, answer, rfl, hdue, haccept⟩, (Prog.handled_error haccept).2⟩
  · exact ⟨htried.snoc p haccept, hknown', hkey, congrArg List.length hwrites, hspares' haccept⟩
  · refine ⟨inTurn_local (by simp), fun r => ⟨⟨hknown'.snoc _, hkey, ?_, ?_⟩, ?_⟩⟩
    · rw [writes_snoc_write, List.length_append]
      exact congrArg (· + 1) (congrArg List.length hwrites)
    · exact (hspares' haccept).snoc_other (by simp) r
    · exact trail_snoc_other _ (by simp) r

theorem downloadChunk_searches (outPath : Bytes) {entry : ManifestEntry} {n : Nat}
    (hreading : Reading ssl cfg manifestRef past manifest enc n)
    (hentry : manifest.chunks[n]? = some entry) :
    (downloadChunk ssl cfg ⟨DhtNode.tableOf ssl cfg.peers⟩ enc (UInt64.ofNat n)
        entry.chunkId).Follows (InTurn ssl cfg manifestRef)
      (fun past' r => (r = .ok () → Reading ssl cfg manifestRef past' manifest enc (n + 1)) ∧
        ∀ e, r = .error e → Failed ssl cfg manifestRef outPath past' e) past := by
  unfold downloadChunk DhtNode.findValue
  rw [DhtNode.store_eq, Prog.ofExcept_ok_bind]
  refine ((Search.chunk ssl enc n entry).follows (fun p tried past' htried hdue hpast' =>
    tryChunk_searches outPath hentry htried hdue hpast') hreading.idle
    hreading.toAwaiting).bind ?_ ?_
  · intro past' found hfound
    cases found with
    | none =>
        obtain ⟨hall, hknown, hkey, rfl, -⟩ := hfound
        refine ⟨by simp, ?_⟩
        rintro e he
        cases he
        exact .missing (.chunk hknown hkey hentry) hall
    | some _ => exact ⟨fun _ => hfound, by simp⟩
  · rintro past' e hfailed
    refine ⟨by simp, ?_⟩
    rintro e' he
    cases he
    exact hfailed

/-- How a download ends: with all chunks of a manifest and spared, or for a reason. -/
structure Completed (ssl : OpenSsl) (cfg : ClientConfig) (manifestRef outPath : Bytes)
    (past : List ClientEvent) (r : Except Exc Unit) : Prop where
  ok : r = .ok () → ∃ manifest enc,
    Awaiting ssl cfg manifestRef past manifest enc manifest.chunks.length
  error : ∀ e, r = .error e → Failed ssl cfg manifestRef outPath past e

theorem Completed.of_failed {e : Exc} (hfailed : Failed ssl cfg manifestRef outPath past e) :
    Completed ssl cfg manifestRef outPath past (.error e) where
  ok := by simp
  error := by
    rintro e' he
    cases he
    exact hfailed

theorem downloadChunks_searches {entries : List ManifestEntry} {n : Nat}
    (hreading : Reading ssl cfg manifestRef past manifest enc n)
    (hentries : manifest.chunks.drop n = entries) (hn : n ≤ manifest.chunks.length) :
    (downloadChunks ssl cfg ⟨DhtNode.tableOf ssl cfg.peers⟩ enc (UInt64.ofNat n) entries).Follows
      (InTurn ssl cfg manifestRef) (Completed ssl cfg manifestRef outPath) past := by
  induction entries generalizing past n with
  | nil =>
      obtain rfl : n = manifest.chunks.length :=
        Nat.le_antisymm hn (List.drop_eq_nil_iff.mp hentries)
      exact ⟨fun _ => ⟨manifest, enc, hreading.toAwaiting⟩, by simp⟩
  | cons entry entries ih =>
      obtain ⟨hentry, hrest⟩ := of_drop_eq_cons hentries
      obtain ⟨hlt, -⟩ := List.getElem?_eq_some_iff.mp hentry
      unfold downloadChunks
      refine (downloadChunk_searches outPath hreading hentry).bind ?_ fun past' e hpost =>
        .of_failed (hpost.2 e rfl)
      rintro past' ⟨⟩ ⟨hnext, -⟩
      rw [ofNat_succ]
      exact ih (hnext rfl) hrest hlt

theorem saveChunks_searches (hknown : Known ssl cfg manifestRef past manifest)
    (hpast : Unscathed ssl past) :
    (Reader.saveChunks ssl cfg outPath manifest).Follows (InTurn ssl cfg manifestRef)
      (Completed ssl cfg manifestRef outPath) past := by
  unfold Reader.saveChunks
  cases hunwrap : unwrapKey ssl cfg manifest with
  | error e => exact .of_failed (.locked hknown hunwrap)
  | ok enc =>
      rw [Prog.ofExcept_ok_bind]
      refine ⟨inTurn_local (by simp), fun opened => ?_⟩
      have hpast' := hpast.snoc_other (c := .openOut outPath) (by simp) (by simp) opened
      cases opened with
      | false => exact .of_failed (.unwritable (List.mem_append_right _ List.mem_cons_self))
      | true =>
          have hreading : Reading ssl cfg manifestRef (past ++ [⟨.openOut outPath, true⟩]) manifest
              enc 0 := ⟨⟨hknown.snoc _, hunwrap, congrArg List.length hpast'.none,
            hpast'.spares enc⟩, trail_snoc_other past (by simp) _⟩
          exact downloadChunks_searches hreading List.drop_zero (Nat.zero_le _)

theorem getFile_searches (hpeers : cfg.peers ≠ []) :
    (getFile ssl cfg manifestRef outPath).Follows (InTurn ssl cfg manifestRef)
      (Completed ssl cfg manifestRef outPath) [] := by
  rw [Reader.getFile_eq hpeers]
  refine ⟨inTurn_local (by simp), fun answer => ?_⟩
  have hpast : Unscathed ssl ([] ++ [⟨.fileExists manifestRef, answer⟩]) :=
    unscathed_nil.snoc_other (by simp) (by simp) answer
  have htrail : trail ([] ++ [⟨.fileExists manifestRef, answer⟩]) = [] :=
    trail_snoc_other [] (by simp) answer
  have hsave : ∀ {search : ClientProg Manifest} {past : List ClientEvent},
      search.Follows (InTurn ssl cfg manifestRef) (Resolved ssl cfg manifestRef outPath) past →
      (search >>= Reader.saveChunks ssl cfg outPath).Follows (InTurn ssl cfg manifestRef)
        (Completed ssl cfg manifestRef outPath) past := by
    intro search past hsearch
    refine hsearch.bind (fun past' manifest hresolved => ?_) fun past' e hresolved =>
      .of_failed (hresolved.error e rfl)
    obtain ⟨hknown, hpast⟩ := hresolved.ok manifest rfl
    exact saveChunks_searches hknown hpast
  rcases answer with e | _ | _
  · exact .of_failed (.unseen List.mem_cons_self)
  · exact hsave (fetchManifest_searches hpast htrail)
  · exact hsave (readManifest_searches hpast List.mem_cons_self)

end Rules

/-- **A download asks one peer after another, and fails for a reason.** At every point that a
download can reach, whatever it has been answered: a peer is asked only for what is searched for
now, after all candidates before it have been asked for it and have failed, and not a second time;
and if the download has failed, it is for one of the listed reasons, so an object is given up only
when all configured peers have been asked for it, and before that the download ends only with an
answer that ends the process, or that never comes. -/
theorem download_searches {ssl : OpenSsl} {cfg : ClientConfig} {manifestRef outPath : Bytes}
    {events : List ClientEvent} {rest : ClientProg Unit}
    (hreaches : (getFile ssl cfg manifestRef outPath).Reaches events rest) :
    (∀ c next, rest = .call c next → InTurn ssl cfg manifestRef events c) ∧
      ∀ e, rest = .throw e → Failed ssl cfg manifestRef outPath events e := by
  by_cases hpeers : cfg.peers = []
  · rw [getFile_no_peers hpeers] at hreaches
    cases hreaches
    refine ⟨fun c next h => by simp at h, ?_⟩
    rintro e he
    cases he
    exact .noPeers hpeers
  have hfollows := (getFile_searches hpeers).reaches hreaches
  rw [List.nil_append] at hfollows
  constructor
  · rintro c next rfl
    exact hfollows.1
  · rintro e rfl
    exact hfollows.error e rfl

/-- What happens when the note is asked for before anybody has it. -/
def lostReads : List ClientEvent :=
  (getFile noteSsl noteConfig (notePlan.shareUri noteSsl) (str "out")).transcript
    (worldHandle (Cluster.network {})) (Cluster.empty, {})

theorem lostDownload_fails :
    ((getFile noteSsl noteConfig (notePlan.shareUri noteSsl) (str "out")).run
      (worldHandle (Cluster.network {})) (Cluster.empty, {})).1 =
        .error (.runtimeError (Search.manifest noteSsl (notePlan.shareUri noteSsl)).failure) := by
  decide +kernel

theorem lost_searches : Failed noteSsl noteConfig (notePlan.shareUri noteSsl) (str "out") lostReads
    (.runtimeError (Search.manifest noteSsl (notePlan.shareUri noteSsl)).failure) :=
  (download_searches (Prog.reaches_transcript (worldHandle (Cluster.network {}))
    (getFile noteSsl noteConfig (notePlan.shareUri noteSsl) (str "out")) (Cluster.empty, {}))).2 _
      (by rw [lostDownload_fails]; rfl)

end DecentStore
