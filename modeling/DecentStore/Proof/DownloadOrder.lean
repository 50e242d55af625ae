import DecentStore.Proof.Download
import DecentStore.Proof.Integrity
import DecentStore.Proof.UploadOrder

/-!
# The order of a download

Whatever the peers answer, and wherever the download is stopped: it asks its own peers only, and
only for the manifest and then for one chunk after another, each until it is there; it changes
nothing but the output file, and what has been written to the stream of that is at every time the
beginning of the file that the manifest describes, be it a local one or one with the right hash.
-/

namespace DecentStore

open Bytes Interaction DssClient

/-- What has been written to the stream of the output file. -/
def writes (past : List ClientEvent) : List Bytes :=
  past.filterMap fun
    | ⟨.write data, _⟩ => some data
    | _ => none

theorem writes_snoc_write (past : List ClientEvent) (data : Bytes) (r : Unit) :
    writes (past ++ [⟨.write data, r⟩]) = writes past ++ [data] := by
  simp [writes]

theorem writes_snoc_other (past : List ClientEvent) {c : Call} (hc : ∀ data, c ≠ .write data)
    (r : Call.Reply c) : writes (past ++ [⟨c, r⟩]) = writes past := by
  cases c with
  | write data => exact absurd rfl (hc data)
  | _ => simp [writes]

section Underway

variable (ssl : OpenSsl) (cfg : ClientConfig) (manifestRef outPath : Bytes)
  (past : List ClientEvent)

/-- One of the peers has answered this request so. -/
def Replied (request : Bytes) (answer : Exchange) : Prop :=
  ∃ peer ∈ cfg.peers, ⟨.exchange peer request, answer⟩ ∈ past

def manifestQuery : Bytes :=
  PeerClient.getRequest (str "GET_MANIFEST") (normalizeManifestId manifestRef)

def chunkQuery (entry : ManifestEntry) : Bytes :=
  PeerClient.getRequest (str "GET_CHUNK") entry.chunkId

/-- The manifest was read from the local file, or a peer gave one with the right hash. -/
def Known (manifest : Manifest) : Prop :=
  (∃ text, ⟨.fileExists manifestRef, .ok true⟩ ∈ past ∧ ⟨.readFile manifestRef, some text⟩ ∈ past ∧
      parseManifestText text = .ok manifest) ∨
    ∃ answer, Replied cfg past (manifestQuery manifestRef) answer ∧
      acceptManifest ssl (normalizeManifestId manifestRef) answer = .ok (some manifest)

/-- A peer gave bytes that open to this plaintext, which has the hash of the entry. -/
def Vouched (enc : Encryption) (n : Nat) (entry : ManifestEntry) (plain : Bytes) : Prop :=
  ∃ answer, Replied cfg past (chunkQuery entry) answer ∧
    acceptChunk ssl enc (UInt64.ofNat n) entry.chunkId answer = .ok (some plain)

/-- **What has been written** is the beginning of the manifest's file. -/
structure Underway (manifest : Manifest) (enc : Encryption) : Prop where
  known : Known ssl cfg manifestRef past manifest
  key : unwrapKey ssl cfg manifest = .ok enc
  written : ∀ n plain, (writes past)[n]? = some plain →
    ∃ entry, manifest.chunks[n]? = some entry ∧ Vouched ssl cfg past enc n entry plain

def Verified : Prop :=
  writes past = [] ∨ ∃ manifest enc, Underway ssl cfg manifestRef past manifest enc

/-- The entry is the next one to be written. -/
def NextEntry (entry : ManifestEntry) (enc : Encryption) : Prop :=
  ∃ manifest, Underway ssl cfg manifestRef past manifest enc ∧
    manifest.chunks[(writes past).length]? = some entry

/-- **A call of a download at its time.** -/
structure ReadInOrder (c : Call) : Prop where
  verified : Verified ssl cfg manifestRef past
  exchange : ∀ peer request, c = .exchange peer request → peer ∈ cfg.peers ∧
    ((writes past = [] ∧ request = manifestQuery manifestRef) ∨
      ∃ entry enc, NextEntry ssl cfg manifestRef past entry enc ∧ request = chunkQuery entry)
  write : ∀ data, c = .write data → ∃ entry enc, NextEntry ssl cfg manifestRef past entry enc ∧
    Vouched ssl cfg past enc (writes past).length entry data
  output : ∀ path, c = .openOut path → path = outPath ∧ writes past = []
  harmless : (∀ path text, c ≠ .writeFile path text) ∧ ∀ path, c ≠ .createDirectories path

end Underway

section Snoc

variable {ssl : OpenSsl} {cfg : ClientConfig} {manifestRef outPath : Bytes}
  {past past' : List ClientEvent} {manifest : Manifest} {enc : Encryption}

theorem Replied.mono (hpast : past <+: past') {request : Bytes} {answer : Exchange}
    (hreplied : Replied cfg past request answer) : Replied cfg past' request answer := by
  obtain ⟨peer, hpeer, hmem⟩ := hreplied
  exact ⟨peer, hpeer, hpast.subset hmem⟩

theorem Known.mono (hpast : past <+: past') (hknown : Known ssl cfg manifestRef past manifest) :
    Known ssl cfg manifestRef past' manifest := by
  rcases hknown with ⟨text, hlocal, hmem, hparse⟩ | ⟨answer, hreplied, haccept⟩
  · exact Or.inl ⟨text, hpast.subset hlocal, hpast.subset hmem, hparse⟩
  · exact Or.inr ⟨answer, hreplied.mono hpast, haccept⟩

theorem Vouched.mono (hpast : past <+: past') {n : Nat} {entry : ManifestEntry} {plain : Bytes}
    (hvouched : Vouched ssl cfg past enc n entry plain) :
    Vouched ssl cfg past' enc n entry plain := by
  obtain ⟨answer, hreplied, haccept⟩ := hvouched
  exact ⟨answer, hreplied.mono hpast, haccept⟩

theorem Underway.snoc_other (underway : Underway ssl cfg manifestRef past manifest enc) {c : Call}
    (hc : ∀ data, c ≠ .write data) (r : Call.Reply c) :
    Underway ssl cfg manifestRef (past ++ [⟨c, r⟩]) manifest enc where
  known := underway.known.mono (List.prefix_append past _)
  key := underway.key
  written := by
    intro n plain hn
    rw [writes_snoc_other past hc] at hn
    obtain ⟨entry, hentry, hvouched⟩ := underway.written n plain hn
    exact ⟨entry, hentry, hvouched.mono (List.prefix_append past _)⟩

theorem Underway.snoc_write (underway : Underway ssl cfg manifestRef past manifest enc)
    {entry : ManifestEntry} (hentry : manifest.chunks[(writes past).length]? = some entry)
    {plain : Bytes} (hvouched : Vouched ssl cfg past enc (writes past).length entry plain)
    (r : Unit) :
    Underway ssl cfg manifestRef (past ++ [⟨.write plain, r⟩]) manifest enc where
  known := underway.known.mono (List.prefix_append past _)
  key := underway.key
  written := by
    intro n other hn
    rw [writes_snoc_write, List.getElem?_append] at hn
    split at hn
    · obtain ⟨entry', hentry', hvouched'⟩ := underway.written n other hn
      exact ⟨entry', hentry', hvouched'.mono (List.prefix_append past _)⟩
    · rename_i hlast
      obtain ⟨hzero, hsame⟩ := List.getElem?_eq_some_iff.mp hn
      have hn' : n = (writes past).length := by
        rw [List.length_singleton] at hzero
        omega
      subst hn'
      simp only [Nat.sub_self, List.getElem_cons_zero] at hsame
      exact ⟨entry, hentry, hsame ▸ hvouched.mono (List.prefix_append past _)⟩

end Snoc

/-- The search goes through the candidates whatever they answer, and where the process ends it is as
before the attempt. -/
theorem firstOf_follows {α : Type} {before : List ClientEvent → Call → Prop}
    {attempt : PeerEndpoint → ClientProg (Option α)} {keep : List ClientEvent → Prop}
    {found : α → List ClientEvent → Prop} {candidates : List PeerEndpoint}
    (hattempt : ∀ p ∈ candidates, ∀ past, keep past →
      (Prog.catching Exc.caught (attempt p) fun _ => pure none).Follows before
        (fun past' r => Searched keep found (fun _ => keep) r past') past)
    {past : List ClientEvent} (hpast : keep past) :
    (firstOf attempt candidates).Follows before
      (fun past' r => Searched keep found (fun _ => keep) r past') past := by
  induction candidates generalizing past with
  | nil => exact hpast
  | cons p candidates ih =>
      unfold firstOf
      refine (hattempt p List.mem_cons_self past hpast).bind ?_ fun _ e hstopped => hstopped
      intro past' r hr
      cases r with
      | some a => exact hr
      | none => exact ih (fun q hq => hattempt q (List.mem_cons_of_mem p hq)) hr

section Rules

variable {ssl : OpenSsl} {cfg : ClientConfig} {manifestRef outPath : Bytes}
  {past : List ClientEvent} {manifest : Manifest} {enc : Encryption}

/-- A call that is neither a request nor a change. -/
theorem readInOrder_local (hpast : Verified ssl cfg manifestRef past) {c : Call}
    (hexchange : ∀ peer request, c ≠ .exchange peer request) (hwrite : ∀ data, c ≠ .write data)
    (houtput : ∀ path, c ≠ .openOut path) (hfile : ∀ path text, c ≠ .writeFile path text)
    (hdirs : ∀ path, c ≠ .createDirectories path) :
    ReadInOrder ssl cfg manifestRef outPath past c where
  verified := hpast
  exchange := fun peer request hcall => absurd hcall (hexchange peer request)
  write := fun data hcall => absurd hcall (hwrite data)
  output := fun path hcall => absurd hcall (houtput path)
  harmless := ⟨hfile, hdirs⟩

/-- A call at its time, with `n` chunks written. -/
def ReadAt (ssl : OpenSsl) (cfg : ClientConfig) (manifestRef outPath : Bytes) (n : Nat)
    (past : List ClientEvent) (c : Call) : Prop :=
  ReadInOrder ssl cfg manifestRef outPath past c ∧ (writes past).length = n

theorem tryManifest_follows (hnone : writes past = []) {p : PeerEndpoint} (hp : p ∈ cfg.peers) :
    (Prog.catching Exc.caught (attemptManifest ssl (normalizeManifestId manifestRef) p) fun _ =>
        pure none).Follows (ReadAt ssl cfg manifestRef outPath 0)
      (fun past' r => Searched (fun past => writes past = [])
        (fun manifest past => writes past = [] ∧ Known ssl cfg manifestRef past manifest)
        (fun _ past => writes past = []) r past') past := by
  rw [tryManifest_eq]
  refine ⟨⟨⟨Or.inl hnone, ?_, by simp, by simp, by simp, by simp⟩, congrArg List.length hnone⟩,
    fun answer => ?_⟩
  · intro peer request hcall
    cases hcall
    exact ⟨hp, Or.inl ⟨hnone, rfl⟩⟩
  · have hnone' : writes (past ++ [⟨.exchange p (manifestQuery manifestRef), answer⟩]) = [] := by
      rw [writes_snoc_other past (by simp), hnone]
    change Prog.Follows _ _
      (Prog.ofExcept (acceptManifest ssl (normalizeManifestId manifestRef) answer)) _
    rcases haccept : acceptManifest ssl (normalizeManifestId manifestRef) answer
        with e | _ | manifest
    · exact hnone'
    · exact hnone'
    · exact ⟨hnone', Or.inr ⟨answer, ⟨p, hp, List.mem_append_right _ List.mem_cons_self⟩,
        haccept⟩⟩

theorem fetchManifest_follows (hnone : writes past = []) :
    (fetchManifest ssl cfg ⟨DhtNode.tableOf ssl cfg.peers⟩
        (normalizeManifestId manifestRef)).Follows (ReadAt ssl cfg manifestRef outPath 0)
      (fun past' r => writes past' = [] ∧ ∀ manifest, r = .ok manifest →
        Known ssl cfg manifestRef past' manifest) past := by
  unfold fetchManifest DhtNode.findValue
  rw [DhtNode.store_eq, Prog.ofExcept_ok_bind]
  refine (firstOf_follows (fun p hp past' hpast' =>
    tryManifest_follows hpast' ((mem_candidates ssl cfg _ p).mp hp)) hnone).bind ?_
    fun _ _ hstopped => ⟨hstopped, by simp⟩
  intro past' found hfound
  cases found with
  | none => exact ⟨hfound, by simp⟩
  | some manifest =>
      refine ⟨hfound.1, ?_⟩
      rintro manifest' hmanifest
      cases hmanifest
      exact hfound.2

theorem readManifest_follows (hnone : writes past = [])
    (hlocal : ⟨.fileExists manifestRef, .ok true⟩ ∈ past) :
    (readManifest manifestRef).Follows (ReadAt ssl cfg manifestRef outPath 0)
      (fun past' r => writes past' = [] ∧ ∀ manifest, r = .ok manifest →
        Known ssl cfg manifestRef past' manifest) past := by
  refine ⟨⟨readInOrder_local (Or.inl hnone) (by simp) (by simp) (by simp) (by simp) (by simp),
    congrArg List.length hnone⟩, fun text => ?_⟩
  have hnone' : writes (past ++ [⟨.readFile manifestRef, text⟩]) = [] := by
    rw [writes_snoc_other past (by simp), hnone]
  cases text with
  | none => exact ⟨hnone', by simp⟩
  | some text =>
      dsimp only [Prog.bind]
      cases hparse : parseManifestText text with
      | error e => exact ⟨hnone', by simp⟩
      | ok manifest =>
          refine ⟨hnone', ?_⟩
          rintro manifest' hmanifest
          cases hmanifest
          exact Or.inl ⟨text, List.mem_append_left _ hlocal,
            List.mem_append_right _ List.mem_cons_self, hparse⟩

theorem tryChunk_follows {entry : ManifestEntry} {n : Nat} {p : PeerEndpoint}
    (hp : p ∈ cfg.peers)
    (hpast : Underway ssl cfg manifestRef past manifest enc ∧ (writes past).length = n)
    (hentry : manifest.chunks[n]? = some entry) :
    (Prog.catching Exc.caught (attemptChunk ssl enc (UInt64.ofNat n) entry.chunkId p) fun _ =>
        pure none).Follows (ReadAt ssl cfg manifestRef outPath n)
      (fun past' r => Searched
        (fun past => Underway ssl cfg manifestRef past manifest enc ∧ (writes past).length = n)
        (fun _ past => Underway ssl cfg manifestRef past manifest enc ∧
          (writes past).length = n + 1)
        (fun _ past => Underway ssl cfg manifestRef past manifest enc ∧ (writes past).length = n)
        r past') past := by
  obtain ⟨underway, rfl⟩ := hpast
  rw [tryChunk_eq]
  refine ⟨⟨⟨Or.inr ⟨manifest, enc, underway⟩, ?_, by simp, by simp, by simp, by simp⟩, rfl⟩,
    fun answer => ?_⟩
  · intro peer request hcall
    cases hcall
    exact ⟨hp, Or.inr ⟨entry, enc, ⟨manifest, underway, hentry⟩, rfl⟩⟩
  have underway' := underway.snoc_other (c := .exchange p (chunkQuery entry)) (by simp) answer
  have hwrites : writes (past ++ [⟨.exchange p (chunkQuery entry), answer⟩]) = writes past :=
    writes_snoc_other past (by simp) answer
  change Prog.Follows _ _ (Prog.ofExcept (acceptChunk ssl enc (UInt64.ofNat (writes past).length)
    entry.chunkId answer) >>= writeAccepted) _
  rcases haccept : acceptChunk ssl enc (UInt64.ofNat (writes past).length) entry.chunkId answer
      with e | _ | plain
  · exact ⟨underway', congrArg List.length hwrites⟩
  · exact ⟨underway', congrArg List.length hwrites⟩
  · have hvouched : Vouched ssl cfg (past ++ [⟨.exchange p (chunkQuery entry), answer⟩]) enc
        (writes past).length entry plain :=
      ⟨answer, ⟨p, hp, List.mem_append_right _ List.mem_cons_self⟩, haccept⟩
    rw [← hwrites] at hentry hvouched
    refine ⟨⟨⟨Or.inr ⟨manifest, enc, underway'⟩, by simp, ?_, by simp, by simp, by simp⟩,
      congrArg List.length hwrites⟩, fun r => ?_⟩
    · intro data hcall
      cases hcall
      exact ⟨entry, enc, ⟨manifest, underway', hentry⟩, hvouched⟩
    · refine ⟨underway'.snoc_write hentry hvouched r, ?_⟩
      rw [writes_snoc_write, List.length_append]
      exact congrArg (· + 1) (congrArg List.length hwrites)

theorem downloadChunk_follows {entry : ManifestEntry} {n : Nat}
    (hpast : Underway ssl cfg manifestRef past manifest enc ∧ (writes past).length = n)
    (hentry : manifest.chunks[n]? = some entry) :
    (downloadChunk ssl cfg ⟨DhtNode.tableOf ssl cfg.peers⟩ enc (UInt64.ofNat n)
        entry.chunkId).Follows (ReadAt ssl cfg manifestRef outPath n)
      (fun past' r => Underway ssl cfg manifestRef past' manifest enc ∧
        (writes past').length = if r = .ok () then n + 1 else n) past := by
  unfold downloadChunk DhtNode.findValue
  rw [DhtNode.store_eq, Prog.ofExcept_ok_bind]
  refine (firstOf_follows (fun p hp past' hpast' =>
    tryChunk_follows ((mem_candidates ssl cfg _ p).mp hp) hpast' hentry) hpast).bind ?_
    fun _ _ hstopped => hstopped
  intro past' found hfound
  cases found with
  | none => exact hfound
  | some _ => exact hfound

theorem downloadChunks_follows {entries : List ManifestEntry} {n : Nat}
    (hpast : Underway ssl cfg manifestRef past manifest enc ∧ (writes past).length = n)
    (hentries : manifest.chunks.drop n = entries) (hn : n ≤ manifest.chunks.length) :
    (downloadChunks ssl cfg ⟨DhtNode.tableOf ssl cfg.peers⟩ enc (UInt64.ofNat n) entries).Follows
      (ReadInOrder ssl cfg manifestRef outPath)
      (fun past' r => Underway ssl cfg manifestRef past' manifest enc ∧
        (r = .ok () → (writes past').length = manifest.chunks.length)) past := by
  induction entries generalizing past n with
  | nil =>
      have hlast := List.drop_eq_nil_iff.mp hentries
      exact ⟨hpast.1, fun _ => hpast.2.trans (Nat.le_antisymm hn hlast)⟩
  | cons entry entries ih =>
      obtain ⟨hentry, hrest⟩ := of_drop_eq_cons hentries
      obtain ⟨hlt, -⟩ := List.getElem?_eq_some_iff.mp hentry
      unfold downloadChunks
      refine ((downloadChunk_follows hpast hentry).mono_before fun _ _ hbefore =>
        hbefore.1).bind ?_ fun past' e hpost => ⟨hpost.1, by simp⟩
      rintro past' ⟨⟩ ⟨underway, hlength⟩
      rw [ofNat_succ]
      exact ih ⟨underway, hlength⟩ hrest hlt

/-- At the end what has been written is verified, and complete if the download returns. -/
def Downloaded (ssl : OpenSsl) (cfg : ClientConfig) (manifestRef : Bytes)
    (past : List ClientEvent) (r : Except Exc Unit) : Prop :=
  Verified ssl cfg manifestRef past ∧ (r = .ok () → ∃ manifest enc,
    Underway ssl cfg manifestRef past manifest enc ∧
      (writes past).length = manifest.chunks.length)

theorem saveChunks_follows (hnone : writes past = [])
    (hknown : Known ssl cfg manifestRef past manifest) :
    (Reader.saveChunks ssl cfg outPath manifest).Follows
      (ReadInOrder ssl cfg manifestRef outPath) (Downloaded ssl cfg manifestRef) past := by
  unfold Reader.saveChunks
  cases hunwrap : unwrapKey ssl cfg manifest with
  | error e => exact ⟨Or.inl hnone, by simp⟩
  | ok enc =>
      rw [Prog.ofExcept_ok_bind]
      refine ⟨⟨Or.inl hnone, by simp, by simp, ?_, by simp, by simp⟩, fun opened => ?_⟩
      · rintro path hcall
        cases hcall
        exact ⟨rfl, hnone⟩
      have hnone' : writes (past ++ [⟨.openOut outPath, opened⟩]) = [] := by
        rw [writes_snoc_other past (by simp), hnone]
      cases opened with
      | false => exact ⟨Or.inl hnone', by simp⟩
      | true =>
          have underway : Underway ssl cfg manifestRef (past ++ [⟨.openOut outPath, true⟩])
              manifest enc :=
            ⟨hknown.mono (List.prefix_append past _), hunwrap, by simp [hnone']⟩
          refine (downloadChunks_follows ⟨underway, by rw [hnone']; rfl⟩ List.drop_zero
            (Nat.zero_le _)).mono ?_
          rintro past' r ⟨underway', hcomplete⟩
          exact ⟨Or.inr ⟨manifest, enc, underway'⟩,
            fun hr => ⟨manifest, enc, underway', hcomplete hr⟩⟩

theorem getFile_follows (hpeers : cfg.peers ≠ []) :
    (getFile ssl cfg manifestRef outPath).Follows (ReadInOrder ssl cfg manifestRef outPath)
      (Downloaded ssl cfg manifestRef) [] := by
  rw [Reader.getFile_eq hpeers]
  refine ⟨readInOrder_local (Or.inl rfl) (by simp) (by simp) (by simp) (by simp) (by simp),
    fun answer => ?_⟩
  have hnone : writes ([] ++ [⟨.fileExists manifestRef, answer⟩]) = [] :=
    writes_snoc_other [] (by simp) answer
  rcases answer with e | _ | _
  · exact ⟨Or.inl hnone, by simp⟩
  · exact ((fetchManifest_follows hnone).mono_before fun _ _ hbefore => hbefore.1).bind
      (fun past' manifest hpost => saveChunks_follows hpost.1 (hpost.2 manifest rfl))
      fun past' e hpost => ⟨Or.inl hpost.1, by simp⟩
  · exact ((readManifest_follows hnone List.mem_cons_self).mono_before
      fun _ _ hbefore => hbefore.1).bind
      (fun past' manifest hpost => saveChunks_follows hpost.1 (hpost.2 manifest rfl))
      fun past' e hpost => ⟨Or.inl hpost.1, by simp⟩

end Rules

/-- **A download writes nothing unverified.** At every point that a download can reach, whatever it
has been answered: the call it makes next is in order, what the output stream has been given is the
beginning of the file of the manifest that was read locally or has the right hash, and if the
download has returned, it is all of that. -/
theorem download_in_order {ssl : OpenSsl} {cfg : ClientConfig} {manifestRef outPath : Bytes}
    {events : List ClientEvent} {rest : ClientProg Unit}
    (hreaches : (getFile ssl cfg manifestRef outPath).Reaches events rest) :
    (∀ c next, rest = .call c next → ReadInOrder ssl cfg manifestRef outPath events c) ∧
      Verified ssl cfg manifestRef events ∧
      (rest = .pure () → ∃ manifest enc, Underway ssl cfg manifestRef events manifest enc ∧
        (writes events).length = manifest.chunks.length) := by
  by_cases hpeers : cfg.peers = []
  · rw [getFile_no_peers hpeers] at hreaches
    cases hreaches
    exact ⟨fun c next h => by simp at h, Or.inl rfl, fun h => by simp at h⟩
  have hfollows := (getFile_follows hpeers).reaches hreaches
  rw [List.nil_append] at hfollows
  cases rest with
  | pure _ => exact ⟨by simp, hfollows.1, fun _ => hfollows.2 rfl⟩
  | throw e => exact ⟨by simp, hfollows.1, by simp⟩
  | call c next =>
      refine ⟨?_, hfollows.1.verified, by simp⟩
      rintro c' next' hcall
      cases hcall
      exact hfollows.1

/-- What happens when the note is downloaded from a peer that lies and one that does not. -/
def noteReads : List ClientEvent :=
  (getFile noteSsl noteConfig (notePlan.shareUri noteSsl) (str "out")).transcript
    (worldHandle noteNetwork) ((), {})

theorem noteDownload_returns :
    ((getFile noteSsl noteConfig (notePlan.shareUri noteSsl) (str "out")).run
      (worldHandle noteNetwork) ((), {})).1 = .ok () := by
  decide +kernel

theorem note_read_in_order : ∃ manifest enc,
    Underway noteSsl noteConfig (notePlan.shareUri noteSsl) noteReads manifest enc ∧
      (writes noteReads).length = manifest.chunks.length :=
  (download_in_order (Prog.reaches_transcript (worldHandle noteNetwork)
    (getFile noteSsl noteConfig (notePlan.shareUri noteSsl) (str "out")) ((), {}))).2.2
      (by rw [noteDownload_returns]; rfl)

end DecentStore
