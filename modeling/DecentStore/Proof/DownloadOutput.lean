import DecentStore.Proof.Integrity

/-!
# What a download leaves behind

A download opens its output file when it has the manifest and the file key. If it throws before, no
file has changed. From then on the old content is gone, and the file has the verified plaintexts of
the chunks that were got so far, as far as the writes went.
-/

namespace DecentStore

open Bytes Interaction

namespace LocalDisk

variable (outcome : WriteOutcome)

def writeAllSome (disk : LocalDisk) (data : List Bytes) : LocalDisk :=
  data.foldl (writeSome outcome) disk

variable {outcome}

theorem taken_prefix (disk : LocalDisk) (data : Bytes) : disk.taken outcome data <+: data := by
  unfold taken
  split
  · exact List.nil_prefix
  · split
    · exact List.prefix_rfl
    · exact List.take_prefix _ _

theorem taken_of_failed {disk : LocalDisk} (hfailed : disk.streamFailed outcome) (data : Bytes) :
    disk.taken outcome data = [] := if_pos hfailed

theorem taken_eq_or_failed (disk : LocalDisk) (data : Bytes) :
    disk.taken outcome data = data ∨ (disk.writeSome outcome data).streamFailed outcome := by
  by_cases hfailed : disk.streamFailed outcome
  · obtain ⟨n, hn, hbad⟩ := hfailed
    exact Or.inr ⟨n, Nat.lt_succ_of_lt hn, hbad⟩
  · cases hnow : outcome disk.writes with
    | none =>
        left
        simp [taken, hfailed, hnow]
    | some k => exact Or.inr ⟨disk.writes, Nat.lt_succ_self _, by simp [hnow]⟩

theorem files_writeSome (disk : LocalDisk) (data : Bytes) :
    (disk.writeSome outcome data).files = Function.update disk.files disk.outPath
      (some ((disk.files disk.outPath).getD [] ++ disk.taken outcome data)) := rfl

/-- **What the stream puts into the file**: a first part of what was written, and all of it when no
write failed. -/
theorem files_writeAllSome (disk : LocalDisk) (data : List Bytes) {old : Bytes}
    (hold : disk.files disk.outPath = some old) :
    ∃ added, (disk.writeAllSome outcome data).files =
        Function.update disk.files disk.outPath (some (old ++ added)) ∧
      added <+: data.flatten ∧ (disk.streamFailed outcome → added = []) ∧
      ((∀ n < disk.writes + data.length, outcome n = none) → added = data.flatten) := by
  induction data generalizing disk old with
  | nil =>
      refine ⟨[], ?_, List.nil_prefix, fun _ => rfl, fun _ => rfl⟩
      rw [List.append_nil, ← hold]
      exact (Function.update_eq_self _ _).symm
  | cons d data ih =>
      have hnext : (disk.writeSome outcome d).files (disk.writeSome outcome d).outPath =
          some (old ++ disk.taken outcome d) := by
        rw [files_writeSome, hold]
        exact Function.update_self ..
      obtain ⟨added, hfiles, hfront, hfailed, hall⟩ := ih (disk.writeSome outcome d) hnext
      refine ⟨disk.taken outcome d ++ added, ?_, ?_, ?_, ?_⟩
      · calc (disk.writeAllSome outcome (d :: data)).files
            = ((disk.writeSome outcome d).writeAllSome outcome data).files := rfl
          _ = Function.update (disk.writeSome outcome d).files disk.outPath
                (some (old ++ disk.taken outcome d ++ added)) := hfiles
          _ = Function.update disk.files disk.outPath
                (some (old ++ disk.taken outcome d ++ added)) := by
              rw [files_writeSome, Function.update_idem]
          _ = Function.update disk.files disk.outPath
                (some (old ++ (disk.taken outcome d ++ added))) := by rw [List.append_assoc]
      · rw [List.flatten_cons]
        rcases @taken_eq_or_failed outcome disk d with htaken | hbad
        · rw [htaken]
          exact (List.prefix_append_right_inj d).mpr hfront
        · rw [hfailed hbad, List.append_nil]
          exact (disk.taken_prefix d).trans (List.prefix_append d data.flatten)
      · intro hbad
        have hnextBad : (disk.writeSome outcome d).streamFailed outcome := by
          obtain ⟨n, hn, hne⟩ := hbad
          exact ⟨n, Nat.lt_succ_of_lt hn, hne⟩
        rw [taken_of_failed hbad, hfailed hnextBad, List.append_nil]
      · intro hcomplete
        have hwrites : (disk.writeSome outcome d).writes = disk.writes + 1 := rfl
        rw [List.length_cons] at hcomplete
        have hadded := hall fun n hn => hcomplete n (by omega)
        rcases @taken_eq_or_failed outcome disk d with htaken | ⟨n, hn, hne⟩
        · rw [htaken, hadded, List.flatten_cons]
        · exact absurd (hcomplete n (by omega)) hne

end LocalDisk

/-! ### Before the output is opened -/

namespace DssClient

variable (ssl : OpenSsl)

/-- What a download does before it opens the output file. -/
def beforeOpen (cfg : ClientConfig) (manifestRef : Bytes) :
    ClientProg (DhtNode × Manifest × Encryption) :=
  if cfg.peers = [] then throw noPeers
  else do
    let dht ← Prog.ofExcept (DhtNode.ofPeers ssl cfg.peers)
    let isLocal ← looksLocal manifestRef
    let manifest ←
      if isLocal then readManifest manifestRef
      else fetchManifest ssl cfg dht (normalizeManifestId manifestRef)
    let enc ← Prog.ofExcept (unwrapKey ssl cfg manifest)
    pure (dht, manifest, enc)

def openAndDownload (cfg : ClientConfig) (outPath : Bytes) (dht : DhtNode) (manifest : Manifest)
    (enc : Encryption) : ClientProg Unit := do
  let opened : Bool ← Prog.ask (Call.openOut outPath)
  if opened then downloadChunks ssl cfg dht enc 0 manifest.chunks
  else throw (.runtimeError (str "Cannot open output file: " ++ outPath))

theorem getFile_eq_beforeOpen (cfg : ClientConfig) (manifestRef outPath : Bytes) :
    getFile ssl cfg manifestRef outPath = beforeOpen ssl cfg manifestRef >>= fun found =>
      openAndDownload ssl cfg outPath found.1 found.2.1 found.2.2 := by
  unfold getFile getFileBy beforeOpen
  split
  · rfl
  · rw [Prog.bind_assoc]
    congr 1
    funext dht
    rw [Prog.bind_assoc]
    congr 1
    funext isLocal
    have hrest : ∀ p : ClientProg Manifest,
        (p >>= fun manifest => Prog.ofExcept (unwrapKey ssl cfg manifest) >>= fun enc =>
          openAndDownload ssl cfg outPath dht manifest enc) =
        (p >>= fun manifest => Prog.ofExcept (unwrapKey ssl cfg manifest) >>= fun enc =>
          pure (dht, manifest, enc)) >>= fun found =>
            openAndDownload ssl cfg outPath found.1 found.2.1 found.2.2 := by
      intro p
      rw [Prog.bind_assoc]
      congr 1
      funext manifest
      rw [Prog.bind_assoc]
      rfl
    cases isLocal with
    | true => exact hrest (readManifest manifestRef)
    | false => exact hrest (fetchManifest ssl cfg dht (normalizeManifestId manifestRef))

/-- The manifest is the one of the reference: of the local file, or with the hash it names. -/
def FromReference (disk : LocalDisk) (manifestRef : Bytes) (manifest : Manifest) : Prop :=
  ∃ text, parseManifestText text = .ok manifest ∧
    (disk.files manifestRef = some text ∨
      disk.files manifestRef = none ∧ Crypto.sha256Hex ssl text = normalizeManifestId manifestRef)

/-- The plaintexts of the first chunks, each with the hash the manifest has for it. -/
def Verified (chunks : List ManifestEntry) (plains : List Bytes) : Prop :=
  List.Forall₂ (fun entry plain => Crypto.sha256Hex ssl plain = entry.chunkId)
    (chunks.take plains.length) plains

/-! ### Along the download -/

variable {ssl} {σ : Type} {net : Network σ} {outcome : WriteOutcome} {cfg : ClientConfig}

/-- Judged alone, in a world whose disk may fail. -/
abbrev Ends {α : Type} (outcome : WriteOutcome) (net : Network σ) (prog : ClientProg α)
    (post : Except Exc α → σ × LocalDisk → Prop) (s : σ × LocalDisk) : Prop :=
  prog.Holds (lossyHandle outcome net) Eq (fun _ _ => True) post s

theorem ends_run {α : Type} {prog : ClientProg α} {post : Except Exc α → σ × LocalDisk → Prop}
    {s : σ × LocalDisk} (hends : Ends outcome net prog post s) :
    post (prog.run (lossyHandle outcome net) s).1 (prog.run (lossyHandle outcome net) s).2 :=
  Prog.post_of_holds (fun _ => rfl) hends

/-- A text that hashes to the id and can be read. -/
def NamedManifest (ssl : OpenSsl) (manifestId : Bytes) (manifest : Manifest) : Prop :=
  ∃ text, Crypto.sha256Hex ssl text = manifestId ∧ parseManifestText text = .ok manifest

theorem tryManifest_ends (manifestId : Bytes) (p : PeerEndpoint) (disk : LocalDisk)
    (s : σ × LocalDisk) (hs : s.2 = disk) :
    Ends outcome net
      (Prog.catching Exc.caught (attemptManifest ssl manifestId p) fun _ => pure none)
      (Searched (fun s => s.2 = disk ∧ True)
        (fun manifest s => s.2 = disk ∧ NamedManifest ssl manifestId manifest)
        (fun _ s => s.2 = disk)) s := by
  rw [tryManifest_eq]
  rintro s rfl
  refine ⟨trivial, ?_⟩
  change Ends outcome net (Prog.ofExcept (acceptManifest ssl manifestId (net p _ s).1)) _ _
  rcases haccept : acceptManifest ssl manifestId (net p _ s).1 with e | _ | manifest
  · exact hs
  · exact ⟨hs, trivial⟩
  · exact ⟨hs, acceptManifest_hash haccept⟩

theorem fetchManifest_ends (dht : DhtNode) (manifestId : Bytes) (s : σ × LocalDisk) :
    Ends outcome net (fetchManifest ssl cfg dht manifestId) (fun result s' => s'.2 = s.2 ∧
      ∀ manifest, result = .ok manifest → NamedManifest ssl manifestId manifest) s := by
  unfold fetchManifest
  cases dht.findValue ssl (str "manifest:" ++ manifestId) (askedReplicas cfg) with
  | error e => exact ⟨rfl, by simp⟩
  | ok candidates =>
      rw [Prog.ofExcept_ok_bind]
      apply Prog.holds_bind (firstOf_holds
        (fun p _ s' hs' => tryManifest_ends manifestId p s.2 s' hs') rfl)
      · rintro (_ | manifest) s' hfound
        · exact ⟨hfound.1, by simp⟩
        · obtain ⟨-, -, hdisk, hnamed⟩ := Until.exists_hit hfound
          refine ⟨hdisk, ?_⟩
          rintro m ⟨⟩
          exact hnamed
      · rintro e s' hstopped
        obtain ⟨-, -, hdisk⟩ := Until.exists_hit hstopped
        exact ⟨hdisk, by simp⟩

theorem tryChunk_ends (enc : Encryption) (chunkIndex : UInt64) (chunkId : Bytes)
    (p : PeerEndpoint) (disk : LocalDisk) (s : σ × LocalDisk) (hs : s.2 = disk) :
    Ends outcome net
      (Prog.catching Exc.caught (attemptChunk ssl enc chunkIndex chunkId p) fun _ => pure none)
      (Searched (fun s => s.2 = disk ∧ True)
        (fun _ s => ∃ plain, Crypto.sha256Hex ssl plain = chunkId ∧
          s.2 = disk.writeSome outcome plain)
        (fun e s => s.2 = disk ∧ e.caught = false)) s := by
  rw [tryChunk_eq]
  rintro s rfl
  refine ⟨trivial, ?_⟩
  change Ends outcome net (Prog.ofExcept
    (acceptChunk ssl enc chunkIndex chunkId (net p _ s).1) >>= writeAccepted) _ _
  rcases haccept : acceptChunk ssl enc chunkIndex chunkId (net p _ s).1 with e | _ | plain
  · exact ⟨hs, (Prog.handled_error haccept).2⟩
  · exact ⟨hs, trivial⟩
  · obtain ⟨-, -, -, hhash⟩ := acceptChunk_hash haccept
    rintro s' rfl
    refine ⟨trivial, plain, hhash, ?_⟩
    rw [← hs]
    rfl

/-- The chunk cannot be had: every candidate has been passed, or the process has ended. -/
def Missing (chunkId : Bytes) (e : Exc) : Prop :=
  e.caught = true → e = .runtimeError (str "Failed to retrieve chunk " ++ chunkId)

theorem downloadChunk_ends (enc : Encryption) (chunkIndex : UInt64) (chunkId : Bytes)
    (s : σ × LocalDisk) :
    Ends outcome net
      (downloadChunk ssl cfg ⟨DhtNode.tableOf ssl cfg.peers⟩ enc chunkIndex chunkId)
      (fun
        | .ok (), s' => ∃ plain, Crypto.sha256Hex ssl plain = chunkId ∧
            s'.2 = s.2.writeSome outcome plain
        | .error e, s' => s'.2 = s.2 ∧ Missing chunkId e) s := by
  unfold downloadChunk DhtNode.findValue
  rw [DhtNode.store_eq, Prog.ofExcept_ok_bind]
  apply Prog.holds_bind (firstOf_holds
    (fun p _ s' hs' => tryChunk_ends enc chunkIndex chunkId p s.2 s' hs') rfl)
  · rintro (_ | ⟨⟩) s' hfound
    · exact ⟨hfound.1, fun _ => rfl⟩
    · obtain ⟨-, -, hwritten⟩ := Until.exists_hit hfound
      exact hwritten
  · rintro e s' hstopped
    obtain ⟨-, -, hdisk, hcaught⟩ := Until.exists_hit hstopped
    exact ⟨hdisk, fun hseen => by simp [hcaught] at hseen⟩

/-- The loop writes the plaintexts of a first run of the chunks: of all of them if it returns, and
of those before the missing one if it throws. -/
theorem downloadChunks_ends (enc : Encryption) (chunkIndex : UInt64)
    (entries : List ManifestEntry) (s : σ × LocalDisk) :
    Ends outcome net
      (downloadChunks ssl cfg ⟨DhtNode.tableOf ssl cfg.peers⟩ enc chunkIndex entries)
      (fun result s' => ∃ plains, Verified ssl entries plains ∧
        s'.2 = s.2.writeAllSome outcome plains ∧
        (match result with
          | .ok () => plains.length = entries.length
          | .error e => ∃ entry, entries[plains.length]? = some entry ∧
              Missing entry.chunkId e)) s := by
  induction entries generalizing s chunkIndex with
  | nil => exact ⟨[], .nil, rfl, rfl⟩
  | cons entry entries ih =>
      unfold downloadChunks
      apply Prog.holds_bind (downloadChunk_ends enc chunkIndex entry.chunkId s)
      · rintro ⟨⟩ s' ⟨plain, hhash, hdisk⟩
        apply Prog.holds_mono _ (ih (chunkIndex + 1) s')
        rintro result s'' ⟨plains, hverified, hdisk', hlength⟩
        refine ⟨plain :: plains, .cons hhash hverified, ?_, ?_⟩
        · rw [hdisk', hdisk]
          rfl
        · cases result with
          | ok u => exact congrArg (· + 1) hlength
          | error e => exact hlength
      · rintro e s' ⟨hdisk, hmissing⟩
        exact ⟨[], .nil, hdisk, entry, rfl, hmissing⟩

theorem readManifest_ends (path : Bytes) (s : σ × LocalDisk) :
    Ends outcome net (readManifest path) (fun result s' => s'.2 = s.2 ∧
      ∀ manifest, result = .ok manifest →
        ∃ text, s.2.files path = some text ∧ parseManifestText text = .ok manifest) s := by
  unfold readManifest
  rintro s rfl
  refine ⟨trivial, ?_⟩
  have hanswer : lossyHandle outcome net (.readFile path) s = (s.2.files path, s) := rfl
  rw [hanswer]
  cases s.2.files path with
  | none => exact ⟨rfl, by simp⟩
  | some text =>
      simp only [Prog.bind]
      cases hparse : parseManifestText text with
      | error e => exact ⟨rfl, by simp⟩
      | ok manifest =>
          refine ⟨rfl, ?_⟩
          rintro m ⟨⟩
          exact ⟨text, rfl, hparse⟩

/-- Nothing has been written before the output is opened. -/
theorem beforeOpen_ends (manifestRef : Bytes) (s : σ × LocalDisk) :
    Ends outcome net (beforeOpen ssl cfg manifestRef) (fun result s' => s'.2 = s.2 ∧
      ∀ found, result = .ok found → found.1 = ⟨DhtNode.tableOf ssl cfg.peers⟩ ∧
        FromReference ssl s.2 manifestRef found.2.1) s := by
  have hunwrap : ∀ (manifest : Manifest) (s' : σ × LocalDisk), s'.2 = s.2 →
      FromReference ssl s.2 manifestRef manifest →
      Ends outcome net (Prog.ofExcept (unwrapKey ssl cfg manifest) >>= fun enc =>
        pure ((⟨DhtNode.tableOf ssl cfg.peers⟩ : DhtNode), manifest, enc)) (fun result s' =>
          s'.2 = s.2 ∧ ∀ found, result = .ok found → found.1 = ⟨DhtNode.tableOf ssl cfg.peers⟩ ∧
            FromReference ssl s.2 manifestRef found.2.1) s' := by
    intro manifest s' hdisk hfrom
    cases unwrapKey ssl cfg manifest with
    | error e => exact ⟨hdisk, by simp⟩
    | ok enc =>
        refine ⟨hdisk, ?_⟩
        rintro found ⟨⟩
        exact ⟨rfl, hfrom⟩
  unfold beforeOpen
  split
  · exact ⟨rfl, by simp⟩
  rw [DhtNode.ofPeers_eq, Prog.ofExcept_ok_bind]
  rintro s rfl
  refine ⟨trivial, ?_⟩
  change Ends outcome net (if (s.2.files manifestRef).isSome = true then _ else _) _ s
  cases hlocal : s.2.files manifestRef with
  | none =>
      apply Prog.holds_bind (fetchManifest_ends _ (normalizeManifestId manifestRef) s)
      · rintro manifest s' ⟨hdisk, hnamed⟩
        obtain ⟨text, hhash, hparse⟩ := hnamed manifest rfl
        exact hunwrap manifest s' hdisk ⟨text, hparse, Or.inr ⟨hlocal, hhash⟩⟩
      · exact fun e s' hfailed => ⟨hfailed.1, by simp⟩
  | some text =>
      apply Prog.holds_bind (readManifest_ends manifestRef s)
      · rintro manifest s' ⟨hdisk, hread⟩
        obtain ⟨text', hfile, hparse⟩ := hread manifest rfl
        exact hunwrap manifest s' hdisk ⟨text', hparse, Or.inl hfile⟩
      · exact fun e s' hfailed => ⟨hfailed.1, by simp⟩

/-- What there is after the output was opened: a first part of the verified plaintexts of a first
run of the chunks, all of the run when no write failed and the process has lived to close the
stream. It is the run of all chunks when the download returned, else of those before the chunk that
could not be retrieved. No other file has changed. -/
def Written (ssl : OpenSsl) (outcome : WriteOutcome) (outPath : Bytes) (chunks : List ManifestEntry)
    (disk after : LocalDisk) (result : Except Exc Unit) : Prop :=
  ∃ plains output, Verified ssl chunks plains ∧
    after.files = Function.update disk.files outPath (some output) ∧
    output <+: plains.flatten ∧
    (Catchable result → (∀ n < plains.length, outcome n = none) → output = plains.flatten) ∧
    match result with
    | .ok () => plains.length = chunks.length
    | .error e => ∃ entry, chunks[plains.length]? = some entry ∧ Missing entry.chunkId e

theorem openAndDownload_ends (outPath : Bytes) (manifest : Manifest) (enc : Encryption)
    (s : σ × LocalDisk) :
    Ends outcome net (openAndDownload ssl cfg outPath ⟨DhtNode.tableOf ssl cfg.peers⟩ manifest enc)
      (fun result s' =>
      if s.2.writable outPath = true then
        Written ssl outcome outPath manifest.chunks s.2 s'.2 result
      else (∃ e, result = .error e) ∧ s'.2 = s.2) s := by
  unfold openAndDownload
  rintro s rfl
  refine ⟨trivial, ?_⟩
  by_cases hwritable : s.2.writable outPath = true
  · have hopen : lossyHandle outcome net (.openOut outPath) s =
        (true, s.1, s.2.openOut outPath) := if_pos hwritable
    rw [hopen]
    apply Prog.holds_mono _ (downloadChunks_ends enc 0 manifest.chunks
      (s.1, s.2.openOut outPath))
    rintro result s' ⟨plains, hverified, hdisk, hlength⟩
    have hempty : (s.2.openOut outPath).files (s.2.openOut outPath).outPath = some [] := by
      simp [LocalDisk.openOut, LocalDisk.writeFile]
    obtain ⟨output, hfiles, hfront, -, hall⟩ :=
      @LocalDisk.files_writeAllSome outcome (s.2.openOut outPath) plains [] hempty
    rw [if_pos hwritable]
    refine ⟨plains, output, hverified, ?_, hfront, ?_, hlength⟩
    · rw [hdisk, hfiles]
      exact Function.update_idem ..
    · intro _ hcomplete
      apply hall
      intro n hn
      apply hcomplete
      have hwrites : (s.2.openOut outPath).writes = 0 := rfl
      omega
  · have hopen : lossyHandle outcome net (.openOut outPath) s = (false, s) := if_neg hwritable
    rw [hopen]
    change if s.2.writable outPath = true then _ else _
    rw [if_neg hwritable]
    exact ⟨⟨_, rfl⟩, rfl⟩

/-- The download comes to its output file: it has a manifest and its key, and the path can be
opened. -/
def Opens (ssl : OpenSsl) (cfg : ClientConfig) (manifestRef outPath : Bytes)
    (outcome : WriteOutcome) (net : Network σ) (s : σ × LocalDisk) (manifest : Manifest) : Prop :=
  s.2.writable outPath = true ∧ ∃ dht enc s₁,
    (beforeOpen ssl cfg manifestRef).run (lossyHandle outcome net) s =
      (.ok (dht, manifest, enc), s₁)

/-- The second chunk of the note cannot be had. -/
def halfNetwork : Network Unit := fun peer request s =>
  if request = PeerClient.getRequest (str "GET_CHUNK") (str "01" ++ List.replicate 62 48) then
    (.refused (.runtimeError (str "connect: Connection refused")), ())
  else noteNetwork peer request s

def oldDisk : LocalDisk :=
  { files := fun path => if path = str "out" then some (str "old") else none }

end DssClient

end DecentStore
