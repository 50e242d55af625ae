import DecentStore.Progress
import DecentStore.Proof.DownloadOrder

/-!
# What progress reports say

Whatever the peers answer, and wherever the program is stopped: the reports count the chunks one by
one up to their number, a chunk that an upload reports is on all its targets, a chunk that a
download reports has been written to its output, and a program that returns has reported every
chunk.
-/

namespace DecentStore

open Bytes Interaction DssClient

variable {R : Type}

/-- The reports of the first `k` chunks. -/
def progressTo (onProgress : Progress → R) (total : Nat) (message : Bytes) (k : Nat) : List R :=
  (List.range k).map fun i =>
    onProgress { done := castInt (i + 1), total := castInt total, message := message }

section ProgressTo

variable (onProgress : Progress → R) (total : Nat) (message : Bytes)

theorem progressTo_succ (k : Nat) : progressTo onProgress total message (k + 1) =
    progressTo onProgress total message k ++
      [onProgress { done := castInt (k + 1), total := castInt total, message := message }] := by
  simp [progressTo, List.range_succ]

end ProgressTo

/-! ### Uploading -/

section Uploading

variable {ssl : OpenSsl} {upload : Upload ssl} {plan : Plan} {onProgress : Progress → R}
  {past past' : List (Event (Reported Call.Reply R))}

def Upload.putFileOn (upload : Upload ssl) (onProgress : Progress → R) :
    ReportingProg R PutFileResult :=
  DssClient.putFileOn ssl onProgress upload.cfg upload.filePath (some upload.content)
    upload.fileKey

/-- The first `k` chunks are reported, and they are on all their targets. -/
structure Told (upload : Upload ssl) (plan : Plan) (onProgress : Progress → R)
    (past : List (Event (Reported Call.Reply R))) (k : Nat) : Prop where
  count : k ≤ plan.chunks.length
  said : reports past =
    progressTo onProgress plan.chunks.length (str "Uploading chunks") k
  placed : ∀ n < k, ∀ c, plan.chunks[n]? = some c →
    ∀ p ∈ upload.targets (Crypto.sha256Hex ssl c), Placed ssl (calls past) plan.enc n c p

def Truthful (upload : Upload ssl) (plan : Plan) (onProgress : Progress → R)
    (past : List (Event (Reported Call.Reply R))) : Prop :=
  ∃ k, Told upload plan onProgress past k

theorem Told.mono {k : Nat} (htold : Told upload plan onProgress past k)
    (hreports : reports past' = reports past) (hgrown : calls past <+: calls past') :
    Told upload plan onProgress past' k where
  count := htold.count
  said := hreports.trans htold.said
  placed := fun n hn c hc p hp => (htold.placed n hn c hc p hp).mono hgrown

theorem Told.allPlaced (htold : Told upload plan onProgress past plan.chunks.length) :
    AllPlaced upload plan (calls past) := fun n c hc p hp =>
  htold.placed n (List.getElem?_eq_some_iff.mp hc).1 c hc p hp

/-- A part of the upload that does not report. -/
theorem quiet_follows {α : Type} {p : ClientProg α} {post : List ClientEvent → α → Prop} {k : Nat}
    (htold : Told upload plan onProgress past k)
    (hp : Orderly upload plan p post (calls past)) :
    (p.quiet : ReportingProg R α).Follows (fun past _ => Truthful upload plan onProgress past)
      (fun past' r => Truthful upload plan onProgress past' ∧ ∀ a, r = .ok a →
        Told upload plan onProgress past' k ∧ calls past <+: calls past' ∧
          Unfailing (calls past') ∧ post (calls past') a)
      past := by
  refine (Prog.Follows.quiet hp fun past' c hreports hgrown _ =>
    ⟨k, htold.mono hreports hgrown⟩).mono ?_
  rintro past' r ⟨hreports, hgrown, hpost⟩
  have htold' := htold.mono hreports hgrown
  exact ⟨⟨k, htold'⟩, fun a ha => ⟨htold', hgrown, hpost a ha⟩⟩

/-- **One chunk, and its report.** -/
theorem report_follows {k : Nat} {c : Bytes} (htold : Told upload plan onProgress past k)
    (hc : plan.chunks[k]? = some c)
    (hplaced : ∀ p ∈ upload.targets (Crypto.sha256Hex ssl c),
      Placed ssl (calls past) plan.enc k c p) :
    Told upload plan onProgress (past ++ [⟨.inr (onProgress
      { done := castInt (k + 1), total := castInt plan.chunks.length
        message := str "Uploading chunks" }), ()⟩]) (k + 1) where
  count := (List.getElem?_eq_some_iff.mp hc).1
  said := by rw [reports_snoc_report, htold.said, progressTo_succ]
  placed := by
    intro n hn d hd p hp
    rw [calls_snoc_report]
    rcases Nat.lt_succ_iff_lt_or_eq.mp hn with hn | rfl
    · exact htold.placed n hn d hd p hp
    · rw [hc] at hd
      cases hd
      exact hplaced p hp

theorem uploadChunksOn_follows (hpeers : upload.cfg.peers ≠ []) {chunks : List Bytes} {n : Nat}
    (htold : Told upload plan onProgress past n) (hunfailing : Unfailing (calls past))
    (hchunks : plan.chunks.drop n = chunks) :
    (uploadChunksOn ssl onProgress ⟨DhtNode.tableOf ssl upload.cfg.peers⟩
        (clampReplicas upload.cfg) plan.enc (castInt plan.chunks.length) n (UInt64.ofNat n)
        chunks).Follows (fun past _ => Truthful upload plan onProgress past)
      (fun past' r => Truthful upload plan onProgress past' ∧ ∀ a, r = .ok a →
        Told upload plan onProgress past' plan.chunks.length ∧ Unfailing (calls past')) past := by
  induction chunks generalizing past n with
  | nil =>
      have hlast : n = plan.chunks.length :=
        Nat.le_antisymm htold.count (List.drop_eq_nil_iff.mp hchunks)
      exact ⟨⟨n, htold⟩, fun _ _ => ⟨hlast ▸ htold, hunfailing⟩⟩
  | cons c chunks ih =>
      obtain ⟨hc, hrest⟩ := of_drop_eq_cons hchunks
      unfold uploadChunksOn
      refine (quiet_follows htold (uploadChunk_orderly hpeers hunfailing plan.enc n c)).bind ?_
        fun past' e hpost => ⟨hpost.1, by simp⟩
      rintro past₁ a ⟨-, hpost⟩
      obtain ⟨htold₁, -, hunfailing₁, hplaced⟩ := hpost a rfl
      refine ⟨⟨n, htold₁⟩, fun _ => ?_⟩
      have htold₂ := report_follows htold₁ hc hplaced
      rw [ofNat_succ]
      exact ih htold₂ (by rwa [calls_snoc_report]) hrest

/-- Once the plan is made. -/
def Upload.performOn (upload : Upload ssl) (plan : Plan) (onProgress : Progress → R) :
    ReportingProg R PutFileResult := do
  let dht : DhtNode := ⟨DhtNode.tableOf ssl upload.cfg.peers⟩
  let replicas := clampReplicas upload.cfg
  uploadChunksOn ssl onProgress dht replicas plan.enc (castInt plan.chunks.length) 0 0 plan.chunks
  let mTargets ← Prog.ofExcept (dht.store ssl (str "manifest:" ++ plan.hash ssl) replicas)
  (putAll (fun p => PeerClient.putManifest p (plan.hash ssl) plan.text) mTargets).quiet
  let path ← (writeLocalManifest upload.cfg plan.manifest).quiet
  pure { shareUri := plan.shareUri ssl, localManifestPath := path }

theorem Upload.putFileOn_no_peers (hpeers : upload.cfg.peers = []) :
    upload.putFileOn onProgress = throw noPeers := by
  unfold Upload.putFileOn DssClient.putFileOn DssClient.putFileBy
  exact if_pos hpeers

theorem Upload.putFileOn_of_plan (hpeers : upload.cfg.peers ≠ []) (hplan : upload.plan = .ok plan) :
    upload.putFileOn onProgress = upload.performOn plan onProgress := by
  obtain ⟨manifest, hdescribe, hchunks, hmanifest⟩ := Plan.of_ok hplan
  unfold Upload.putFileOn DssClient.putFileOn DssClient.putFileBy Upload.performOn
  simp only [if_neg hpeers, DhtNode.ofPeers_eq, Prog.ofExcept_ok_bind, Prog.pure_bind, hdescribe,
    hchunks, Plan.shareUri, Plan.hash, Plan.text, hmanifest]

theorem Upload.putFileOn_of_error (hplan : ∀ plan, upload.plan ≠ .ok plan) :
    ∃ e, upload.putFileOn onProgress = throw e := by
  unfold Upload.putFileOn DssClient.putFileOn
  exact putFileBy_of_error Prog.quiet _ hplan

/-- An upload has told of every chunk, and everything it names is in place. -/
structure ToldAll (upload : Upload ssl) (plan : Plan) (onProgress : Progress → R)
    (past : List (Event (Reported Call.Reply R))) (result : PutFileResult) : Prop where
  uri : result.shareUri = plan.shareUri ssl
  told : Told upload plan onProgress past plan.chunks.length
  published : Published upload plan (calls past)

theorem performOn_follows (hpeers : upload.cfg.peers ≠ []) :
    (upload.performOn plan onProgress).Follows
      (fun past _ => Truthful upload plan onProgress past)
      (fun past' r => Truthful upload plan onProgress past' ∧ ∀ result, r = .ok result →
        ToldAll upload plan onProgress past' result) [] := by
  have htold : Told upload plan onProgress [] 0 := ⟨Nat.zero_le _, rfl, by simp⟩
  have hnone : Unfailing [] := fun _ _ _ hmem => absurd hmem List.not_mem_nil
  unfold Upload.performOn
  refine (uploadChunksOn_follows hpeers htold hnone List.drop_zero).bind ?_
    fun past' e hpost => ⟨hpost.1, by simp⟩
  rintro past₁ a ⟨-, hpost⟩
  obtain ⟨htold₁, hunfailing⟩ := hpost a rfl
  rw [Upload.store_targets, Prog.ofExcept_ok_bind]
  refine (quiet_follows htold₁ (putAll_orderly _ (fun p hp past' hgrown hunfailing =>
    putManifest_orderly hunfailing (htold₁.allPlaced.mono hgrown) hp) hunfailing)).bind ?_
    fun past' e hpost => ⟨hpost.1, by simp⟩
  rintro past₂ a ⟨-, hpost⟩
  obtain ⟨htold₂, -, hunfailing, hpublished⟩ := hpost a rfl
  refine (quiet_follows htold₂
    (writeLocalManifest_orderly hunfailing htold₂.allPlaced hpublished)).bind ?_
    fun past' e hpost => ⟨hpost.1, by simp⟩
  rintro past₃ path ⟨htruthful, hpost⟩
  obtain ⟨htold₃, hgrown, -, -⟩ := hpost path rfl
  refine ⟨htruthful, ?_⟩
  rintro result hresult
  cases hresult
  exact ⟨rfl, htold₃, fun p hp => (hpublished p hp).mono hgrown⟩

/-- What a reporting upload has told wherever it is. -/
structure Reporting (upload : Upload ssl) (onProgress : Progress → R)
    (events : List (Event (Reported Call.Reply R))) (rest : ReportingProg R PutFileResult) :
    Prop where
  muted : upload.putFile.Reaches (calls events) rest.muted
  truthful : reports events = [] ∨
    ∃ plan, upload.plan = .ok plan ∧ Truthful upload plan onProgress events
  returned : ∀ result, rest = .pure result →
    ∃ plan, upload.plan = .ok plan ∧ ToldAll upload plan onProgress events result

theorem reporting_of_reaches {events : List (Event (Reported Call.Reply R))}
    {rest : ReportingProg R PutFileResult}
    (hreaches : (upload.putFileOn onProgress).Reaches events rest) :
    Reporting upload onProgress events rest := by
  have hmuted := hreaches.muted
  rw [Upload.putFileOn, muted_putFileOn] at hmuted
  have hthrown : ∀ e, upload.putFileOn onProgress = throw e →
      Reporting upload onProgress events rest := by
    intro e he
    rw [he] at hreaches
    cases hreaches
    exact ⟨hmuted, Or.inl rfl, fun result h => by simp at h⟩
  by_cases hpeers : upload.cfg.peers = []
  · exact hthrown noPeers (Upload.putFileOn_no_peers hpeers)
  by_cases hplan : ∃ plan, upload.plan = .ok plan
  · obtain ⟨plan, hplan⟩ := hplan
    rw [Upload.putFileOn_of_plan hpeers hplan] at hreaches
    have hfollows := (performOn_follows hpeers).reaches hreaches
    rw [List.nil_append] at hfollows
    cases rest with
    | pure result =>
        refine ⟨hmuted, Or.inr ⟨plan, hplan, hfollows.1⟩, ?_⟩
        rintro result' hresult
        cases hresult
        exact ⟨plan, hplan, hfollows.2 result rfl⟩
    | throw e => exact ⟨hmuted, Or.inr ⟨plan, hplan, hfollows.1⟩, by simp⟩
    | call c next => exact ⟨hmuted, Or.inr ⟨plan, hplan, hfollows.1⟩, by simp⟩
  · obtain ⟨e, he⟩ : ∃ e, upload.putFileOn onProgress = throw e :=
      Upload.putFileOn_of_error fun plan hok => hplan ⟨plan, hok⟩
    exact hthrown e he

end Uploading

/-- **Progress is true.** At every point that an upload with a callback can reach, whatever it has
been answered: without its reports it is at a point of the upload without a callback; the reports
count the chunks one by one, and each chunk counted is on all its targets; and an upload that has
returned has reported every chunk. -/
theorem upload_reports_truthfully {ssl : OpenSsl} {upload : Upload ssl}
    {onProgress : Progress → R} {events : List (Event (Reported Call.Reply R))}
    {rest : ReportingProg R PutFileResult}
    (hreaches : (upload.putFileOn onProgress).Reaches events rest) :
    upload.putFile.Reaches (calls events) rest.muted ∧
      (reports events = [] ∨ ∃ plan, upload.plan = .ok plan ∧
        Truthful upload plan onProgress events) ∧
      ∀ result, rest = .pure result → ∃ plan, upload.plan = .ok plan ∧
        Told upload plan onProgress events plan.chunks.length := by
  have hreporting := reporting_of_reaches hreaches
  refine ⟨hreporting.muted, hreporting.truthful, fun result hresult => ?_⟩
  obtain ⟨plan, hplan, htold⟩ := hreporting.returned result hresult
  exact ⟨plan, hplan, htold.told⟩

/-- What happens when the note is uploaded to new peers with a callback. -/
def noteTold : List (Event (Reported Call.Reply Progress)) :=
  (noteUpload.putFileOn id).transcript (Prog.heard (worldHandle (Cluster.network {})))
    (Cluster.empty, {})

theorem noteUpload_told :
    ((noteUpload.putFileOn id).run (Prog.heard (worldHandle (Cluster.network {})))
      (Cluster.empty, {})).1 =
      .ok ⟨notePlan.shareUri noteSsl, str "manifests/note.manifest.txt"⟩ := by
  rw [Prog.run_heard, Upload.putFileOn, muted_putFileOn]
  exact noteUpload_returns

theorem note_told : ∃ plan, noteUpload.plan = .ok plan ∧
    Told noteUpload plan id noteTold plan.chunks.length :=
  (upload_reports_truthfully (Prog.reaches_transcript
    (Prog.heard (worldHandle (Cluster.network {}))) (noteUpload.putFileOn id)
    (Cluster.empty, {}))).2.2 _ (by rw [noteUpload_told]; rfl)

/-! ### Downloading -/

section Downloading

variable {ssl : OpenSsl} {cfg : ClientConfig} {manifestRef : Bytes} {manifest : Manifest}
  {enc : Encryption} {onProgress : Progress → R} {past : List (Event (Reported Call.Reply R))}

/-- The first `k` chunks of the manifest are reported, and they have been written to the output, the
next one at most besides. -/
structure ToldRead (ssl : OpenSsl) (cfg : ClientConfig) (manifestRef : Bytes)
    (onProgress : Progress → R) (past : List (Event (Reported Call.Reply R))) (manifest : Manifest)
    (enc : Encryption) (k : Nat) : Prop where
  underway : Underway ssl cfg manifestRef (calls past) manifest enc
  said : reports past =
    progressTo onProgress manifest.chunks.length (str "Downloading chunks") k
  written : k ≤ (writes (calls past)).length
  next : (writes (calls past)).length ≤ k + 1

def TruthfulRead (ssl : OpenSsl) (cfg : ClientConfig) (manifestRef : Bytes)
    (onProgress : Progress → R) (past : List (Event (Reported Call.Reply R))) : Prop :=
  (reports past = [] ∧ writes (calls past) = []) ∨
    ∃ manifest enc k, ToldRead ssl cfg manifestRef onProgress past manifest enc k

theorem writes_mono {past past' : List ClientEvent} (hgrown : past <+: past') :
    writes past <+: writes past' := hgrown.filterMap _

/-- As long as nothing more is written. -/
theorem Underway.mono {past past' : List ClientEvent}
    (underway : Underway ssl cfg manifestRef past manifest enc) (hgrown : past <+: past')
    (hlength : (writes past').length = (writes past).length) :
    Underway ssl cfg manifestRef past' manifest enc where
  known := underway.known.mono hgrown
  key := underway.key
  written := by
    intro n plain hn
    rw [← (writes_mono hgrown).eq_of_length hlength.symm] at hn
    obtain ⟨entry, hentry, hvouched⟩ := underway.written n plain hn
    exact ⟨entry, hentry, hvouched.mono hgrown⟩

theorem downloadChunksOn_follows {entries : List ManifestEntry} {n : Nat}
    (htold : ToldRead ssl cfg manifestRef onProgress past manifest enc n)
    (hwritten : (writes (calls past)).length = n)
    (hentries : manifest.chunks.drop n = entries) (hn : n ≤ manifest.chunks.length) :
    (downloadChunksOn ssl onProgress cfg ⟨DhtNode.tableOf ssl cfg.peers⟩ enc
        (castInt manifest.chunks.length) n (UInt64.ofNat n) entries).Follows
      (fun past _ => TruthfulRead ssl cfg manifestRef onProgress past)
      (fun past' r => TruthfulRead ssl cfg manifestRef onProgress past' ∧ (r = .ok () →
        ToldRead ssl cfg manifestRef onProgress past' manifest enc manifest.chunks.length ∧
          (writes (calls past')).length = manifest.chunks.length)) past := by
  induction entries generalizing past n with
  | nil =>
      have hlast : n = manifest.chunks.length :=
        Nat.le_antisymm hn (List.drop_eq_nil_iff.mp hentries)
      subst hlast
      exact ⟨Or.inr ⟨manifest, enc, _, htold⟩, fun _ => ⟨htold, hwritten⟩⟩
  | cons entry entries ih =>
      obtain ⟨hentry, hrest⟩ := of_drop_eq_cons hentries
      obtain ⟨hlt, -⟩ := List.getElem?_eq_some_iff.mp hentry
      unfold downloadChunksOn
      have hchunk := @downloadChunk_follows ssl cfg manifestRef [] _ manifest enc entry n
        ⟨htold.underway, hwritten⟩ hentry
      refine (hchunk.quiet fun past' c hreports hgrown hbefore => ?_).bind ?_ ?_
      · refine Or.inr ⟨manifest, enc, n, ?_⟩
        exact ⟨htold.underway.mono hgrown (hbefore.2.trans hwritten.symm),
          hreports.trans htold.said, hbefore.2.ge, hbefore.2.le.trans (Nat.le_succ n)⟩
      · rintro past₁ ⟨⟩ ⟨hreports, -, underway, hlength⟩
        have htold₁ : ToldRead ssl cfg manifestRef onProgress past₁ manifest enc n :=
          ⟨underway, hreports.trans htold.said, by simp [hlength], by simp [hlength]⟩
        refine ⟨Or.inr ⟨manifest, enc, n, htold₁⟩, fun _ => ?_⟩
        rw [ofNat_succ]
        have hlater : (writes (calls past₁)).length = n + 1 := hlength
        refine ih ⟨?_, ?_, ?_, ?_⟩ ?_ hrest hlt
        · rwa [calls_snoc_report]
        · rw [reports_snoc_report, htold₁.said, progressTo_succ]
        · rw [calls_snoc_report, hlater]
        · rw [calls_snoc_report, hlater]
          exact Nat.le_succ _
        · rw [calls_snoc_report, hlater]
      · rintro past₁ e ⟨hreports, -, underway, hlength⟩
        refine ⟨Or.inr ⟨manifest, enc, n, underway, hreports.trans htold.said, ?_, ?_⟩, by simp⟩
        · simp [hlength]
        · simp [hlength]

/-- Nothing is reported and nothing is written. -/
structure Unheard (past : List (Event (Reported Call.Reply R))) : Prop where
  reports : reports past = []
  writes : writes (calls past) = []

theorem Unheard.truthful (hnone : Unheard past) :
    TruthfulRead ssl cfg manifestRef onProgress past := Or.inl ⟨hnone.reports, hnone.writes⟩

theorem Unheard.snoc (hnone : Unheard past) {c : Call} (hc : ∀ data, c ≠ .write data)
    (r : Call.Reply c) : Unheard (past ++ [⟨.inl c, r⟩]) where
  reports := by rw [reports_snoc_call, hnone.reports]
  writes := by rw [calls_snoc_call, writes_snoc_other _ hc, hnone.writes]

theorem search_follows {past : List ClientEvent} (isLocal : Bool) (hnone : writes past = [])
    (hlooked : ⟨.fileExists manifestRef, .ok isLocal⟩ ∈ past) :
    (if isLocal then readManifest manifestRef
      else fetchManifest ssl cfg ⟨DhtNode.tableOf ssl cfg.peers⟩
        (normalizeManifestId manifestRef)).Follows (ReadAt ssl cfg manifestRef [] 0)
      (fun past' r => writes past' = [] ∧ ∀ manifest, r = .ok manifest →
        Known ssl cfg manifestRef past' manifest) past := by
  cases isLocal with
  | true => exact readManifest_follows hnone hlooked
  | false => exact fetchManifest_follows hnone

theorem quiet_search_follows (hnone : Unheard past) {search : ClientProg Manifest}
    (hsearch : search.Follows (ReadAt ssl cfg manifestRef [] 0)
      (fun past' r => writes past' = [] ∧ ∀ manifest, r = .ok manifest →
        Known ssl cfg manifestRef past' manifest) (calls past)) :
    (search.quiet : ReportingProg R Manifest).Follows
      (fun past _ => TruthfulRead ssl cfg manifestRef onProgress past)
      (fun past' r => Unheard past' ∧ ∀ manifest, r = .ok manifest →
        Known ssl cfg manifestRef (calls past') manifest) past := by
  refine (hsearch.quiet fun past' c hreports _ hbefore => ?_).mono ?_
  · exact Or.inl ⟨hreports.trans hnone.reports, List.eq_nil_of_length_eq_zero hbefore.2⟩
  · rintro past' r ⟨hreports, -, hwrites, hknown⟩
    exact ⟨⟨hreports.trans hnone.reports, hwrites⟩, hknown⟩

/-- Once the manifest is known. -/
def saveChunksOn (ssl : OpenSsl) (cfg : ClientConfig) (outPath : Bytes)
    (onProgress : Progress → R) (manifest : Manifest) : ReportingProg R Unit := do
  let enc ← Prog.ofExcept (unwrapKey ssl cfg manifest)
  let opened : Bool ← (Prog.ask (Call.openOut outPath) : ClientProg Bool).quiet
  if opened then
    downloadChunksOn ssl onProgress cfg ⟨DhtNode.tableOf ssl cfg.peers⟩ enc
      (castInt manifest.chunks.length) 0 0 manifest.chunks
  else throw (.runtimeError (str "Cannot open output file: " ++ outPath))

theorem getFileOn_eq (hpeers : cfg.peers ≠ []) (manifestRef outPath : Bytes) :
    getFileOn ssl onProgress cfg manifestRef outPath =
      .call (.inl (.fileExists manifestRef)) fun answer : Except Exc Bool =>
        Prog.ofExcept answer >>= fun isLocal =>
          (if isLocal then readManifest manifestRef
            else fetchManifest ssl cfg ⟨DhtNode.tableOf ssl cfg.peers⟩
              (normalizeManifestId manifestRef)).quiet >>=
            saveChunksOn ssl cfg outPath onProgress := by
  unfold getFileOn getFileBy
  rw [if_neg hpeers, DhtNode.ofPeers_eq, Prog.ofExcept_ok_bind]
  change Prog.call _ _ = Prog.call _ _
  congr 1
  funext (answer : Except Exc Bool)
  cases answer <;> rfl

theorem getFileOn_no_peers (hpeers : cfg.peers = []) (manifestRef outPath : Bytes) :
    getFileOn ssl onProgress cfg manifestRef outPath = throw noPeers := by
  unfold getFileOn getFileBy
  exact if_pos hpeers

/-- How a download with a callback ends. -/
def ReadReported (ssl : OpenSsl) (cfg : ClientConfig) (manifestRef : Bytes)
    (onProgress : Progress → R) (past : List (Event (Reported Call.Reply R)))
    (r : Except Exc Unit) : Prop :=
  TruthfulRead ssl cfg manifestRef onProgress past ∧ (r = .ok () → ∃ manifest enc,
    ToldRead ssl cfg manifestRef onProgress past manifest enc manifest.chunks.length ∧
      (writes (calls past)).length = manifest.chunks.length)

theorem saveChunksOn_follows (outPath : Bytes) (hnone : Unheard past)
    (hknown : Known ssl cfg manifestRef (calls past) manifest) :
    (saveChunksOn ssl cfg outPath onProgress manifest).Follows
      (fun past _ => TruthfulRead ssl cfg manifestRef onProgress past)
      (ReadReported ssl cfg manifestRef onProgress) past := by
  unfold saveChunksOn
  cases hunwrap : unwrapKey ssl cfg manifest with
  | error e => exact ⟨hnone.truthful, by simp⟩
  | ok enc =>
      rw [Prog.ofExcept_ok_bind]
      refine ⟨hnone.truthful, fun opened => ?_⟩
      have hnone' := hnone.snoc (c := .openOut outPath) (by simp) opened
      cases opened with
      | false => exact ⟨hnone'.truthful, by simp⟩
      | true =>
          have underway : Underway ssl cfg manifestRef
              (calls (past ++ [⟨.inl (.openOut outPath), true⟩])) manifest enc := by
            rw [calls_snoc_call]
            refine ⟨hknown.mono (List.prefix_append _ _), hunwrap, ?_⟩
            simp [writes_snoc_other, hnone.writes]
          have htold : ToldRead ssl cfg manifestRef onProgress
              (past ++ [⟨.inl (.openOut outPath), true⟩]) manifest enc 0 :=
            ⟨underway, hnone'.reports, Nat.zero_le _,
              (congrArg List.length hnone'.writes).le.trans (Nat.zero_le _)⟩
          refine (downloadChunksOn_follows htold (congrArg List.length hnone'.writes)
            List.drop_zero (Nat.zero_le _)).mono ?_
          rintro past' r ⟨htruthful, hcomplete⟩
          exact ⟨htruthful, fun hr => ⟨manifest, enc, hcomplete hr⟩⟩

theorem getFileOn_follows (hpeers : cfg.peers ≠ []) (outPath : Bytes) :
    (getFileOn ssl onProgress cfg manifestRef outPath).Follows
      (fun past _ => TruthfulRead ssl cfg manifestRef onProgress past)
      (ReadReported ssl cfg manifestRef onProgress) [] := by
  have hnone : Unheard ([] : List (Event (Reported Call.Reply R))) := ⟨rfl, rfl⟩
  rw [getFileOn_eq hpeers]
  refine ⟨hnone.truthful, fun answer : Except Exc Bool => ?_⟩
  have hnone' := hnone.snoc (c := .fileExists manifestRef) (by simp) answer
  cases answer with
  | error e => exact ⟨hnone'.truthful, by simp⟩
  | ok isLocal =>
      refine (quiet_search_follows hnone' (search_follows isLocal hnone'.writes
        List.mem_cons_self)).bind ?_
        fun past' e hpost => ⟨hpost.1.truthful, by simp⟩
      rintro past' manifest ⟨hnone, hknown⟩
      exact saveChunksOn_follows outPath hnone (hknown manifest rfl)

end Downloading

/-- **Progress of a download is true.** At every point that a download with a callback can reach,
whatever it has been answered: without its reports it is at a point of the download without a
callback; the reports count the chunks of the manifest that was read locally or has the right hash
one by one, each chunk counted has been written to the stream of the output file, and of the others
at most the next one; and a download that has returned has reported and written every chunk. -/
theorem download_reports_truthfully {ssl : OpenSsl} {cfg : ClientConfig}
    {manifestRef outPath : Bytes} {onProgress : Progress → R}
    {events : List (Event (Reported Call.Reply R))} {rest : ReportingProg R Unit}
    (hreaches : (getFileOn ssl onProgress cfg manifestRef outPath).Reaches events rest) :
    (getFile ssl cfg manifestRef outPath).Reaches (calls events) rest.muted ∧
      TruthfulRead ssl cfg manifestRef onProgress events ∧
      (rest = .pure () → ∃ manifest enc,
        ToldRead ssl cfg manifestRef onProgress events manifest enc manifest.chunks.length ∧
          (writes (calls events)).length = manifest.chunks.length) := by
  have hmuted := hreaches.muted
  rw [muted_getFileOn] at hmuted
  refine ⟨hmuted, ?_⟩
  by_cases hpeers : cfg.peers = []
  · rw [getFileOn_no_peers hpeers] at hreaches
    cases hreaches
    exact ⟨Or.inl ⟨rfl, rfl⟩, by simp⟩
  have hfollows := (getFileOn_follows hpeers outPath).reaches hreaches
  rw [List.nil_append] at hfollows
  cases rest with
  | pure _ => exact ⟨hfollows.1, fun _ => hfollows.2 rfl⟩
  | throw e => exact ⟨hfollows.1, by simp⟩
  | call c next => exact ⟨hfollows.1, by simp⟩

/-- What happens when the note is downloaded with a callback. -/
def noteReadTold : List (Event (Reported Call.Reply Progress)) :=
  (getFileOn noteSsl id noteConfig (notePlan.shareUri noteSsl) (str "out")).transcript
    (Prog.heard (worldHandle noteNetwork)) ((), {})

theorem noteDownload_told :
    ((getFileOn noteSsl id noteConfig (notePlan.shareUri noteSsl) (str "out")).run
      (Prog.heard (worldHandle noteNetwork)) ((), {})).1 = .ok () := by
  rw [Prog.run_heard, muted_getFileOn]
  exact noteDownload_returns

theorem note_read_told : ∃ manifest enc,
    ToldRead noteSsl noteConfig (notePlan.shareUri noteSsl) id noteReadTold manifest enc
        manifest.chunks.length ∧
      (writes (calls noteReadTold)).length = manifest.chunks.length :=
  (download_reports_truthfully (Prog.reaches_transcript (Prog.heard (worldHandle noteNetwork))
    (getFileOn noteSsl id noteConfig (notePlan.shareUri noteSsl) (str "out")) ((), {}))).2.2
      (by rw [noteDownload_told]; rfl)

end DecentStore
