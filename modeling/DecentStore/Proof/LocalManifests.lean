import DecentStore.Proof.Integrity

/-!
# The local copies of manifests

A share id names a manifest by its hash, and the local copy names it by the file's name alone. An
upload leaves the copy of its own manifest at the path it returns and touches no other file, so a
path has the manifest of the last upload that returned it.
-/

namespace DecentStore

open Bytes Interaction DssClient

def IsExchange (c : Call) : Prop := ∃ peer request, c = .exchange peer request

theorem put_onlyExchange (cmd : Bytes) (peer : PeerEndpoint) (id data : Bytes) :
    (PeerClient.put cmd peer id data).Only IsExchange := by
  refine ⟨⟨_, _, rfl⟩, ?_⟩
  intro answer
  cases answer with
  | refused e => trivial
  | sendFailed e => trivial
  | brokenPipe => trivial
  | silent => trivial
  | answered sock =>
      apply Prog.only_bind (Prog.only_ofExcept _)
      intro resp
      split <;> trivial

theorem has_onlyExchange (cmd : Bytes) (peer : PeerEndpoint) (id : Bytes) :
    (PeerClient.has cmd peer id).Only IsExchange := by
  apply Prog.only_bind (Prog.only_ask ⟨_, _, rfl⟩)
  intro answer
  cases answer with
  | refused e => trivial
  | sendFailed e => trivial
  | brokenPipe => trivial
  | silent => trivial
  | answered sock =>
      simp only
      split <;> trivial

theorem probe_onlyExchange (cid : Bytes) (targets : List PeerEndpoint) :
    (probe cid targets).Only IsExchange := by
  induction targets with
  | nil => trivial
  | cons p targets ih =>
      apply Prog.only_bind (has_onlyExchange _ p cid)
      intro present
      exact Prog.only_bind ih fun _ => trivial

theorem putMissing_onlyExchange (cid toSend : Bytes) (needed : Int) (missing : List PeerEndpoint) :
    (putMissing cid toSend needed missing).Only IsExchange := by
  induction missing generalizing needed with
  | nil => trivial
  | cons p missing ih =>
      apply Prog.only_bind (put_onlyExchange _ p cid toSend)
      intro _
      split
      · trivial
      · exact ih (needed - 1)

theorem putAll_onlyExchange {put : PeerEndpoint → ClientProg Unit}
    (hput : ∀ p, (put p).Only IsExchange) (targets : List PeerEndpoint) :
    (putAll put targets).Only IsExchange := by
  induction targets with
  | nil => trivial
  | cons p targets ih => exact Prog.only_bind (hput p) fun _ => ih

variable {ssl : OpenSsl}

theorem uploadChunk_onlyExchange (dht : DhtNode) (replicas : Int) (enc : Encryption)
    (chunkIndex : UInt64) (bytes : Bytes) :
    (uploadChunk ssl dht replicas enc chunkIndex bytes).Only IsExchange := by
  unfold uploadChunk
  cases enc with
  | none =>
      apply Prog.only_bind (Prog.only_ofExcept _)
      intro targets
      apply Prog.only_bind (probe_onlyExchange _ targets)
      rintro ⟨already, missing⟩
      simp only
      split
      · exact putMissing_onlyExchange _ bytes _ missing
      · trivial
  | some params =>
      apply Prog.only_bind (Prog.only_ofExcept _)
      intro toSend
      apply Prog.only_bind (Prog.only_ofExcept _)
      intro targets
      exact putAll_onlyExchange (fun p => put_onlyExchange _ p _ toSend) targets

theorem uploadChunks_onlyExchange (dht : DhtNode) (replicas : Int) (enc : Encryption)
    (chunkIndex : UInt64) (chunks : List Bytes) :
    (uploadChunks ssl dht replicas enc chunkIndex chunks).Only IsExchange := by
  induction chunks generalizing chunkIndex with
  | nil => trivial
  | cons bytes chunks ih =>
      exact Prog.only_bind (uploadChunk_onlyExchange dht replicas enc chunkIndex bytes)
        fun _ => ih (chunkIndex + 1)

theorem disk_of_onlyExchange {α σ : Type} {net : Network σ} {p : ClientProg α}
    (hp : p.Only IsExchange) {s s' : σ × LocalDisk} {r : Except Exc α}
    (hrun : p.run (worldHandle net) s = (r, s')) : s'.2 = s.2 := by
  have hkeeps : (p.run (worldHandle net) s).2.2 = s.2 := by
    apply hp.keeps (fun t : σ × LocalDisk => t.2 = s.2) _ rfl
    rintro c t ⟨peer, request, rfl⟩ ht
    exact ht
  rwa [hrun] at hkeeps

/-- Where the copy of a manifest goes: the directory, and the file's name with an ending. -/
def localManifestPath (cfg : ClientConfig) (name : Bytes) (disk : LocalDisk) : Bytes :=
  joinPath (disk.absolute (if cfg.localManifestDir = [] then str "manifests"
    else cfg.localManifestDir)) (name ++ str ".manifest.txt")

/-- What an upload leaves on the disk: the copy, or nothing if it throws. -/
def Copies (cfg : ClientConfig) (manifest : Manifest) (disk : LocalDisk) :
    Except Exc Bytes → LocalDisk → Prop
  | .ok path, disk' => path = localManifestPath cfg manifest.originalName disk ∧
      disk' = disk.writeFile path (serializeManifest manifest)
  | .error _, disk' => disk' = disk

theorem run_writeFile {σ : Type} (net : Network σ) (path text : Bytes) (s : σ × LocalDisk) :
    (Prog.ask (Call.writeFile path text) : ClientProg Bool).run (worldHandle net) s =
      if s.2.writable path = true then (.ok true, s.1, s.2.writeFile path text)
      else (.ok false, s) := by
  by_cases hwritable : s.2.writable path = true <;> simp [worldHandle, hwritable]

theorem run_writeLocalManifest {σ : Type} (net : Network σ) (cfg : ClientConfig)
    (manifest : Manifest) (s : σ × LocalDisk) :
    Copies cfg manifest s.2 ((writeLocalManifest cfg manifest).run (worldHandle net) s).1
      ((writeLocalManifest cfg manifest).run (worldHandle net) s).2.2 := by
  have habsolute : ∀ dir, (Prog.ask (Call.absolute dir) : ClientProg Bytes).run
      (worldHandle net) s = (.ok (s.2.absolute dir), s) := fun _ => rfl
  have hdirectories : ∀ dir, (Prog.ask (Call.createDirectories dir) :
      ClientProg (Option Bytes)).run (worldHandle net) s = (.ok (s.2.dirError dir), s) :=
    fun _ => rfl
  unfold writeLocalManifest
  rw [Prog.run_bind_of_ok (habsolute _), Prog.run_bind_of_ok (hdirectories _)]
  cases s.2.dirError (s.2.absolute _) with
  | some message => exact rfl
  | none =>
      simp only
      have hwrite := run_writeFile net (localManifestPath cfg manifest.originalName s.2)
        (serializeManifest manifest) s
      split at hwrite
      · rw [localManifestPath] at hwrite
        rw [Prog.run_bind_of_ok hwrite]
        exact ⟨rfl, rfl⟩
      · rw [localManifestPath] at hwrite
        rw [Prog.run_bind_of_ok hwrite]
        exact rfl

namespace Upload

variable {upload : Upload ssl}

/-- **An upload leaves the copy of its own manifest** at the path it returns, and no other file. -/
theorem run_putFile_disk {σ : Type} (net : Network σ) {s : σ × LocalDisk} {result : PutFileResult}
    (hreturns : (upload.putFile.run (worldHandle net) s).1 = .ok result) :
    ∃ plan, upload.plan = .ok plan ∧ result.shareUri = plan.shareUri ssl ∧
      result.localManifestPath =
        localManifestPath upload.cfg (filename upload.filePath) s.2 ∧
      (upload.putFile.run (worldHandle net) s).2.2 =
        s.2.writeFile result.localManifestPath plan.text := by
  have hrun : upload.putFile.run (worldHandle net) s =
      (.ok result, (upload.putFile.run (worldHandle net) s).2) := Prod.ext hreturns rfl
  generalize (upload.putFile.run (worldHandle net) s).2 = s' at hrun ⊢
  obtain ⟨plan, hplan⟩ : ∃ plan, upload.plan = .ok plan := by
    by_contra hnone
    push Not at hnone
    obtain ⟨e, he⟩ := putFile_of_error hnone
    rw [he] at hrun
    cases hrun
  have hpeers : upload.cfg.peers ≠ [] := by
    intro hempty
    rw [putFile_no_peers hempty] at hrun
    cases hrun
  rw [putFile_of_plan hpeers hplan, perform] at hrun
  simp only [store_targets, Prog.ofExcept_ok_bind] at hrun
  obtain ⟨⟨⟩, s₁, hchunks, hrun⟩ := Prog.run_bind_ok hrun
  obtain ⟨⟨⟩, s₂, hmanifests, hrun⟩ := Prog.run_bind_ok hrun
  obtain ⟨path, s₃, hlocal, hrun⟩ := Prog.run_bind_ok hrun
  cases hrun
  have hdisk₁ : s₁.2 = s.2 := disk_of_onlyExchange (uploadChunks_onlyExchange ..) hchunks
  have hdisk₂ : s₂.2 = s₁.2 :=
    disk_of_onlyExchange (putAll_onlyExchange (fun p => put_onlyExchange _ p _ _) _) hmanifests
  have hcopies := run_writeLocalManifest net upload.cfg plan.manifest s₂
  rw [hlocal, hdisk₂, hdisk₁] at hcopies
  obtain ⟨hpath, hdisk⟩ := hcopies
  refine ⟨plan, hplan, rfl, ?_, hdisk⟩
  obtain ⟨manifest, hdescribe, -, hmanifest⟩ := plan_ok hplan
  rw [hpath, hmanifest]
  exact congrArg (localManifestPath upload.cfg · s.2) (describe_ok hdescribe).1

end Upload

/-- Uploads that return, one after the other, with what they return. Between two of them the network
goes on as it likes. -/
inductive Uploaded {σ : Type} (ssl : OpenSsl) (net : Network σ) :
    LocalDisk → List (Upload ssl × PutFileResult) → LocalDisk → Prop where
  | nil (disk : LocalDisk) : Uploaded ssl net disk [] disk
  | cons {upload : Upload ssl} {result : PutFileResult} {a a' : σ} {disk disk' after : LocalDisk}
      {calls : List (Upload ssl × PutFileResult)}
      (hrun : upload.putFile.run (worldHandle net) (a, disk) = (.ok result, a', disk'))
      (hrest : Uploaded ssl net disk' calls after) :
      Uploaded ssl net disk ((upload, result) :: calls) after

/-- The last of the calls that returned this path. -/
def lastAt (path : Bytes) (calls : List (Upload ssl × PutFileResult)) :
    Option (Upload ssl × PutFileResult) :=
  (calls.filter fun call => call.2.localManifestPath = path).getLast?

/-- The file at the path has the manifest whose hash is in the share id. -/
def Consistent (ssl : OpenSsl) (disk : LocalDisk) (result : PutFileResult) : Prop :=
  ∃ text, disk.files result.localManifestPath = some text ∧
    result.shareUri = shareScheme ++ Crypto.sha256Hex ssl text

variable {σ : Type} {net : Network σ}

omit σ net in
theorem lastAt_cons (path : Bytes) (call : Upload ssl × PutFileResult)
    (calls : List (Upload ssl × PutFileResult)) :
    lastAt path (call :: calls) = (lastAt path calls).or
      (if call.2.localManifestPath = path then some call else none) := by
  unfold lastAt
  by_cases hpath : call.2.localManifestPath = path
  · rw [List.filter_cons_of_pos (by simpa using hpath), List.getLast?_cons, if_pos hpath]
    cases (calls.filter fun call => call.2.localManifestPath = path).getLast? <;> rfl
  · rw [List.filter_cons_of_neg (by simpa using hpath), if_neg hpath, Option.or_none]

def HasCopy (ssl : OpenSsl) (disk : LocalDisk) (path : Bytes)
    (call : Upload ssl × PutFileResult) : Prop :=
  ∃ plan, call.1.plan = .ok plan ∧ call.2.shareUri = plan.shareUri ssl ∧
    disk.files path = some plan.text

/-- **A path has the manifest of the last call that returned it**, or what it had before. -/
theorem files_uploaded {before after : LocalDisk} {calls : List (Upload ssl × PutFileResult)}
    (huploaded : Uploaded ssl net before calls after) (path : Bytes) :
    (lastAt path calls = none → after.files path = before.files path) ∧
      ∀ last, lastAt path calls = some last → HasCopy ssl after path last := by
  induction huploaded with
  | nil disk => exact ⟨fun _ => rfl, by simp [lastAt]⟩
  | @cons upload result a a' disk disk' after calls hrun hrest ih =>
      obtain ⟨plan, hplan, huri, -, hdisk⟩ :=
        upload.run_putFile_disk net (congrArg Prod.fst hrun)
      rw [hrun] at hdisk
      rw [lastAt_cons]
      cases hlast : lastAt path calls with
      | some last =>
          refine ⟨by simp, ?_⟩
          rintro l ⟨⟩
          exact ih.2 last hlast
      | none =>
          have hafter : after.files path =
              (disk.writeFile result.localManifestPath plan.text).files path :=
            calc after.files path = disk'.files path := ih.1 hlast
              _ = (disk.writeFile result.localManifestPath plan.text).files path :=
                  congrArg (LocalDisk.files · path) hdisk
          by_cases hpath : result.localManifestPath = path
          · simp only [hpath, if_true, Option.none_or]
            refine ⟨by simp, ?_⟩
            rintro l ⟨⟩
            refine ⟨plan, hplan, huri, ?_⟩
            calc after.files path = (disk.writeFile path plan.text).files path := by
                  rw [hafter, hpath]
              _ = some plan.text := Function.update_self ..
          · simp only [hpath, if_false, Option.none_or]
            refine ⟨fun _ => ?_, by simp⟩
            calc after.files path =
                  (disk.writeFile result.localManifestPath plan.text).files path := hafter
              _ = disk.files path := Function.update_of_ne (Ne.symm hpath) ..

omit σ net in
theorem exists_lastAt {call : Upload ssl × PutFileResult}
    {calls : List (Upload ssl × PutFileResult)} (hcall : call ∈ calls) :
    ∃ last, lastAt call.2.localManifestPath calls = some last := by
  apply Option.isSome_iff_exists.mp
  rw [lastAt, List.getLast?_isSome]
  exact List.ne_nil_of_mem (List.mem_filter.mpr ⟨hcall, by simp⟩)

/-- **The copy belongs to the last call with the path.** A result is consistent exactly when that
call returned the same share id. -/
theorem result_consistent_iff {before after : LocalDisk}
    {calls : List (Upload ssl × PutFileResult)} (huploaded : Uploaded ssl net before calls after)
    {call : Upload ssl × PutFileResult} (hcall : call ∈ calls) :
    ∃ last, lastAt call.2.localManifestPath calls = some last ∧
      HasCopy ssl after call.2.localManifestPath last ∧
      (Consistent ssl after call.2 ↔ call.2.shareUri = last.2.shareUri) := by
  obtain ⟨last, hlast⟩ := exists_lastAt hcall
  have hcopy := (files_uploaded huploaded call.2.localManifestPath).2 last hlast
  refine ⟨last, hlast, hcopy, ?_⟩
  obtain ⟨plan, -, huri, hfile⟩ := hcopy
  constructor
  · rintro ⟨text, htext, hshare⟩
    rw [hfile] at htext
    cases htext
    rw [hshare, huri]
    rfl
  · intro hsame
    exact ⟨plan.text, hfile, hsame.trans huri⟩

/-- Every request is answered `OK`. -/
def obligingNetwork : Network Unit := fun _ _ _ => (.answered { bytes := str "OK\n" }, ())

def otherPlan : Plan :=
  { manifest :=
      { originalName := str "note", originalSize := 2, chunkSize := 2
        chunks := [⟨List.replicate 64 48⟩] }
    enc := none
    chunks := [str "hi"] }

theorem otherUpload_plan :
    Plan.of noteSsl noteConfig (str "/tmp/note") (str "hi") noteKey = .ok otherPlan := by
  decide +kernel

/-- Another file with the name of the note. -/
def otherUpload : Upload noteSsl where
  cfg := noteConfig
  filePath := str "/tmp/note"
  content := str "hi"
  fileKey := noteKey
  text_fits := by
    intro plan hplan
    rw [otherUpload_plan] at hplan
    cases hplan
    decide +kernel

def copyPath : Bytes := str "/home/manifests/note.manifest.txt"

def noteResult : PutFileResult := ⟨notePlan.shareUri noteSsl, copyPath⟩

def otherResult : PutFileResult := ⟨otherPlan.shareUri noteSsl, copyPath⟩

def homeDisk : LocalDisk := { workingDir := str "/home" }

theorem note_returned :
    (noteUpload.putFile.run (worldHandle obligingNetwork) ((), homeDisk)).1 = .ok noteResult := by
  decide +kernel

theorem other_returned :
    (otherUpload.putFile.run (worldHandle obligingNetwork)
      ((), (noteUpload.putFile.run (worldHandle obligingNetwork) ((), homeDisk)).2.2)).1 =
        .ok otherResult := by
  decide +kernel

theorem notes_uploaded : ∃ after, Uploaded noteSsl obligingNetwork homeDisk
    [(noteUpload, noteResult), (otherUpload, otherResult)] after :=
  ⟨_, .cons (Prod.ext note_returned rfl) (.cons (Prod.ext other_returned rfl) (.nil _))⟩

theorem note_copy : ∃ after last, lastAt copyPath
    [(noteUpload, noteResult), (otherUpload, otherResult)] = some last ∧
      HasCopy noteSsl after copyPath last ∧
      (Consistent noteSsl after noteResult ↔ noteResult.shareUri = last.2.shareUri) := by
  obtain ⟨after, huploaded⟩ := notes_uploaded
  exact ⟨after, result_consistent_iff huploaded List.mem_cons_self⟩

/-- The copy of the first note is overwritten by that of the second. -/
theorem note_copy_overwritten :
    ¬ ∀ (ssl : OpenSsl) (σ : Type) (net : Network σ) (dir : Bytes) (before after : LocalDisk)
        (calls : List (Upload ssl × PutFileResult)),
      (∀ call ∈ calls, call.1.cfg.localManifestDir = dir) →
      Uploaded ssl net before calls after → ∀ call ∈ calls, Consistent ssl after call.2 := by
  intro hclaim
  obtain ⟨after, huploaded⟩ := notes_uploaded
  have hdir : ∀ call ∈ [(noteUpload, noteResult), (otherUpload, otherResult)],
      call.1.cfg.localManifestDir = [] := by
    simp [noteUpload, otherUpload, noteConfig]
  obtain ⟨text, htext, hshare⟩ := hclaim noteSsl Unit obligingNetwork [] homeDisk after _ hdir
    huploaded (noteUpload, noteResult) List.mem_cons_self
  obtain ⟨plan, hplan, -, hfile⟩ :=
    (files_uploaded huploaded copyPath).2 (otherUpload, otherResult) rfl
  obtain rfl : otherPlan = plan := Except.ok.inj (otherUpload_plan.symm.trans hplan)
  obtain rfl : otherPlan.text = text := Option.some.inj (hfile.symm.trans htext)
  exact absurd hshare (by decide +kernel)

end DecentStore
