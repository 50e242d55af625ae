import DecentStore.Proof.DiskUploads
import DecentStore.Proof.FrontEnds

/-!
# What the command line shows

`put` and `get` end with exit code 0 or 1 and say which it is, unless the process is killed or waits
for ever for an answer. A share id on the screen is that of an upload that is complete, and `get`
with it, from peers with disks that are restarted between requests, ends with 0 and has written the
file.
-/

namespace DecentStore

open Bytes Posix FileSystem Interaction DssClient

namespace CommandLine

/-! ### Put -/

def exitCode {α : Type} : Except Exc α → Int
  | .ok _ => 0
  | .error _ => 1

def putSaid : Except Exc PutFileResult → List Output
  | .ok result => [shareText result, manifestText result]
  | .error e => [errorText e]

def putMode : PeerList := ⟨str "put", by decide⟩

/-- A `put` whose arguments are understood, for a file that is there. -/
structure PutCommand (ssl : OpenSsl) where
  env : Environment
  prog : Bytes
  list : PeerList
  filePath : PeerList
  args : List PeerList
  upload : Upload ssl
  config : putConfig env list (args.map PeerList.text) = .ok upload.cfg
  path : filePath.text = upload.filePath
  file : env.files upload.filePath = some upload.content
  key : env.fileKey = upload.fileKey

section Put

variable {ssl : OpenSsl} {cmd : PutCommand ssl} {events : List (Event (Reported Call.Reply Output))}

def PutCommand.process (cmd : PutCommand ssl) : ReportingProg Output Int :=
  main ssl cmd.env cmd.prog (putMode :: cmd.list :: cmd.filePath :: cmd.args)

theorem PutCommand.process_eq (cmd : PutCommand ssl) : cmd.process =
    Prog.front Exc.caught (cmd.upload.putFileOn (progressText (str "PUT"))) putSaid exitCode := by
  unfold process main run
  simp only [putMode, ↓reduceIte, put, cmd.config, Prog.ofExcept_ok_bind, cmd.path, cmd.file,
    cmd.key]
  rfl

/-! The lines are told apart by how they begin. -/

def firstByte : Output → Option UInt8
  | .out text => text.head?
  | .err text => text.head?

theorem first_share (result : PutFileResult) : firstByte (shareText result) = some 68 := by
  have hfirst : (str "DONE. Share ID: ").head? = some 68 := by decide
  simp only [shareText, firstByte, List.head?_append, hfirst, Option.some_or]

theorem first_manifest (result : PutFileResult) : firstByte (manifestText result) = some 76 := by
  have hfirst : (str "Local manifest: ").head? = some 76 := by decide
  simp only [manifestText, firstByte, List.head?_append, hfirst, Option.some_or]

theorem first_progress (mode : Bytes) (p : Progress) :
    firstByte (progressText mode p) = some 91 := by
  have hfirst : (str "[").head? = some 91 := by decide
  simp only [progressText, firstByte, List.head?_append, hfirst, Option.some_or]

theorem share_notMem_progress (total k : Nat) (message : Bytes) (result : PutFileResult) :
    shareText result ∉ progressTo (progressText (str "PUT")) total message k := by
  intro hmem
  obtain ⟨i, -, hline⟩ := List.mem_map.mp hmem
  have hfirst := congrArg firstByte hline
  rw [first_share, first_progress] at hfirst
  cases hfirst

theorem share_mem_said {r : Except Exc PutFileResult} {result : PutFileResult}
    (hmem : shareText result ∈ putSaid r) :
    ∃ result', r = .ok result' ∧ result'.shareUri = result.shareUri := by
  cases r with
  | error e => simp [putSaid, shareText, errorText] at hmem
  | ok result' =>
      simp only [putSaid, List.mem_cons, List.not_mem_nil, or_false] at hmem
      rcases hmem with hshare | hmanifest
      · simp only [shareText, Output.out.injEq, List.append_cancel_right_eq,
          List.append_cancel_left_eq] at hshare
        exact ⟨result', rfl, hshare.symm⟩
      · have hfirst := congrArg firstByte hmanifest
        rw [first_share, first_manifest] at hfirst
        cases hfirst

theorem share_notMem_told {upload : Upload ssl} {lines : List Output}
    (htold : ToldLines upload (progressText (str "PUT")) events lines) (result : PutFileResult) :
    shareText result ∉ lines := by
  rcases htold with rfl | ⟨plan, k, -, -, rfl, -⟩
  · exact List.not_mem_nil
  · exact share_notMem_progress _ _ _ result

/-- A share id on the screen. -/
theorem put_of_share {rest : ReportingProg Output Int} (hreaches : cmd.process.Reaches events rest)
    {result : PutFileResult} (hmem : shareText result ∈ reports events) :
    ∃ past result' later, (cmd.upload.putFileOn (progressText (str "PUT"))).Reaches past
        (.pure result') ∧ result'.shareUri = result.shareUri ∧ calls events = calls past ∧
      rest = Prog.speak later (.ok 0) := by
  rw [PutCommand.process_eq] at hreaches
  rcases hreaches.of_front with ⟨c, next, hinner, -⟩ |
    ⟨r, past, later, hinner, hcalls, hsaid, hrest⟩
  · exact absurd hmem (share_notMem_told (toldLines_of_reporting (reporting_of_reaches hinner) rfl)
      result)
  · have hmem' : shareText result ∈ reports past ++ Prog.told Exc.caught putSaid r :=
      hsaid ▸ List.mem_append_left later hmem
    rcases List.mem_append.mp hmem' with hpast | hr
    · exact absurd hpast (share_notMem_told
        (toldLines_of_reporting (reporting_of_reaches hinner) hcalls) result)
    · obtain ⟨result', rfl, huri⟩ := share_mem_said (Prog.mem_of_mem_told hr)
      exact ⟨past, result', later, hinner, huri, hcalls, hrest⟩

end Put

/-! ### Get -/

def getSaid (outPath : Bytes) : Except Exc Unit → List Output
  | .ok _ => [completeText outPath]
  | .error e => [errorText e]

def getMode : PeerList := ⟨str "get", by decide⟩

/-- A `get` whose arguments are understood. -/
structure GetCommand where
  env : Environment
  prog : Bytes
  list : PeerList
  manifestPath : PeerList
  outPath : PeerList
  args : List PeerList
  cfg : ClientConfig
  config : getConfig list (args.map PeerList.text) = .ok cfg

section Get

variable {ssl : OpenSsl} {cmd : GetCommand} {events : List (Event (Reported Call.Reply Output))}

def GetCommand.process (ssl : OpenSsl) (cmd : GetCommand) : ReportingProg Output Int :=
  main ssl cmd.env cmd.prog (getMode :: cmd.list :: cmd.manifestPath :: cmd.outPath :: cmd.args)

theorem GetCommand.process_eq (ssl : OpenSsl) (cmd : GetCommand) : cmd.process ssl =
    Prog.front Exc.caught (getFileOn ssl (progressText (str "GET")) cmd.cfg cmd.manifestPath.text
      cmd.outPath.text) (getSaid cmd.outPath.text) exitCode := by
  have hmode : str "get" ≠ str "put" := by decide
  unfold process main run
  simp only [getMode, hmode, ↓reduceIte, get, cmd.config, Prog.ofExcept_ok_bind]
  rfl

/-- A `get` that ends with 0 has shown every chunk of a manifest with the right hash, and they are
in the output file. -/
theorem get_returned (hpeers : cmd.cfg.peers ≠ [])
    (hreaches : (cmd.process ssl).Reaches events (.pure 0)) :
    ∃ manifest enc, Underway ssl cmd.cfg cmd.manifestPath.text (calls events) manifest enc ∧
      (writes (calls events)).length = manifest.chunks.length ∧
      reports events = progressTo (progressText (str "GET")) manifest.chunks.length
        (str "Downloading chunks") manifest.chunks.length ++ [completeText cmd.outPath.text] := by
  rw [GetCommand.process_eq] at hreaches
  rcases download_told hpeers hreaches with ⟨manifest, enc, underway, hlength, -, -, hlines⟩ |
    ⟨lines, e, -, -, hcode, -⟩
  · exact ⟨manifest, enc, underway, hlength, hlines⟩
  · cases hcode

end Get

/-! ### Put and get -/

section Together

open Peers

variable {ssl : OpenSsl} {dirs : PeerEndpoint → Path} {disks : PeerEndpoint → FileSystem}
  {orders : Peers → PeerEndpoint → Bytes → Orders} {refused : Exc} {segments : Cluster.Segments}
  {ι : Type} [DecidableEq ι]

/-- What the command line does with the result of a program. -/
def exits {α : Type} : Except Exc α → Except Exc Int := Prog.outcome Exc.caught exitCode

theorem returned_of_exits {α : Type} {p : ClientProg α} (h : p.ending exits = .pure 0) :
    ∃ a, p = .pure a := by
  cases p with
  | pure a => exact ⟨a, rfl⟩
  | throw e =>
      change Prog.ofExcept (exits (.error e)) = _ at h
      cases hexits : exits (.error e : Except Exc α) with
      | ok code =>
          obtain rfl : exitCode (.error e : Except Exc α) = code := Prog.outcome_eq_ok hexits
          rw [hexits] at h
          cases h
      | error e' =>
          rw [hexits] at h
          cases h
  | call c next => cases h

theorem PutCommand.process_shown (cmd : PutCommand ssl) :
    cmd.upload.putFile.ending exits = cmd.process.muted := by
  rw [PutCommand.process_eq, Prog.muted_front, Upload.putFileOn, muted_putFileOn]
  rfl

theorem GetCommand.process_shown (cmd : GetCommand) :
    (getFile ssl cmd.cfg cmd.manifestPath.text cmd.outPath.text).ending exits =
      (cmd.process ssl).muted := by
  rw [GetCommand.process_eq, Prog.muted_front, muted_getFileOn]
  rfl

end Together

/-! ### A run -/

section Run

open Peers

def spareList : PeerList := ⟨str "10.0.0.1:9000,10.0.0.2:9000", by decide⟩

def spareEnvironment : Environment where
  manifestDir := none
  files := fun path => if path = str "/home/note" then some (str "hi!") else none
  fileKey := noteKey

def sparePut : PutCommand spareSsl where
  env := spareEnvironment
  prog := str "client"
  list := spareList
  filePath := ⟨str "/home/note", by decide⟩
  args := [⟨str "2", by decide⟩]
  upload := spareUpload
  config := rfl
  path := rfl
  file := by decide
  key := rfl

/-- The share id on the screen is given to `get`. -/
def spareGet : GetCommand where
  env := spareEnvironment
  prog := str "client"
  list := spareList
  manifestPath := ⟨notePlan.shareUri spareSsl, by decide +kernel⟩
  outPath := ⟨str "out", by decide⟩
  args := []
  cfg := { peers := notePeers, chunkSize := 1024 * 1024, desiredReplicas := 2
           peers_fit := noteConfig.peers_fit }
  config := rfl

def spareEvents : List (Event (Reported Call.Reply Output)) :=
  sparePut.process.transcript (Prog.heard (worldHandle plainNetwork)) (spareStart.shared, {})

theorem sparePut_exits :
    (sparePut.process.run (Prog.heard (worldHandle plainNetwork)) (spareStart.shared, {})).1 =
      .ok 0 := by
  have hreturns : (spareUpload.putFile.run (worldHandle plainNetwork)
      (spareStart.shared, {})).1 = .ok _ := spareRun_returns
  have hmuted : sparePut.process.muted = spareUpload.putFile.ending exits :=
    sparePut.process_shown.symm
  rw [Prog.run_heard, hmuted, Prog.run_ending, hreturns]
  rfl

/-- One of two `put` commands runs to its end, and then a peer is restarted. -/
def screenStart : Pool (Reported Call.Reply Output) Exc Int Peers (LocalDisk × List Output) Bool :=
  ⟨start (fun _ => default) (fun _ => str "/peer") (fun _ => 100) fun _ => bareDisk,
    fun _ => (sparePut.process, {}, [])⟩

def screenRun : Except Exc Int × Peers × LocalDisk × List Output :=
  (screenStart.procs true).1.run (logged (worldHandle plainNetwork))
    (screenStart.shared, (screenStart.procs true).2)

def screenPool : Pool (Reported Call.Reply Output) Exc Int Peers (LocalDisk × List Output) Bool :=
  { shared := screenRun.2.1.restart ⟨str "10.0.0.2", 9000⟩ default 50
    procs := Function.update screenStart.procs true (Prog.ofExcept screenRun.1, screenRun.2.2) }

theorem screenRun_allowed :
    (screenStart.procs true).1.Allowed (logged (worldHandle plainNetwork)) (loggedAllowed Proper)
      (screenStart.shared, (screenStart.procs true).2) := by
  refine Prog.allowed_logged ?_ []
  have hallowed : (sparePut.process.muted).Allowed (worldHandle plainNetwork) Proper
      (spareStart.shared, {}) := by
    rw [← sparePut.process_shown]
    exact Prog.allowed_ending spareRun_allowed
  exact hallowed

theorem screenRun_shared : screenRun.2.1 = spareRun.2.1 := by
  obtain ⟨screen, hrun⟩ := Prog.run_logged (worldHandle plainNetwork) sparePut.process
    spareStart.shared {} []
  have hinner : sparePut.upload.putFile.run (worldHandle plainNetwork) (spareStart.shared, {}) =
      spareRun := rfl
  rw [← sparePut.process_shown, Prog.run_ending, hinner] at hrun
  have hscreen : screenRun =
      sparePut.process.run (logged (worldHandle plainNetwork)) (spareStart.shared, {}, []) := rfl
  rw [hscreen, hrun]

theorem screenRun_limited :
    (screenRun.2.1 ⟨str "10.0.0.2", 9000⟩).store.sm.maxBytes ≠ 0 := by
  rw [screenRun_shared]
  exact spareRun_limited

theorem screenPool_turns : Pool.Turns (logged (worldHandle plainNetwork)) (loggedAllowed Proper)
    Restarts screenStart screenPool := by
  have hrestarts : Restarts screenRun.2.1
      (screenRun.2.1.restart ⟨str "10.0.0.2", 9000⟩ default 50) :=
    ⟨⟨str "10.0.0.2", 9000⟩, default, 50, screenRun_limited, rfl⟩
  have hput : Pool.Turns (logged (worldHandle plainNetwork)) (loggedAllowed Proper) Restarts
      screenStart ⟨screenRun.2.1, Function.update screenStart.procs true
        (Prog.ofExcept screenRun.1, screenRun.2.2)⟩ := by
    unfold screenRun
    exact Pool.turns_run screenStart true screenRun_allowed
  exact hput.tail (.silent hrestarts)

theorem screenRun_shows : shareText ⟨notePlan.shareUri spareSsl, []⟩ ∈ screenRun.2.2.2 := by
  decide +kernel

theorem screenPool_shows : shareText ⟨notePlan.shareUri spareSsl, []⟩ ∈
    (screenPool.procs true).2.2 := by
  simp only [screenPool, Function.update_self]
  exact screenRun_shows

/-- What comes of `get`, and what it shows. -/
def spareScreen : Except Exc Int × Peers × LocalDisk × List Output :=
  (spareGet.process spareSsl).run (logged (worldHandle plainNetwork)) (screenPool.shared, {}, [])

theorem spareScreen_among : (spareGet.process spareSsl).Among (logged (worldHandle plainNetwork))
    (Pool.Others (Relation.ReflTransGen (Meanwhile spareSsl (fun _ _ _ => default)
      (.runtimeError []) {}))) (screenPool.shared, {}, []) spareScreen.1 spareScreen.2 :=
  Prog.among_run (fun _ => ⟨Relation.ReflTransGen.refl, rfl⟩) _ _

end Run

end CommandLine

end DecentStore
