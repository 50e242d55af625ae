import DecentStore.Lib.Surroundings
import DecentStore.Basic

/-!
# The embedded peer

The main window owns a peer service whose loop runs in a thread of its own. The owner makes,
starts, stops and destroys the service; between any two of its accesses the loop goes on, ends or
throws. Assigning to a thread that is joinable, and destroying one, ends the process.
-/

namespace DecentStore

open Bytes Interaction

/-- How far the function of the worker thread has come. -/
inductive LoopPhase where
  | serving
  | unwinding
  | leaving
  | ended
  deriving DecidableEq, Repr

namespace EmbeddedPeer

/-- `listenFd` is kept as whether it is open, and `worker` is `none` when it is not joinable. -/
structure PeerService where
  running : Bool := false
  listenFd : Bool := false
  worker : Option LoopPhase := none
  deriving DecidableEq, Repr

/-- What has called `std::terminate`. -/
inductive Termination where
  | workerAssigned
  | workerDestroyed
  deriving DecidableEq, Repr

structure MainWindow where
  embeddedPeerService : Option PeerService := none
  terminated : Option Termination := none
  deriving DecidableEq, Repr

inductive StartError where
  | noMemory
  | noThread
  deriving DecidableEq, Repr

/-! ### The loop -/

/-- The steps of the loop. The source leaves the loop when it finds `running_` cleared; here it may
leave at any time. -/
inductive RunLoop : PeerService → PeerService → Prop where
  | listens {service : PeerService} (hphase : service.worker = some .serving) :
      RunLoop service { service with listenFd := true }
  /-- `socket`, `bind` or `listen` failed. -/
  | refused {service : PeerService} (hphase : service.worker = some .serving) :
      RunLoop service { running := false, listenFd := false, worker := some .unwinding }
  | throws {service : PeerService} (hphase : service.worker = some .serving) :
      RunLoop service { service with worker := some .unwinding }
  | caught {service : PeerService} (hphase : service.worker = some .unwinding) :
      RunLoop service { service with running := false, worker := some .ended }
  | leaves {service : PeerService} (hphase : service.worker = some .serving) :
      RunLoop service { service with worker := some .leaving }
  | closes {service : PeerService} (hphase : service.worker = some .leaving) :
      RunLoop service { running := false, listenFd := false, worker := some .ended }

/-! ### The owner's accesses -/

inductive Access where
  | hasService
  | makeService
  | reset
  | loadRunning
  | storeRunning (value : Bool)
  | spawnWorker
  | closeListener
  | joinable
  | join

@[reducible]
def Access.Reply : Access → Type
  | .hasService | .loadRunning | .joinable => Bool
  | .makeService | .spawnWorker => Except StartError Unit
  | .reset | .storeRunning _ | .closeListener | .join => Unit

namespace MainWindow

def setService (window : MainWindow) (service : PeerService) : MainWindow :=
  { window with embeddedPeerService := some service }

/-- The service that was there is destroyed. -/
def replaceService (window : MainWindow) (service : Option PeerService) : MainWindow :=
  if window.embeddedPeerService.any fun old => old.worker.isSome then
    { window with terminated := some .workerDestroyed }
  else { window with embeddedPeerService := service }

/-- A thread that was made is assigned. -/
def assignWorker (window : MainWindow) (service : PeerService) : MainWindow :=
  if service.worker.isSome then { window with terminated := some .workerAssigned }
  else window.setService { service with worker := some .serving }

/-- What an access answers and does. Making a service or a thread can fail; `join` waits until the
loop has ended. -/
def Answers : (access : Access) → MainWindow → access.Reply → MainWindow → Prop
  | .hasService, window, reply, window' =>
      reply = window.embeddedPeerService.isSome ∧ window' = window
  | .makeService, window, reply, window' =>
      (reply = .ok () ∧ window' = window.replaceService (some {})) ∨
        (reply = .error .noMemory ∧ window' = window)
  | .reset, window, _, window' => window' = window.replaceService none
  | .loadRunning, window, reply, window' => ∃ service,
      window.embeddedPeerService = some service ∧ reply = service.running ∧ window' = window
  | .storeRunning value, window, _, window' => ∃ service,
      window.embeddedPeerService = some service ∧
        window' = window.setService { service with running := value }
  | .spawnWorker, window, reply, window' => ∃ service,
      window.embeddedPeerService = some service ∧
        ((reply = .ok () ∧ window' = window.assignWorker service) ∨
          (reply = .error .noThread ∧ window' = window))
  | .closeListener, window, _, window' => ∃ service,
      window.embeddedPeerService = some service ∧
        window' = window.setService { service with listenFd := false }
  | .joinable, window, reply, window' => ∃ service,
      window.embeddedPeerService = some service ∧ reply = service.worker.isSome ∧
        window' = window
  | .join, window, _, window' => ∃ service,
      window.embeddedPeerService = some service ∧ service.worker = some .ended ∧
        window' = window.setService { service with worker := none }

/-- A process that was terminated does nothing more. -/
def surroundings : Surroundings Access.Reply MainWindow where
  answers := fun access window reply window' =>
    window.terminated = none ∧ Answers access window reply window'
  moves := fun window window' => ∃ service service',
    window.embeddedPeerService = some service ∧ RunLoop service service' ∧
      window' = window.setService service'

end MainWindow

/-! ### The owner -/

abbrev Owner := Prog Access.Reply StartError

def isRunning : Owner Bool := Prog.ask Access.loadRunning

def start : Owner Unit := do
  if ← Prog.ask Access.loadRunning then return
  Prog.ask (Access.storeRunning true)
  Prog.ofExcept (← Prog.ask Access.spawnWorker)

def stop : Owner Unit := do
  if !(← Prog.ask Access.loadRunning) then return
  Prog.ask (Access.storeRunning false)
  Prog.ask Access.closeListener
  if ← Prog.ask Access.joinable then
    Prog.ask Access.join

structure PeerSettings where
  peerEnabled : Bool
  peerStorageDir : Bytes
  deriving DecidableEq, Repr

/-- There is a service and it says that it runs. -/
def hasRunning : Owner Bool := do
  if ← Prog.ask Access.hasService then isRunning else return false

def startEmbeddedPeerIfEnabled (settings : PeerSettings) : Owner Unit := do
  if !settings.peerEnabled then return
  if ← hasRunning then return
  if settings.peerStorageDir.isEmpty then return
  tryCatch (do
    Prog.ofExcept (← Prog.ask Access.makeService)
    start) fun _ => Prog.ask Access.reset

def stopEmbeddedPeer : Owner Unit := do
  if !(← Prog.ask Access.hasService) then return
  stop
  Prog.ask Access.reset

/-- What the user does, with what the window's checks find in the fields. -/
inductive Click where
  | applySettings (manifestDirMade : Bool) (fields : PeerSettings)
  | applyNetworkSettings (advertiseIpGiven : Bool)

def restart (settings : PeerSettings) : Owner Unit := do
  if ← hasRunning then stopEmbeddedPeer
  startEmbeddedPeerIfEnabled settings

def onApplySettingsClicked (manifestDirMade : Bool) (fields settings : PeerSettings) :
    Owner PeerSettings := do
  if !manifestDirMade || fields.peerStorageDir.isEmpty then return settings
  restart fields
  return fields

def onApplyNetworkSettingsClicked (advertiseIpGiven : Bool) (settings : PeerSettings) :
    Owner PeerSettings := do
  if !advertiseIpGiven then return settings
  restart settings
  return settings

def Click.run : Click → PeerSettings → Owner PeerSettings
  | .applySettings manifestDirMade fields, settings =>
      onApplySettingsClicked manifestDirMade fields settings
  | .applyNetworkSettings advertiseIpGiven, settings =>
      onApplyNetworkSettingsClicked advertiseIpGiven settings

def clicked : List Click → PeerSettings → Owner PeerSettings
  | [], settings => return settings
  | click :: rest, settings => do clicked rest (← click.run settings)

/-- The constructor, the clicks and the destructor; the members are destroyed last. -/
def life (settings : PeerSettings) (clicks : List Click) : Owner Unit := do
  startEmbeddedPeerIfEnabled settings
  let _ ← clicked clicks settings
  stopEmbeddedPeer
  Prog.ask Access.reset

end EmbeddedPeer

end DecentStore
