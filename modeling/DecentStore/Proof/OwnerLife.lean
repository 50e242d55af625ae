import DecentStore.EmbeddedPeer

/-!
# The life of the embedded peer

The owner takes a cleared flag to mean that there is nothing to join. The loop clears the flag when
it ends, and joins nothing. As long as no test of the flag meets a loop that ended by itself, every
service is replaced and destroyed with no joinable thread, in every run; without that condition only
the assignment in `start` is safe, because `start` is called on a new service only.
-/

namespace DecentStore.EmbeddedPeer

open Bytes Interaction

/-- A test of the flag does not find it cleared over a thread that is still to be joined. -/
def FlagSound : Access → MainWindow → Prop
  | .loadRunning, window => ∀ service, window.embeddedPeerService = some service →
      service.running = false → service.worker = none
  | _, _ => True

/-- There is no thread to join. -/
def Idle (window : MainWindow) : Prop :=
  ∀ service, window.embeddedPeerService = some service → service.worker = none

/-- `tested` says whether the tests of the run meet the condition. -/
def Unharmed (tested : Prop) (window : MainWindow) : Prop :=
  window.terminated ≠ some .workerAssigned ∧ (tested → window.terminated = none)

def circumstances (tested : Prop) : Surroundings Access.Reply MainWindow :=
  MainWindow.surroundings.provided fun access window => tested → FlagSound access window

theorem unharmed_setService {tested : Prop} {window : MainWindow}
    (hsafe : Unharmed tested window) (service : PeerService) :
    Unharmed tested (window.setService service) := hsafe

theorem idle_of_service {window : MainWindow} {service : PeerService}
    (hservice : window.embeddedPeerService = some service) (hnone : service.worker = none) :
    Idle window := by
  intro service' hservice'
  obtain rfl : service = service' := Option.some.inj (hservice.symm.trans hservice')
  exact hnone

theorem idle_setService (window : MainWindow) {service : PeerService}
    (hnone : service.worker = none) : Idle (window.setService service) :=
  idle_of_service rfl hnone

theorem RunLoop.joinable {service service' : PeerService} (hstep : RunLoop service service') :
    service.worker ≠ none ∧ service'.worker ≠ none := by
  cases hstep <;> simp_all

variable {tested : Prop} {window window' : MainWindow}

theorem moved_terminated (hmoved : (circumstances tested).Moved window window') :
    window'.terminated = window.terminated := by
  apply hmoved.keeps fun w => w.terminated = window.terminated
  · rintro w w' ⟨service, service', hservice, hstep, rfl⟩ hw
    exact hw
  · rfl

theorem moved_idle (hmoved : (circumstances tested).Moved window window') (hidle : Idle window) :
    Idle window' := by
  apply hmoved.keeps Idle _ hidle
  rintro w w' ⟨service, service', hservice, hstep, rfl⟩ hw
  exact absurd (hw service hservice) hstep.joinable.1

theorem moved_unharmed (hmoved : (circumstances tested).Moved window window')
    (hsafe : Unharmed tested window) : Unharmed tested window' := by
  rw [Unharmed, moved_terminated hmoved]
  exact hsafe

variable {α : Type} {post : Except StartError α → MainWindow → Prop}

abbrev Safe (tested : Prop) (post : Except StartError α → MainWindow → Prop) (p : Owner α)
    (window : MainWindow) : Prop :=
  p.Safe (circumstances tested) (Unharmed tested) post window

theorem safe_access {access : Access} {f : access.Reply → Owner α} (pre : MainWindow → Prop)
    (hstable : ∀ w w', (circumstances tested).Moved w w' → pre w → pre w')
    (hsafe : Unharmed tested window) (hpre : pre window)
    (hcall : ∀ w reply w', Unharmed tested w → pre w → w.terminated = none →
      (tested → FlagSound access w) → MainWindow.Answers access w reply w' →
      Safe tested post (f reply) w') :
    Safe tested post (Prog.ask access >>= f) window := by
  apply Prog.safe_ask_bind
  intro w hmoved
  have hw := moved_unharmed hmoved hsafe
  refine ⟨hw, ?_⟩
  rintro reply w' ⟨hsound, hrunning, hanswer⟩
  exact hcall w reply w' hw (hstable _ _ hmoved hpre) hrunning hsound hanswer

theorem safe_any {access : Access} {f : access.Reply → Owner α} (hsafe : Unharmed tested window)
    (hcall : ∀ w reply w', Unharmed tested w → (tested → FlagSound access w) →
      MainWindow.Answers access w reply w' → Safe tested post (f reply) w') :
    Safe tested post (Prog.ask access >>= f) window :=
  safe_access (fun _ => True) (fun _ _ _ _ => trivial) hsafe trivial
    fun w reply w' hw _ _ hsound hanswer => hcall w reply w' hw hsound hanswer

/-- A part of the owner's program that promises nothing about its result. -/
abbrev Careful (tested : Prop) (p : Owner α) (window : MainWindow) : Prop :=
  Safe tested (fun _ _ => True) p window

theorem careful_pure (hsafe : Unharmed tested window) (a : α) :
    Careful tested (pure a) window :=
  Prog.safe_pure fun _ hmoved => ⟨moved_unharmed hmoved hsafe, trivial⟩

/-- A new service has no thread, so `start` assigns to none. When it throws, there is still none. -/
theorem start_safe (hsafe : Unharmed tested window)
    (hnew : window.terminated = none → Idle window) :
    Safe tested (fun result w => ∀ e, result = .error e → Idle w) start window := by
  have hstable : ∀ w w', (circumstances tested).Moved w w' →
      (w.terminated = none → Idle w) → w'.terminated = none → Idle w' := by
    intro w w' hmoved hw hrunning
    rw [moved_terminated hmoved] at hrunning
    exact moved_idle hmoved (hw hrunning)
  apply safe_access _ hstable hsafe hnew
  rintro w reply w' hw hidle hrunning - ⟨service, hservice, rfl, rfl⟩
  split
  · exact Prog.safe_pure fun _ hmoved => ⟨moved_unharmed hmoved hw, by simp⟩
  · apply safe_access _ hstable hw hidle
    rintro w reply w' hw hidle hrunning - ⟨service, hservice, rfl⟩
    have hstarted : Idle (w.setService { service with running := true }) :=
      idle_setService w (hidle hrunning service hservice)
    apply safe_access _ hstable (unharmed_setService hw { service with running := true })
      fun _ => hstarted
    rintro w reply w' hw hidle hrunning - ⟨service, hservice, hspawned | hfailed⟩
    · obtain ⟨rfl, rfl⟩ := hspawned
      have hassigned : Unharmed tested (w.assignWorker service) := by
        rw [MainWindow.assignWorker, if_neg (by simp [hidle hrunning service hservice])]
        exact unharmed_setService hw _
      exact Prog.safe_pure fun _ hmoved => ⟨moved_unharmed hmoved hassigned, by simp⟩
    · obtain ⟨rfl, rfl⟩ := hfailed
      apply Prog.safe_throw
      intro w' hmoved
      exact ⟨moved_unharmed hmoved hw, fun _ _ => moved_idle hmoved (hidle hrunning)⟩

/-- What the owner knows of a service that does not say that it runs. -/
def Cleared (tested : Prop) (result : Except StartError Bool) (window : MainWindow) : Prop :=
  result = .ok false → tested → Idle window

theorem moved_cleared {result : Except StartError Bool}
    (hmoved : (circumstances tested).Moved window window')
    (hcleared : Cleared tested result window) : Cleared tested result window' :=
  fun hresult htested => moved_idle hmoved (hcleared hresult htested)

theorem isRunning_safe (hsafe : Unharmed tested window) :
    Safe tested (Cleared tested) isRunning window := by
  apply safe_any hsafe
  rintro w reply w' hw hsound ⟨service, hservice, rfl, rfl⟩
  apply Prog.safe_pure
  intro w' hmoved
  refine ⟨moved_unharmed hmoved hw, moved_cleared hmoved ?_⟩
  intro hresult htested
  exact idle_of_service hservice (hsound htested service hservice (by simpa using hresult))

theorem hasRunning_safe (hsafe : Unharmed tested window) :
    Safe tested (Cleared tested) hasRunning window := by
  apply safe_any hsafe
  rintro w reply w' hw - ⟨rfl, rfl⟩
  split
  · exact isRunning_safe hw
  · rename_i hnone
    apply Prog.safe_pure
    intro w' hmoved
    refine ⟨moved_unharmed hmoved hw, moved_cleared hmoved ?_⟩
    intro _ _ service hservice
    simp [hservice] at hnone

theorem unharmed_replaceService (hsafe : Unharmed tested window)
    (hidle : tested → Idle window) (service : Option PeerService) :
    Unharmed tested (window.replaceService service) := by
  unfold MainWindow.replaceService
  split
  · rename_i hjoinable
    refine ⟨by simp, ?_⟩
    intro htested
    rw [Option.any_eq_true] at hjoinable
    obtain ⟨old, hold, hsome⟩ := hjoinable
    simp [hidle htested old hold] at hsome
  · exact hsafe

theorem idle_replaceService_none (hidle : Idle window) : Idle (window.replaceService none) := by
  unfold MainWindow.replaceService
  split
  · exact hidle
  · intro service hservice
    cases hservice

theorem reset_safe (hsafe : Unharmed tested window) (hidle : tested → Idle window) :
    Safe tested (fun _ w => tested → Idle w) (Prog.ask Access.reset) window := by
  apply safe_access (f := pure) (fun w => tested → Idle w)
    (fun _ _ hmoved hw htested => moved_idle hmoved (hw htested)) hsafe hidle
  rintro w _ w' hw hidle - - rfl
  apply Prog.safe_pure
  intro w' hmoved
  refine ⟨moved_unharmed hmoved (unharmed_replaceService hw hidle none), ?_⟩
  exact fun htested => moved_idle hmoved (idle_replaceService_none (hidle htested))

/-- After `stop` there is nothing to join: the flag was set and the thread was joined, or the flag
was cleared, and then the condition says so. -/
theorem stop_safe (hsafe : Unharmed tested window) :
    Safe tested (fun result w => result = .ok () → tested → Idle w) stop window := by
  have hdone : ∀ w, Unharmed tested w → (tested → Idle w) →
      Safe tested (fun result w => result = .ok () → tested → Idle w)
        (pure ()) w := by
    intro w hw hidle
    exact Prog.safe_pure fun _ hmoved =>
      ⟨moved_unharmed hmoved hw, fun _ htested => moved_idle hmoved (hidle htested)⟩
  apply safe_any hsafe
  rintro w reply w' hw hsound ⟨service, hservice, rfl, rfl⟩
  split
  · rename_i hcleared
    apply hdone _ hw
    intro htested
    exact idle_of_service hservice (hsound htested service hservice (by simpa using hcleared))
  apply safe_any hw
  rintro w reply w' hw - ⟨service, hservice, rfl⟩
  apply safe_any (unharmed_setService hw _)
  rintro w reply w' hw - ⟨service, hservice, rfl⟩
  apply safe_any (unharmed_setService hw _)
  rintro w reply w' hw - ⟨service, hservice, rfl, rfl⟩
  split
  · apply safe_any (f := pure) hw
    rintro w reply w' hw - ⟨service, hservice, hended, rfl⟩
    exact hdone _ (unharmed_setService hw _) fun _ => idle_setService w rfl
  · rename_i hunjoinable
    apply hdone _ hw
    exact fun _ => idle_of_service hservice (by simpa using hunjoinable)

theorem stopEmbeddedPeer_safe (hsafe : Unharmed tested window) :
    Safe tested (fun result w => result = .ok () → tested → Idle w) stopEmbeddedPeer window := by
  apply safe_any hsafe
  rintro w reply w' hw - ⟨rfl, rfl⟩
  split
  · rename_i hnone
    have hidle : Idle w' := by
      intro service hservice
      simp [hservice] at hnone
    exact Prog.safe_pure fun _ hmoved =>
      ⟨moved_unharmed hmoved hw, fun _ _ => moved_idle hmoved hidle⟩
  · apply Prog.safe_bind (stop_safe hw)
    · intro a w hw hidle
      apply Prog.safe_mono _ (reset_safe hw (hidle rfl))
      exact fun _ _ hreset _ => hreset
    · intro e w _ herror
      cases herror

/-- A service is made where there is nothing to join, and what was made is started or destroyed. -/
theorem startEmbeddedPeerIfEnabled_careful (hsafe : Unharmed tested window)
    (settings : PeerSettings) :
    Careful tested (startEmbeddedPeerIfEnabled settings) window := by
  unfold startEmbeddedPeerIfEnabled
  split
  · exact careful_pure hsafe ()
  apply Prog.safe_bind (hasRunning_safe hsafe)
  · intro running w hw hcleared
    split
    · exact careful_pure hw ()
    rename_i hstopped
    have hidle : tested → Idle w := hcleared (by simpa using hstopped)
    split
    · exact careful_pure hw ()
    apply Prog.safe_tryCatch fun result w => ∀ e, result = .error e → tested → Idle w
    · apply safe_access (fun w => tested → Idle w)
        (fun _ _ hmoved hw htested => moved_idle hmoved (hw htested)) hw hidle
      rintro w reply w' hw hidle - - (⟨rfl, rfl⟩ | ⟨rfl, rfl⟩)
      · have hnew := unharmed_replaceService hw hidle (some {})
        apply Prog.safe_mono _ (start_safe hnew _)
        · exact fun _ _ hfailed e he _ => hfailed e he
        · unfold MainWindow.replaceService
          split
          · exact fun hrunning => by simp at hrunning
          · exact fun _ => idle_of_service rfl rfl
      · apply Prog.safe_throw
        exact fun _ hmoved => ⟨moved_unharmed hmoved hw,
          fun _ _ htested => moved_idle hmoved (hidle htested)⟩
    · exact fun _ _ _ => trivial
    · intro e w hw hidle
      exact Prog.safe_mono (fun _ _ _ => trivial) (reset_safe hw (hidle e rfl))
  · exact fun _ _ _ => trivial

theorem careful_bind {β : Type} {p : Owner α} {f : α → Owner β} (hp : Careful tested p window)
    (hf : ∀ a w, Unharmed tested w → Careful tested (f a) w) : Careful tested (p >>= f) window :=
  Prog.safe_bind hp (fun a w hw _ => hf a w hw) fun _ _ _ => trivial

theorem restart_careful (hsafe : Unharmed tested window) (settings : PeerSettings) :
    Careful tested (restart settings) window := by
  apply Prog.safe_bind (hasRunning_safe hsafe)
  · intro running w hw _
    split
    · apply careful_bind (Prog.safe_mono (fun _ _ _ => trivial) (stopEmbeddedPeer_safe hw))
      exact fun _ w hw => startEmbeddedPeerIfEnabled_careful hw settings
    · exact startEmbeddedPeerIfEnabled_careful hw settings
  · exact fun _ _ _ => trivial

theorem click_careful (hsafe : Unharmed tested window) (click : Click) (settings : PeerSettings) :
    Careful tested (click.run settings) window := by
  cases click with
  | applySettings manifestDirMade fields =>
      simp only [Click.run, onApplySettingsClicked]
      split
      · exact careful_pure hsafe settings
      · exact careful_bind (restart_careful hsafe fields) fun _ _ hw => careful_pure hw fields
  | applyNetworkSettings advertiseIpGiven =>
      simp only [Click.run, onApplyNetworkSettingsClicked]
      split
      · exact careful_pure hsafe settings
      · exact careful_bind (restart_careful hsafe settings) fun _ _ hw => careful_pure hw settings

theorem clicked_careful (hsafe : Unharmed tested window) (clicks : List Click)
    (settings : PeerSettings) : Careful tested (clicked clicks settings) window := by
  induction clicks generalizing window settings with
  | nil => exact careful_pure hsafe settings
  | cons click rest ih =>
      exact careful_bind (click_careful hsafe click settings) fun settings w hw => ih hw settings

theorem life_careful (hsafe : Unharmed tested window) (settings : PeerSettings)
    (clicks : List Click) : Careful tested (life settings clicks) window := by
  apply careful_bind (startEmbeddedPeerIfEnabled_careful hsafe settings)
  intro _ w hw
  apply careful_bind (clicked_careful hw clicks settings)
  intro _ w hw
  apply Prog.safe_bind (stopEmbeddedPeer_safe hw)
  · intro _ w hw hidle
    exact Prog.safe_mono (fun _ _ _ => trivial) (reset_safe hw (hidle rfl))
  · exact fun _ _ _ => trivial

theorem unharmed_new (tested : Prop) : Unharmed tested {} := ⟨by simp, fun _ => rfl⟩

/-- `start` never assigns to a joinable thread, in any run. In every run whose tests of the flag
meet the condition, nothing calls `std::terminate`. -/
theorem life_unterminated (settings : PeerSettings) (clicks : List Click) :
    (∀ p window, MainWindow.surroundings.Reaches (life settings clicks, {}) (p, window) →
      window.terminated ≠ some .workerAssigned) ∧
    (∀ p window,
      (MainWindow.surroundings.provided FlagSound).Reaches (life settings clicks, {})
        (p, window) →
      window.terminated = none) := by
  constructor
  · intro p window hreach
    have hrun : (circumstances False).Reaches (life settings clicks, {}) (p, window) := by
      apply Surroundings.Reaches.mono _ _ hreach
      · exact fun _ _ _ _ hanswer => ⟨False.elim, hanswer⟩
      · exact fun _ _ hmove => hmove
    exact (Prog.good_of_safe
      (Prog.safe_of_reaches hrun (life_careful (unharmed_new False) settings clicks))).1
  · intro p window hreach
    have hrun : (circumstances True).Reaches (life settings clicks, {}) (p, window) := by
      apply Surroundings.Reaches.mono _ _ hreach
      · exact fun _ _ _ _ hanswer => ⟨fun _ => hanswer.1, hanswer.2⟩
      · exact fun _ _ hmove => hmove
    exact (Prog.good_of_safe
      (Prog.safe_of_reaches hrun (life_careful (unharmed_new True) settings clicks))).2 trivial

section Runs

variable {cond : Access → MainWindow → Prop} {t : Owner α × MainWindow}

theorem answered (access : Access) (reply : access.Reply) {next : access.Reply → Owner α}
    (hcond : cond access window) (hrunning : window.terminated = none)
    (hanswer : MainWindow.Answers access window reply window')
    (hrest : (MainWindow.surroundings.provided cond).Reaches (next reply, window') t) :
    (MainWindow.surroundings.provided cond).Reaches (.call access next, window) t :=
  Surroundings.Reaches.answer ⟨hcond, hrunning, hanswer⟩ hrest

theorem looped {p : Owner α} {service service' : PeerService}
    (hservice : window.embeddedPeerService = some service) (hstep : RunLoop service service')
    (hrest : (MainWindow.surroundings.provided cond).Reaches (p, window.setService service') t) :
    (MainWindow.surroundings.provided cond).Reaches (p, window) t :=
  Relation.ReflTransGen.head (.move ⟨service, service', hservice, hstep, rfl⟩) hrest

end Runs

/-- A loop that serves until the window is destroyed. -/
theorem served_life_unterminated :
    ∃ window, (MainWindow.surroundings.provided FlagSound).Reaches (life ⟨true, [100]⟩ [], {})
        (.pure (), window) ∧ window.terminated = none := by
  have hrun : (MainWindow.surroundings.provided FlagSound).Reaches (life ⟨true, [100]⟩ [], {})
      (.pure (), {}) := by
    refine answered .hasService false trivial rfl ⟨rfl, rfl⟩ ?_
    refine answered .makeService (.ok ()) trivial rfl (.inl ⟨rfl, rfl⟩) ?_
    refine answered .loadRunning false (fun _ hservice _ => ?_) rfl ⟨_, rfl, rfl, rfl⟩ ?_
    · cases hservice
      rfl
    refine answered (.storeRunning true) () trivial rfl ⟨_, rfl, rfl⟩ ?_
    refine answered .spawnWorker (.ok ()) trivial rfl ⟨_, rfl, .inl ⟨rfl, rfl⟩⟩ ?_
    refine looped rfl (.listens rfl) ?_
    refine answered .hasService true trivial rfl ⟨rfl, rfl⟩ ?_
    refine answered .loadRunning true (fun _ hservice hcleared => ?_) rfl ⟨_, rfl, rfl, rfl⟩ ?_
    · cases hservice
      cases hcleared
    refine answered (.storeRunning false) () trivial rfl ⟨_, rfl, rfl⟩ ?_
    refine answered .closeListener () trivial rfl ⟨_, rfl, rfl⟩ ?_
    refine answered .joinable true trivial rfl ⟨_, rfl, rfl, rfl⟩ ?_
    refine looped rfl (.leaves rfl) ?_
    refine looped rfl (.closes rfl) ?_
    refine answered .join () trivial rfl ⟨_, rfl, rfl, rfl⟩ ?_
    refine answered .reset () trivial rfl rfl ?_
    refine answered .reset () trivial rfl rfl ?_
    exact .refl
  exact ⟨_, hrun, (life_unterminated ⟨true, [100]⟩ []).2 _ _ hrun⟩

/-- A port that is taken ends the loop, and the next start destroys the service whose thread nobody
joined. -/
theorem refused_peer_terminates :
    ¬ ∀ settings clicks p window,
      MainWindow.surroundings.Reaches (life settings clicks, {}) (p, window) →
      window.terminated = none := by
  intro hclaim
  have hrun : ∃ p, (MainWindow.surroundings.provided fun _ _ => True).Reaches
      (life ⟨true, [100]⟩ [.applyNetworkSettings true], {})
      (p, { embeddedPeerService := some ⟨false, false, some .ended⟩
            terminated := some .workerDestroyed }) := by
    apply Exists.intro
    refine answered .hasService false trivial rfl ⟨rfl, rfl⟩ ?_
    refine answered .makeService (.ok ()) trivial rfl (.inl ⟨rfl, rfl⟩) ?_
    refine answered .loadRunning false trivial rfl ⟨_, rfl, rfl, rfl⟩ ?_
    refine answered (.storeRunning true) () trivial rfl ⟨_, rfl, rfl⟩ ?_
    refine answered .spawnWorker (.ok ()) trivial rfl ⟨_, rfl, .inl ⟨rfl, rfl⟩⟩ ?_
    refine looped rfl (.refused rfl) ?_
    refine looped rfl (.caught rfl) ?_
    -- The click: the flag is cleared, so nothing is stopped and a new service is made.
    refine answered .hasService true trivial rfl ⟨rfl, rfl⟩ ?_
    refine answered .loadRunning false trivial rfl ⟨_, rfl, rfl, rfl⟩ ?_
    refine answered .hasService true trivial rfl ⟨rfl, rfl⟩ ?_
    refine answered .loadRunning false trivial rfl ⟨_, rfl, rfl, rfl⟩ ?_
    refine answered .makeService (.ok ()) trivial rfl (.inl ⟨rfl, rfl⟩) ?_
    exact .refl
  obtain ⟨p, hreach⟩ := hrun
  have hnone := hclaim ⟨true, [100]⟩ [.applyNetworkSettings true] p _ <| by
    apply Surroundings.Reaches.mono _ _ hreach
    · exact fun _ _ _ _ hanswer => hanswer.2
    · exact fun _ _ hmove => hmove
  cases hnone

end DecentStore.EmbeddedPeer
