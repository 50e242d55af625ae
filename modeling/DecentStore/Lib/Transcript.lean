import DecentStore.Lib.Interaction

/-!
# What a program has done

The events of a program are its calls with their replies, whoever gave them. `Prog.Reaches` follows
a program along events that it may meet, and `Prog.Follows` judges every call by the events before
it. The judgement speaks of all replies at once, so it holds against any environment, in any company
and wherever the program is stopped.
-/

namespace Interaction

variable {Call : Type} {Reply : Call → Type} {ε α β σ : Type}

abbrev Event (Reply : Call → Type) := (c : Call) × Reply c

namespace Prog

/-- The program is at this point when its calls have been answered so. -/
inductive Reaches : Prog Reply ε α → List (Event Reply) → Prog Reply ε α → Prop where
  | start (p : Prog Reply ε α) : Reaches p [] p
  | call {c : Call} {next : Reply c → Prog Reply ε α} {r : Reply c} {events : List (Event Reply)}
      {q : Prog Reply ε α} (hrest : Reaches (next r) events q) :
      Reaches (.call c next) (⟨c, r⟩ :: events) q

theorem Reaches.snoc {p : Prog Reply ε α} {events : List (Event Reply)} {c : Call}
    {next : Reply c → Prog Reply ε α} (hreaches : p.Reaches events (.call c next)) (r : Reply c) :
    p.Reaches (events ++ [⟨c, r⟩]) (next r) := by
  generalize hrest : Prog.call c next = rest at hreaches
  induction hreaches with
  | start p =>
      subst hrest
      exact .call (.start _)
  | call _ ih => exact .call (ih hrest)

/-- Every call is one that may be made after what has happened, and so is the end. -/
def Follows (before : List (Event Reply) → Call → Prop)
    (post : List (Event Reply) → Except ε α → Prop) : Prog Reply ε α → List (Event Reply) → Prop
  | .pure a, past => post past (.ok a)
  | .throw e, past => post past (.error e)
  | .call c next, past =>
      before past c ∧ ∀ r, (next r).Follows before post (past ++ [⟨c, r⟩])

section Follows

variable {before : List (Event Reply) → Call → Prop} {past : List (Event Reply)}

theorem Follows.mono {post post' : List (Event Reply) → Except ε α → Prop}
    {p : Prog Reply ε α} (hp : p.Follows before post past)
    (hpost : ∀ past r, post past r → post' past r) : p.Follows before post' past := by
  induction p generalizing past with
  | pure a => exact hpost _ _ hp
  | throw e => exact hpost _ _ hp
  | call c next ih => exact ⟨hp.1, fun r => ih r (hp.2 r)⟩

theorem Follows.mono_before {before' : List (Event Reply) → Call → Prop}
    {post : List (Event Reply) → Except ε α → Prop} {p : Prog Reply ε α}
    (hp : p.Follows before post past) (hbefore : ∀ past c, before past c → before' past c) :
    p.Follows before' post past := by
  induction p generalizing past with
  | pure a => exact hp
  | throw e => exact hp
  | call c next ih => exact ⟨hbefore _ _ hp.1, fun r => ih r (hp.2 r)⟩

theorem Follows.bind {mid : List (Event Reply) → Except ε α → Prop}
    {post : List (Event Reply) → Except ε β → Prop} {p : Prog Reply ε α}
    {f : α → Prog Reply ε β} (hp : p.Follows before mid past)
    (hok : ∀ past a, mid past (.ok a) → (f a).Follows before post past)
    (herror : ∀ past e, mid past (.error e) → post past (.error e)) :
    (p >>= f).Follows before post past := by
  change (p.bind f).Follows before post past
  induction p generalizing past with
  | pure a => exact hok _ a hp
  | throw e => exact herror _ e hp
  | call c next ih => exact ⟨hp.1, fun r => ih r (hp.2 r)⟩

/-- What has happened stays. -/
theorem Follows.grows {post : List (Event Reply) → Except ε α → Prop} {p : Prog Reply ε α}
    (hp : p.Follows before post past) :
    p.Follows before (fun past' r => post past' r ∧ past <+: past') past := by
  induction p generalizing past with
  | pure a => exact ⟨hp, List.prefix_rfl⟩
  | throw e => exact ⟨hp, List.prefix_rfl⟩
  | call c next ih =>
      refine ⟨hp.1, fun r => (ih r (hp.2 r)).mono ?_⟩
      rintro past' r' ⟨hpost, hgrown⟩
      exact ⟨hpost, (List.prefix_append past _).trans hgrown⟩

variable {post : List (Event Reply) → Except ε α → Prop}

/-- **Soundness.** The judgement holds on at every point that the program reaches. -/
theorem Follows.reaches {p q : Prog Reply ε α} {events : List (Event Reply)}
    (hp : p.Follows before post past) (hreaches : p.Reaches events q) :
    q.Follows before post (past ++ events) := by
  induction hreaches generalizing past with
  | start p => rwa [List.append_nil]
  | call hrest ih =>
      have hnext := ih (hp.2 _)
      rwa [List.append_assoc, List.singleton_append] at hnext

/-- Two judgements are one. -/
theorem Follows.and {before' : List (Event Reply) → Call → Prop}
    {post' : List (Event Reply) → Except ε α → Prop} {p : Prog Reply ε α}
    (hp : p.Follows before post past) (hp' : p.Follows before' post' past) :
    p.Follows (fun past c => before past c ∧ before' past c)
      (fun past r => post past r ∧ post' past r) past := by
  induction p generalizing past with
  | pure a => exact ⟨hp, hp'⟩
  | throw e => exact ⟨hp, hp'⟩
  | call c next ih => exact ⟨⟨hp.1, hp'.1⟩, fun r => ih r (hp.2 r) (hp'.2 r)⟩

/-- **The history as a ghost.** What relates the history to the state, is kept by the others and
by every call that may be made, holds at the end. -/
theorem Follows.holds {h : Handler Reply σ} {rely guar : σ → σ → Prop}
    (inv : List (Event Reply) → σ → Prop)
    (hstable : ∀ past s s', rely s s' → inv past s → inv past s')
    (hkeep : ∀ past c s, before past c → inv past s →
      guar s (h c s).2 ∧ inv (past ++ [⟨c, (h c s).1⟩]) (h c s).2)
    {p : Prog Reply ε α} {s : σ} (hp : p.Follows before post past) (hs : inv past s) :
    p.Holds h rely guar (fun r s => ∃ past, post past r ∧ inv past s) s := by
  induction p generalizing past s with
  | pure a => exact ⟨past, hp, hs⟩
  | throw e => exact ⟨past, hp, hs⟩
  | call c next ih =>
      intro s' hs'
      obtain ⟨hguar, hinv⟩ := hkeep past c s' hp.1 (hstable past s s' hs' hs)
      exact ⟨hguar, ih (h c s').1 (hp.2 _) hinv⟩

end Follows

/-! ### Against a handler -/

/-- What happens when the program runs alone. -/
def transcript (h : Handler Reply σ) : Prog Reply ε α → σ → List (Event Reply)
  | .pure _, _ => []
  | .throw _, _ => []
  | .call c next, s => ⟨c, (h c s).1⟩ :: (next (h c s).1).transcript h (h c s).2

theorem reaches_transcript (h : Handler Reply σ) (p : Prog Reply ε α) (s : σ) :
    p.Reaches (p.transcript h s) (ofExcept (p.run h s).1) := by
  induction p generalizing s with
  | pure a => exact .start _
  | throw e => exact .start _
  | call c next ih => exact .call (ih (h c s).1 (h c s).2)

/-- Every reply in a transcript was given by the handler. -/
theorem exists_of_mem_transcript {h : Handler Reply σ} {p : Prog Reply ε α} {s : σ}
    {event : Event Reply} (hevent : event ∈ p.transcript h s) :
    ∃ s', event.2 = (h event.1 s').1 := by
  induction p generalizing s with
  | pure a => cases hevent
  | throw e => cases hevent
  | call c next ih =>
      rcases List.mem_cons.mp hevent with rfl | hevent
      · exact ⟨s, rfl⟩
      · exact ih _ hevent

/-- The call that the program makes next. -/
def nextCall : Prog Reply ε α → Option Call
  | .pure _ | .throw _ => none
  | .call c _ => some c

theorem call_of_nextCall {p : Prog Reply ε α} {c : Call} (hp : p.nextCall = some c) :
    ∃ next, p = .call c next := by
  cases p with
  | pure a => cases hp
  | throw e => cases hp
  | call d next =>
      cases hp
      exact ⟨next, rfl⟩

end Prog

/-! ### In a pool -/

namespace Pool

variable {τ ι : Type} [DecidableEq ι] {h : Handler Reply (σ × τ)}

/-- A process has met this event between the two states of the pool. -/
def Met (h : Handler Reply (σ × τ)) (pool pool' : Pool Reply ε α σ τ ι) (i : ι)
    (event : Event Reply) : Prop :=
  ∃ mid, Reachable h pool mid ∧ Reachable h mid pool' ∧
    event.2 = (h event.1 (mid.shared, (mid.procs i).2)).1

theorem Met.tail {pool pool' pool'' : Pool Reply ε α σ τ ι} {i : ι} {event : Event Reply}
    (hmet : Met h pool pool' i event) (hstep : Step h pool' pool'') :
    Met h pool pool'' i event := by
  obtain ⟨mid, hbefore, hafter, hanswer⟩ := hmet
  exact ⟨mid, hbefore, hafter.tail hstep, hanswer⟩

/-- **The history of a process.** What it has done between two states of a pool was answered by the
environment as it was in between. -/
theorem Reachable.history {pool pool' : Pool Reply ε α σ τ ι} (hreach : Reachable h pool pool')
    (i : ι) : ∃ events, (pool.procs i).1.Reaches events (pool'.procs i).1 ∧
      ∀ event ∈ events, Met h pool pool' i event := by
  induction hreach with
  | refl => exact ⟨[], .start _, by simp⟩
  | @tail mid last hbefore hstep ih =>
      obtain ⟨events, hreaches, hmet⟩ := ih
      have hmet' : ∀ event ∈ events, Met h pool last i event :=
        fun event hevent => (hmet event hevent).tail hstep
      cases hstep with
      | call j c next hcall =>
          by_cases hij : i = j
          · subst hij
            rw [hcall] at hreaches
            refine ⟨_, by simpa using hreaches.snoc (h c (mid.shared, (mid.procs i).2)).1, ?_⟩
            intro event hevent
            rcases List.mem_append.mp hevent with hevent | hevent
            · exact hmet' event hevent
            · rw [List.mem_singleton.mp hevent]
              exact ⟨mid, hbefore, .single (.call i c next hcall), rfl⟩
          · refine ⟨events, ?_, hmet'⟩
            simpa [Function.update_of_ne hij] using hreaches

end Pool

end Interaction
