import DecentStore.Lib.Reports
import DecentStore.Lib.Simulation

/-!
# Programs with a console

A front end runs a program, reports on the way and at the end, and makes a result of its own of what
came of the program, unless that is an exception which nothing catches. What it reports is kept on
its console. A pool of front ends does what the pool of the programs inside them does, and each
console shows what its program has reported.
-/

namespace Interaction

variable {Call R : Type} {Reply : Call → Type} {ε ε' α β σ τ ι : Type}

namespace Prog

/-! ### Another result -/

def ending (f : Except ε α → Except ε' β) : Prog Reply ε α → Prog Reply ε' β
  | .pure a => ofExcept (f (.ok a))
  | .throw e => ofExcept (f (.error e))
  | .call c next => .call c fun r => (next r).ending f

theorem call_of_ending {f : Except ε α → Except ε' β} {p : Prog Reply ε α} {c : Call}
    {next : Reply c → Prog Reply ε' β} (hcall : p.ending f = .call c next) :
    ∃ rest, p = .call c rest ∧ ∀ r, (rest r).ending f = next r := by
  cases p with
  | pure a =>
      unfold ending at hcall
      cases hf : f (.ok a) <;> simp [hf, ofExcept] at hcall
  | throw e =>
      unfold ending at hcall
      cases hf : f (.error e) <;> simp [hf, ofExcept] at hcall
  | call c' rest =>
      unfold ending at hcall
      cases hcall
      exact ⟨rest, rfl, fun _ => rfl⟩

theorem run_ending (h : Handler Reply σ) (f : Except ε α → Except ε' β) (p : Prog Reply ε α)
    (s : σ) : (p.ending f).run h s = (f (p.run h s).1, (p.run h s).2) := by
  induction p generalizing s with
  | pure a =>
      unfold ending
      cases hf : f (.ok a) <;> simp [Prog.run, hf, ofExcept]
  | throw e =>
      unfold ending
      cases hf : f (.error e) <;> simp [Prog.run, hf, ofExcept]
  | call c next ih => exact ih (h c s).1 (h c s).2

theorem allowed_ending {h : Handler Reply σ} {allowed : σ → Call → Prop}
    {f : Except ε α → Except ε' β} {p : Prog Reply ε α} {s : σ} (hp : p.Allowed h allowed s) :
    (p.ending f).Allowed h allowed s := by
  induction p generalizing s with
  | pure a =>
      unfold ending
      cases f (.ok a) <;> trivial
  | throw e =>
      unfold ending
      cases f (.error e) <;> trivial
  | call c next ih => exact ⟨hp.1, ih (h c s).1 hp.2⟩

theorem Among.of_ending {h : Handler Reply σ} {others : σ → σ → Prop}
    {f : Except ε α → Except ε' β} {p : Prog Reply ε α} {s s' : σ} {r : Except ε' β}
    (hrun : (p.ending f).Among h others s r s') : ∃ r₀, p.Among h others s r₀ s' ∧ r = f r₀ := by
  induction p generalizing s with
  | pure a =>
      refine ⟨.ok a, ?_⟩
      unfold ending at hrun
      cases hf : f (.ok a) <;> rw [hf] at hrun <;> cases hrun <;> exact ⟨.pure a, rfl⟩
  | throw e =>
      refine ⟨.error e, ?_⟩
      unfold ending at hrun
      cases hf : f (.error e) <;> rw [hf] at hrun <;> cases hrun <;> exact ⟨.throw e, rfl⟩
  | call c next ih =>
      cases hrun with
      | call hmove hrest =>
          obtain ⟨r₀, hinner, hr⟩ := ih _ hrest
          exact ⟨r₀, .call hmove hinner, hr⟩

/-- The others may have gone on before. -/
theorem Among.of_moved {h : Handler Reply (σ × τ)} {move : σ → σ → Prop}
    (hrefl : ∀ s, move s s) (htrans : ∀ a b c, move a b → move b c → move a c)
    {p : Prog Reply ε α} {s s₀ s' : σ} {t t' : τ} {r : Except ε α} (hmove : move s s₀)
    (hrun : p.Among h (Pool.Others move) (s₀, t) r (s', t')) :
    ∃ s₁, p.Among h (Pool.Others move) (s, t) r (s₁, t') ∧ move s₁ s' := by
  cases hrun with
  | pure a => exact ⟨s, .pure a, hmove⟩
  | throw e => exact ⟨s, .throw e, hmove⟩
  | call hothers hrest =>
      exact ⟨s', .call ⟨htrans _ _ _ hmove hothers.1, hothers.2⟩ hrest, hrefl s'⟩

end Prog

/-! ### Front ends -/

namespace Prog

/-- Reports one after another, and then a result. -/
def speak : List R → Except ε β → Prog (Reported Reply R) ε β
  | [], result => ofExcept result
  | r :: rs, result => .call (.inr r) fun _ => speak rs result

/-- What comes of the program is told, and makes a result. -/
def front (caught : ε → Bool) (p : Prog (Reported Reply R) ε α) (said : Except ε α → List R)
    (f : Except ε α → β) : Prog (Reported Reply R) ε β :=
  catching caught (p >>= fun a => speak (said (.ok a)) (.ok (f (.ok a)))) fun e =>
    speak (said (.error e)) (.ok (f (.error e)))

/-- What is told of a result. -/
def told (caught : ε → Bool) (said : Except ε α → List R) : Except ε α → List R
  | .ok a => said (.ok a)
  | .error e => if caught e then said (.error e) else []

/-- What is made of it. -/
def outcome (caught : ε → Bool) (f : Except ε α → β) : Except ε α → Except ε β
  | .ok a => .ok (f (.ok a))
  | .error e => if caught e then .ok (f (.error e)) else .error e

variable {caught : ε → Bool} {said : Except ε α → List R} {f : Except ε α → β}

theorem tryCatch_speak (rs : List R) (b : β) (onError : ε → Prog (Reported Reply R) ε β) :
    (speak rs (.ok b)).tryCatch onError = speak rs (.ok b) := by
  induction rs with
  | nil => rfl
  | cons r rs ih => exact congrArg (Prog.call (.inr r)) (funext fun _ => ih)

theorem front_ofExcept (r : Except ε α) :
    front caught (ofExcept r : Prog (Reported Reply R) ε α) said f =
      speak (told caught said r) (outcome caught f r) := by
  cases r with
  | ok a => exact tryCatch_speak _ _ _
  | error e =>
      change (if caught e then speak (said (.error e)) (.ok (f (.error e))) else .throw e) =
        speak (if caught e then said (.error e) else [])
          (if caught e then .ok (f (.error e)) else .error e)
      split <;> rfl

theorem muted_speak (rs : List R) (result : Except ε β) :
    (speak rs result : Prog (Reported Reply R) ε β).muted = ofExcept result := by
  induction rs with
  | nil => exact muted_ofExcept result
  | cons r rs ih => exact ih

theorem muted_front (p : Prog (Reported Reply R) ε α) :
    (front caught p said f).muted = p.muted.ending (outcome caught f) := by
  induction p with
  | pure a =>
      rw [show Prog.pure a = ofExcept (.ok a) from rfl, front_ofExcept, muted_speak]
      rfl
  | throw e =>
      rw [show Prog.throw e = ofExcept (.error e) from rfl, front_ofExcept, muted_speak]
      rfl
  | call c next ih =>
      cases c with
      | inl c => exact congrArg (Prog.call c) (funext ih)
      | inr r => exact ih ()

theorem ofExcept_injective {r r' : Except ε β}
    (heq : (ofExcept r : Prog Reply ε β) = ofExcept r') : r = r' := by
  cases r <;> cases r' <;> cases heq <;> rfl

theorem speak_eq_ofExcept {rs : List R} {r r' : Except ε β}
    (hspeak : (speak rs r : Prog (Reported Reply R) ε β) = ofExcept r') : rs = [] ∧ r = r' := by
  cases rs with
  | nil => exact ⟨rfl, ofExcept_injective hspeak⟩
  | cons told rs => cases r' <;> cases hspeak

theorem Reaches.of_speak {rs : List R} {result : Except ε β}
    {events : List (Event (Reported Reply R))} {rest : Prog (Reported Reply R) ε β}
    (hreaches : (speak rs result).Reaches events rest) :
    calls events = [] ∧ ∃ later, rs = reports events ++ later ∧ rest = speak later result := by
  induction rs generalizing events with
  | nil =>
      cases result <;> cases hreaches <;> exact ⟨rfl, [], rfl, rfl⟩
  | cons r rs ih =>
      cases hreaches with
      | start => exact ⟨rfl, r :: rs, rfl, rfl⟩
      | call hrest =>
          obtain ⟨hcalls, later, hrs, rfl⟩ := ih hrest
          exact ⟨hcalls, later, congrArg (r :: ·) hrs, rfl⟩

theorem Reaches.of_front_ended {p : Prog (Reported Reply R) ε α} {r : Except ε α}
    {events : List (Event (Reported Reply R))} {rest : Prog (Reported Reply R) ε β}
    (hreaches : (front caught p said f).Reaches events rest) (hp : p = ofExcept r) :
    ∃ past later, p.Reaches past (ofExcept r) ∧ calls events = calls past ∧
      reports events ++ later = reports past ++ told caught said r ∧
      rest = speak later (outcome caught f r) := by
  subst hp
  rw [front_ofExcept] at hreaches
  obtain ⟨hcalls, later, hsaid, hrest⟩ := hreaches.of_speak
  exact ⟨[], later, .start _, hcalls, hsaid.symm, hrest⟩

/-- **Where a front end is.** Its program is on its way, or what came of it is being told. -/
theorem Reaches.of_front {p : Prog (Reported Reply R) ε α}
    {events : List (Event (Reported Reply R))} {rest : Prog (Reported Reply R) ε β}
    (hreaches : (front caught p said f).Reaches events rest) :
    (∃ c next, p.Reaches events (.call c next) ∧ rest = front caught (.call c next) said f) ∨
      ∃ r past later, p.Reaches past (ofExcept r) ∧ calls events = calls past ∧
        reports events ++ later = reports past ++ told caught said r ∧
        rest = speak later (outcome caught f r) := by
  induction p generalizing events with
  | pure a => exact Or.inr ⟨.ok a, Reaches.of_front_ended hreaches rfl⟩
  | throw e => exact Or.inr ⟨.error e, Reaches.of_front_ended hreaches rfl⟩
  | call c next ih =>
      cases hreaches with
      | start => exact Or.inl ⟨c, next, .start _, rfl⟩
      | @call _ _ r events _ hrest =>
          rcases ih r hrest with ⟨c', next', hinner, hrest'⟩ |
            ⟨r', past, later, hinner, hcalls, hsaid, hrest'⟩
          · exact Or.inl ⟨c', next', .call hinner, hrest'⟩
          · refine Or.inr ⟨r', [⟨c, r⟩] ++ past, later, .call hinner, ?_, ?_, hrest'⟩
            · change calls ([⟨c, r⟩] ++ events) = _
              rw [calls_append, calls_append, hcalls]
            · change reports ([⟨c, r⟩] ++ events) ++ later = _
              rw [reports_append, reports_append, List.append_assoc, hsaid, List.append_assoc]

/-- A front end that has ended has told everything. -/
theorem Reaches.of_front_done {p : Prog (Reported Reply R) ε α}
    {events : List (Event (Reported Reply R))} {result : Except ε β}
    (hreaches : (front caught p said f).Reaches events (ofExcept result)) :
    ∃ r past, p.Reaches past (ofExcept r) ∧ calls events = calls past ∧
      reports events = reports past ++ told caught said r ∧ outcome caught f r = result := by
  rcases hreaches.of_front with ⟨c, next, -, hrest⟩ |
    ⟨r, past, later, hinner, hcalls, hsaid, hrest⟩
  · cases result <;> cases hrest
  · obtain ⟨rfl, hresult⟩ := speak_eq_ofExcept hrest.symm
    rw [List.append_nil] at hsaid
    exact ⟨r, past, hinner, hcalls, hsaid, hresult⟩

theorem mem_of_mem_told {r : Except ε α} {x : R} (hmem : x ∈ told caught said r) : x ∈ said r := by
  cases r with
  | ok a => exact hmem
  | error e =>
      change x ∈ (if caught e then said (.error e) else []) at hmem
      split at hmem
      · exact hmem
      · cases hmem

theorem outcome_eq_ok {r : Except ε α} {b : β} (hr : outcome caught f r = .ok b) : f r = b := by
  cases r with
  | ok a => exact Except.ok.inj hr
  | error e =>
      cases hcaught : caught e with
      | true => simpa [outcome, hcaught] using hr
      | false => simp [outcome, hcaught] at hr

theorem told_of_outcome {r : Except ε α} {b : β} (hr : outcome caught f r = .ok b) :
    told caught said r = said r := by
  cases r with
  | ok a => rfl
  | error e =>
      cases hcaught : caught e with
      | true => simp [told, hcaught]
      | false => simp [outcome, hcaught] at hr

theorem outcome_eq_error {r : Except ε α} {e : ε} (hr : outcome caught f r = .error e) :
    caught e = false ∧ r = .error e := by
  cases r with
  | ok a => cases hr
  | error e' =>
      cases hcaught : caught e' with
      | true => simp [outcome, hcaught] at hr
      | false =>
          obtain rfl : e' = e := by simpa [outcome, hcaught] using hr
          exact ⟨hcaught, rfl⟩

/-- What it returns is made of what came of its program, and that is told. -/
theorem Reaches.of_front_returned {p : Prog (Reported Reply R) ε α}
    {events : List (Event (Reported Reply R))} {b : β}
    (hreaches : (front caught p said f).Reaches events (.pure b)) :
    ∃ r past, p.Reaches past (ofExcept r) ∧ calls events = calls past ∧
      reports events = reports past ++ said r ∧ f r = b := by
  obtain ⟨r, past, hinner, hcalls, hsaid, hresult⟩ :=
    of_front_done (show (front caught p said f).Reaches events (ofExcept (.ok b)) from hreaches)
  rw [told_of_outcome hresult] at hsaid
  exact ⟨r, past, hinner, hcalls, hsaid, outcome_eq_ok hresult⟩

/-- Only what nothing catches comes out of it. -/
theorem Reaches.of_front_thrown {p : Prog (Reported Reply R) ε α}
    {events : List (Event (Reported Reply R))} {e : ε}
    (hreaches : (front caught p said f).Reaches events (.throw e)) :
    caught e = false ∧ ∃ past, p.Reaches past (.throw e) ∧ calls events = calls past ∧
      reports events = reports past := by
  obtain ⟨r, past, hinner, hcalls, hsaid, hresult⟩ := of_front_done
    (show (front caught p said f).Reaches events (ofExcept (.error e)) from hreaches)
  obtain ⟨hcaught, rfl⟩ := outcome_eq_error hresult
  refine ⟨hcaught, past, hinner, hcalls, ?_⟩
  simpa [told, hcaught] using hsaid

end Prog

/-! ### The console -/

/-- What is reported goes to the console. -/
def logged (h : Handler Reply (σ × τ)) : Handler (Reported Reply R) (σ × τ × List R)
  | .inl c, (s, t, said) => ((h c (s, t)).1, (h c (s, t)).2.1, (h c (s, t)).2.2, said)
  | .inr r, (s, t, said) => ((), s, t, said ++ [r])

def loggedAllowed (allowed : σ × τ → Call → Prop) : σ × τ × List R → Call ⊕ R → Prop
  | (s, t, _), .inl c => allowed (s, t) c
  | _, .inr _ => True

namespace Prog

section Logged

variable {h : Handler Reply (σ × τ)} {p : Prog (Reported Reply R) ε α} {s : σ} {t : τ}

theorem run_logged (h : Handler Reply (σ × τ)) (p : Prog (Reported Reply R) ε α) (s : σ) (t : τ)
    (said : List R) : ∃ screen, p.run (logged h) (s, t, said) =
      ((p.muted.run h (s, t)).1, (p.muted.run h (s, t)).2.1, (p.muted.run h (s, t)).2.2,
        screen) := by
  induction p generalizing s t said with
  | pure a => exact ⟨said, rfl⟩
  | throw e => exact ⟨said, rfl⟩
  | call c next ih =>
      cases c with
      | inl c => exact ih (h c (s, t)).1 (h c (s, t)).2.1 (h c (s, t)).2.2 said
      | inr r => exact ih () s t (said ++ [r])

theorem allowed_logged {allowed : σ × τ → Call → Prop} (hp : p.muted.Allowed h allowed (s, t))
    (said : List R) : p.Allowed (logged h) (loggedAllowed allowed) (s, t, said) := by
  induction p generalizing s t said with
  | pure a => trivial
  | throw e => trivial
  | call c next ih =>
      cases c with
      | inl c => exact ⟨hp.1, ih _ hp.2 said⟩
      | inr r => exact ⟨trivial, ih _ hp _⟩

end Logged

/-- What the console shows after a run in company, and the run without the console. -/
theorem Among.unlogged {h : Handler Reply (σ × τ)} {move : σ → σ → Prop} (hrefl : ∀ s, move s s)
    (htrans : ∀ a b c, move a b → move b c → move a c) {p : Prog (Reported Reply R) ε α} {s s' : σ}
    {t t' : τ} {said said' : List R} {r : Except ε α}
    (hrun : p.Among (logged h) (Pool.Others move) (s, t, said) r (s', t', said')) :
    (∃ s₁, p.muted.Among h (Pool.Others move) (s, t) r (s₁, t') ∧ move s₁ s') ∧
      ∃ events, p.Reaches events (ofExcept r) ∧ said' = said ++ reports events := by
  generalize hstart : (s, t, said) = start at hrun
  generalize hend : (s', t', said') = final at hrun
  induction hrun generalizing s t said with
  | pure a =>
      cases hstart
      cases hend
      exact ⟨⟨_, .pure a, hrefl _⟩, [], .start _, (List.append_nil _).symm⟩
  | throw e =>
      cases hstart
      cases hend
      exact ⟨⟨_, .throw e, hrefl _⟩, [], .start _, (List.append_nil _).symm⟩
  | @call start mid final c next r hothers hrest ih =>
      subst hstart
      obtain ⟨s₀, rest⟩ := mid
      obtain ⟨hmove, hsame⟩ := hothers
      simp only at hmove hsame
      subst hsame
      cases c with
      | inl c =>
          obtain ⟨⟨s₁, hmuted, hlast⟩, events, hreaches, hsaid⟩ := ih rfl hend
          have hothers : Pool.Others move (s, t) (s₀, t) := ⟨hmove, rfl⟩
          exact ⟨⟨s₁, .call hothers hmuted, hlast⟩, _, .call hreaches, hsaid⟩
      | inr told =>
          obtain ⟨⟨s₁, hmuted, hlast⟩, events, hreaches, hsaid⟩ := ih rfl hend
          obtain ⟨s₂, hmuted, hbefore⟩ := hmuted.of_moved hrefl htrans hmove
          refine ⟨⟨s₂, hmuted, htrans _ _ _ hbefore hlast⟩, _, .call hreaches, ?_⟩
          rw [hsaid, List.append_assoc]
          rfl

end Prog

namespace Pool

/-- A front end is where its program is, and its console shows what has been reported. -/
structure Fronts (f : Except ε α → Except ε' β) (start : Prog (Reported Reply R) ε' β)
    (outer : Prog (Reported Reply R) ε' β × τ × List R) (inner : Prog Reply ε α × τ) : Prop where
  own : inner.2 = outer.2.1
  program : inner.1.ending f = outer.1.muted
  said : ∃ events, start.Reaches events outer.1 ∧ outer.2.2 = reports events

section Fronts

variable {f : Except ε α → Except ε' β} {start : Prog (Reported Reply R) ε' β}
  {inner : Prog Reply ε α × τ} {t : τ} {said : List R}

theorem Fronts.call {c : Call} {next : Reply c → Prog (Reported Reply R) ε' β}
    (hfronts : Fronts f start (.call (.inl c) next, t, said) inner) :
    ∃ rest, inner = (.call c rest, t) ∧
      ∀ r (t' : τ), Fronts f start (next r, t', said) (rest r, t') := by
  obtain ⟨p, own⟩ := inner
  obtain rfl : own = t := hfronts.own
  obtain ⟨rest, rfl, hrest⟩ := Prog.call_of_ending hfronts.program
  obtain ⟨events, hreaches, hsaid⟩ := hfronts.said
  refine ⟨rest, rfl, fun r t' => ⟨rfl, hrest r, _, hreaches.snoc r, ?_⟩⟩
  rw [reports_snoc_call]
  exact hsaid

theorem Fronts.report {told : R} {next : Unit → Prog (Reported Reply R) ε' β}
    (hfronts : Fronts f start (.call (.inr told) next, t, said) inner) :
    Fronts f start (next (), t, said ++ [told]) inner := by
  obtain ⟨events, hreaches, hsaid⟩ := hfronts.said
  refine ⟨hfronts.own, hfronts.program, _, hreaches.snoc (), ?_⟩
  rw [reports_snoc_report]
  exact congrArg (· ++ [told]) hsaid

end Fronts

variable [DecidableEq ι] {h : Handler Reply (σ × τ)} {allowed : σ × τ → Call → Prop}
  {silent : σ → σ → Prop} {f : Except ε α → Except ε' β}
  {start : ι → Prog (Reported Reply R) ε' β}

structure Shows (f : Except ε α → Except ε' β) (start : ι → Prog (Reported Reply R) ε' β)
    (pool : Pool (Reported Reply R) ε' β σ (τ × List R) ι) (inner : Pool Reply ε α σ τ ι) :
    Prop where
  shared : inner.shared = pool.shared
  procs : ∀ i, Fronts f (start i) (pool.procs i) (inner.procs i)

theorem Shows.update {procs : ι → Prog (Reported Reply R) ε' β × τ × List R}
    {procs' : ι → Prog Reply ε α × τ} (hprocs : ∀ i, Fronts f (start i) (procs i) (procs' i))
    {i : ι} {outer : Prog (Reported Reply R) ε' β × τ × List R} {inner : Prog Reply ε α × τ}
    (hi : Fronts f (start i) outer inner) (s : σ) :
    Shows f start ⟨s, Function.update procs i outer⟩ ⟨s, Function.update procs' i inner⟩ where
  shared := rfl
  procs := by
    intro j
    by_cases hji : j = i
    · subst hji
      simpa using hi
    · simpa [Function.update_of_ne hji] using hprocs j

/-- **One turn.** A call of a front end is a call of its program; a report is none. -/
theorem Turn.shown {pool next : Pool (Reported Reply R) ε' β σ (τ × List R) ι}
    (hturn : Turn (logged h) (loggedAllowed allowed) silent pool next)
    {inner : Pool Reply ε α σ τ ι} (hshows : Shows f start pool inner) :
    ∃ inner', Turns h allowed silent inner inner' ∧ Shows f start next inner' := by
  obtain ⟨shared, procs'⟩ := inner
  cases hturn with
  | @silent s s' procs hmove =>
      obtain rfl : shared = s := hshows.shared
      exact ⟨⟨s', procs'⟩, .single (.silent hmove), rfl, hshows.procs⟩
  | call i c rest hcall hallowed =>
      obtain ⟨shared', procs⟩ := pool
      obtain rfl : shared = shared' := hshows.shared
      have hi := hshows.procs i
      rcases hproc : procs i with ⟨p, t, said⟩
      simp only [hproc] at hi hcall hallowed ⊢
      subst hcall
      cases c with
      | inl c =>
          obtain ⟨rest', hinner, hrest⟩ := hi.call
          refine ⟨_, .single (.call i c rest' (congrArg Prod.fst hinner) ?_), ?_⟩
          · simp only [hinner]
            exact hallowed
          · simp only [hinner]
            exact Shows.update hshows.procs (hrest _ _) _
      | inr told =>
          refine ⟨⟨shared, procs'⟩, .refl, ?_⟩
          have hupdate := @Shows.update _ _ _ _ _ _ _ σ τ ι _ f start procs procs' hshows.procs i
            _ (procs' i) hi.report shared
          rwa [Function.update_eq_self] at hupdate

/-- **A pool of front ends.** Behind it the programs themselves run. -/
theorem Turns.shown {pool pool' : Pool (Reported Reply R) ε' β σ (τ × List R) ι}
    (hturns : Turns (logged h) (loggedAllowed allowed) silent pool pool')
    {inner : Pool Reply ε α σ τ ι} (hshows : Shows f start pool inner) :
    ∃ inner', Turns h allowed silent inner inner' ∧ Shows f start pool' inner' := by
  induction hturns with
  | refl => exact ⟨inner, .refl, hshows⟩
  | tail _ hturn ih =>
      obtain ⟨mid, hmid, hshows'⟩ := ih
      obtain ⟨inner', hlast, hshows''⟩ := hturn.shown hshows'
      exact ⟨inner', hmid.trans hlast, hshows''⟩

end Pool

end Interaction
