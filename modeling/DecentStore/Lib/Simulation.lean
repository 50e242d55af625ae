import DecentStore.Lib.Interaction

/-!
# One environment in place of another

An environment simulates another one if it gives the same answers to the calls that are allowed in
the state they meet, and the states stay related. A program then cannot tell the two apart, alone or
in a pool, and the environment may also move by itself as long as the relation does not see it.
-/

namespace Interaction

variable {Call : Type} {Reply : Call → Type} {ε α σ σ' τ ι : Type}

/-- The first environment answers the allowed calls as the second one does. -/
structure Simulates (h : Handler Reply σ) (h' : Handler Reply σ') (allowed : σ → Call → Prop)
    (rel : σ → σ' → Prop) : Prop where
  answer : ∀ {c s t}, allowed s c → rel s t → (h c s).1 = (h' c t).1
  after : ∀ {c s t}, allowed s c → rel s t → rel (h c s).2 (h' c t).2

namespace Prog

/-- Every call is allowed in the state it meets. -/
def Allowed (h : Handler Reply σ) (allowed : σ → Call → Prop) : Prog Reply ε α → σ → Prop
  | .pure _, _ => True
  | .throw _, _ => True
  | .call c next, s => allowed s c ∧ (next (h c s).1).Allowed h allowed (h c s).2

theorem allowed_of_forall {h : Handler Reply σ} {allowed : σ → Call → Prop}
    (hall : ∀ s c, allowed s c) (p : Prog Reply ε α) (s : σ) : p.Allowed h allowed s := by
  induction p generalizing s with
  | pure a => trivial
  | throw e => trivial
  | call c next ih => exact ⟨hall s c, ih _ _⟩

instance decidableAllowed (h : Handler Reply σ) (allowed : σ → Call → Prop)
    [∀ s c, Decidable (allowed s c)] :
    (p : Prog Reply ε α) → (s : σ) → Decidable (p.Allowed h allowed s)
  | .pure _, _ => isTrue trivial
  | .throw _, _ => isTrue trivial
  | .call c next, s =>
      match inferInstanceAs (Decidable (allowed s c)),
        decidableAllowed h allowed (next (h c s).1) (h c s).2 with
      | isTrue hcall, isTrue hnext => isTrue ⟨hcall, hnext⟩
      | isFalse hcall, _ => isFalse fun hall => hcall hall.1
      | _, isFalse hnext => isFalse fun hall => hnext hall.2

/-- The program after some of its calls, or at its end. -/
def advance (h : Handler Reply σ) : Nat → Prog Reply ε α → σ → Prog Reply ε α × σ
  | n + 1, .call c next, s => advance h n (next (h c s).1) (h c s).2
  | _, p, s => (p, s)

end Prog

/-! ### Programs in company -/

namespace Prog

/-- The program runs to its end, and before each of its calls others may move the state. -/
inductive Among (h : Handler Reply σ) (others : σ → σ → Prop) :
    Prog Reply ε α → σ → Except ε α → σ → Prop where
  | pure {s : σ} (a : α) : Among h others (.pure a) s (.ok a) s
  | throw {s : σ} (e : ε) : Among h others (.throw e) s (.error e) s
  | call {s s' s'' : σ} {c : Call} {next : Reply c → Prog Reply ε α} {r : Except ε α}
      (hmove : others s s') (hrest : Among h others (next (h c s').1) (h c s').2 r s'') :
      Among h others (.call c next) s r s''

variable {h : Handler Reply σ} {others rely guar : σ → σ → Prop}

theorem Among.post_of_holds (hothers : ∀ s s', others s s' → rely s s')
    {post : Except ε α → σ → Prop} {p : Prog Reply ε α} {s s' : σ} {r : Except ε α}
    (hrun : p.Among h others s r s') (hp : p.Holds h rely guar post s) : post r s' := by
  induction hrun with
  | pure a => exact hp
  | throw e => exact hp
  | call hmove _ ih => exact ih (hp _ (hothers _ _ hmove)).2

theorem among_run (hrefl : ∀ s, others s s) (p : Prog Reply ε α) (s : σ) :
    p.Among h others s (p.run h s).1 (p.run h s).2 := by
  induction p generalizing s with
  | pure a => exact .pure a
  | throw e => exact .throw e
  | call c next ih => exact .call (hrefl s) (ih (h c s).1 (h c s).2)

end Prog

namespace Pool

variable [DecidableEq ι]

/-- The shared states are related and the states of the processes are the same. -/
def Beside (rel : σ → σ' → Prop) (s : σ × τ) (t : σ' × τ) : Prop := rel s.1 t.1 ∧ s.2 = t.2

/-- A pool whose processes make allowed calls and whose environment may move by itself. -/
inductive Turn (h : Handler Reply (σ × τ)) (allowed : σ × τ → Call → Prop)
    (silent : σ → σ → Prop) : Pool Reply ε α σ τ ι → Pool Reply ε α σ τ ι → Prop where
  | call {pool : Pool Reply ε α σ τ ι} (i : ι) (c : Call) (next : Reply c → Prog Reply ε α)
      (hcall : (pool.procs i).1 = .call c next)
      (hallowed : allowed (pool.shared, (pool.procs i).2) c) :
      Turn h allowed silent pool
        { shared := (h c (pool.shared, (pool.procs i).2)).2.1
          procs := Function.update pool.procs i
            (next (h c (pool.shared, (pool.procs i).2)).1,
              (h c (pool.shared, (pool.procs i).2)).2.2) }
  | silent {s s' : σ} {procs : ι → Prog Reply ε α × τ} (hmove : silent s s') :
      Turn h allowed silent ⟨s, procs⟩ ⟨s', procs⟩

def Turns (h : Handler Reply (σ × τ)) (allowed : σ × τ → Call → Prop) (silent : σ → σ → Prop) :
    Pool Reply ε α σ τ ι → Pool Reply ε α σ τ ι → Prop :=
  Relation.ReflTransGen (Turn h allowed silent)

/-- The processes are the same and have got equally far, over related states. -/
structure Alike (rel : σ → σ' → Prop) (pool : Pool Reply ε α σ τ ι)
    (pool' : Pool Reply ε α σ' τ ι) : Prop where
  shared : rel pool.shared pool'.shared
  procs : pool'.procs = pool.procs

variable {h : Handler Reply (σ × τ)} {h' : Handler Reply (σ' × τ)}
  {allowed : σ × τ → Call → Prop} {silent : σ → σ → Prop} {rel : σ → σ' → Prop}

theorem Turn.simulated (sim : Simulates h h' allowed (Beside rel))
    (hsilent : ∀ s s' t, silent s s' → rel s t → rel s' t)
    {pool next : Pool Reply ε α σ τ ι} {ideal : Pool Reply ε α σ' τ ι}
    (hturn : Turn h allowed silent pool next) (halike : Alike rel pool ideal) :
    ∃ ideal', Reachable h' ideal ideal' ∧ Alike rel next ideal' := by
  cases hturn with
  | silent hmove =>
      exact ⟨ideal, Relation.ReflTransGen.refl, hsilent _ _ _ hmove halike.shared, halike.procs⟩
  | call i c rest hcall hallowed =>
      have hbeside : Beside rel (pool.shared, (pool.procs i).2)
          (ideal.shared, (ideal.procs i).2) := ⟨halike.shared, by rw [halike.procs]⟩
      have hanswer := sim.answer hallowed hbeside
      obtain ⟨hshared, hown⟩ := sim.after hallowed hbeside
      have hcall' : (ideal.procs i).1 = .call c rest := by rw [halike.procs, hcall]
      refine ⟨_, Relation.ReflTransGen.single (Step.call i c rest hcall'), hshared, ?_⟩
      rw [hanswer, hown, halike.procs]

/-- **A pool of programs.** Whatever a pool does over the first environment, it can do over the
second one. -/
theorem Turns.simulated (sim : Simulates h h' allowed (Beside rel))
    (hsilent : ∀ s s' t, silent s s' → rel s t → rel s' t)
    {pool pool' : Pool Reply ε α σ τ ι} {ideal : Pool Reply ε α σ' τ ι}
    (hturns : Turns h allowed silent pool pool') (halike : Alike rel pool ideal) :
    ∃ ideal', Reachable h' ideal ideal' ∧ Alike rel pool' ideal' := by
  induction hturns with
  | refl => exact ⟨ideal, Relation.ReflTransGen.refl, halike⟩
  | tail _ hturn ih =>
      obtain ⟨ideal', hreach, halike'⟩ := ih
      obtain ⟨ideal'', hreach', halike''⟩ := hturn.simulated sim hsilent halike'
      exact ⟨ideal'', hreach.trans hreach', halike''⟩

/-- A process may go on alone until it is done, if its calls are allowed. -/
theorem turns_run (pool : Pool Reply ε α σ τ ι) (i : ι)
    (hallowed : (pool.procs i).1.Allowed h allowed (pool.shared, (pool.procs i).2)) :
    Turns h allowed silent pool
      { shared := ((pool.procs i).1.run h (pool.shared, (pool.procs i).2)).2.1
        procs := Function.update pool.procs i
          (Prog.ofExcept ((pool.procs i).1.run h (pool.shared, (pool.procs i).2)).1,
            ((pool.procs i).1.run h (pool.shared, (pool.procs i).2)).2.2) } := by
  induction hprog : (pool.procs i).1 generalizing pool with
  | pure a =>
      have hself : Function.update pool.procs i (.pure a, (pool.procs i).2) = pool.procs :=
        Function.update_eq_self_iff.mpr (Prod.ext hprog.symm rfl)
      simp only [Prog.run, Prog.ofExcept, hself]
      exact Relation.ReflTransGen.refl
  | throw e =>
      have hself : Function.update pool.procs i (.throw e, (pool.procs i).2) = pool.procs :=
        Function.update_eq_self_iff.mpr (Prod.ext hprog.symm rfl)
      simp only [Prog.run, Prog.ofExcept, hself]
      exact Relation.ReflTransGen.refl
  | call c next ih =>
      rw [hprog] at hallowed
      have hturn := @Turn.call _ _ _ _ _ _ _ _ h allowed silent pool i c next hprog hallowed.1
      have hrest := ih (h c (pool.shared, (pool.procs i).2)).1
        { shared := (h c (pool.shared, (pool.procs i).2)).2.1
          procs := Function.update pool.procs i
            (next (h c (pool.shared, (pool.procs i).2)).1,
              (h c (pool.shared, (pool.procs i).2)).2.2) } (by simpa using hallowed.2) (by simp)
      simp only [Function.update_self, Function.update_idem] at hrest
      exact Relation.ReflTransGen.head hturn hrest

theorem reachable_of_turns {pool pool' : Pool Reply ε α σ τ ι}
    (hturns : Turns h allowed (fun _ _ => False) pool pool') : Reachable h pool pool' := by
  induction hturns with
  | refl => exact Relation.ReflTransGen.refl
  | tail _ hturn ih =>
      cases hturn with
      | call i c next hcall hallowed => exact ih.tail (Step.call i c next hcall)
      | silent hmove => exact hmove.elim

theorem reachable_run (pool : Pool Reply ε α σ τ ι) (i : ι) :
    Reachable h pool
      { shared := ((pool.procs i).1.run h (pool.shared, (pool.procs i).2)).2.1
        procs := Function.update pool.procs i
          (Prog.ofExcept ((pool.procs i).1.run h (pool.shared, (pool.procs i).2)).1,
            ((pool.procs i).1.run h (pool.shared, (pool.procs i).2)).2.2) } :=
  reachable_of_turns (turns_run pool i (Prog.allowed_of_forall (fun _ _ => trivial) _ _))

def advanced (h : Handler Reply (σ × τ)) (i : ι) (n : Nat) (pool : Pool Reply ε α σ τ ι) :
    Pool Reply ε α σ τ ι :=
  let (p, shared, own) := (pool.procs i).1.advance h n (pool.shared, (pool.procs i).2)
  { shared := shared, procs := Function.update pool.procs i (p, own) }

/-- A process may go on alone for a while, if its calls are allowed. -/
theorem turns_advanced (pool : Pool Reply ε α σ τ ι) (i : ι) (n : Nat)
    (hallowed : (pool.procs i).1.Allowed h allowed (pool.shared, (pool.procs i).2)) :
    Turns h allowed silent pool (pool.advanced h i n) := by
  have hstay : ∀ pool : Pool Reply ε α σ τ ι, ∀ n,
      (pool.procs i).1.advance h n (pool.shared, (pool.procs i).2) =
        ((pool.procs i).1, pool.shared, (pool.procs i).2) →
      Turns h allowed silent pool (pool.advanced h i n) := by
    intro pool n hidle
    have hsame : pool.advanced h i n = pool := by
      simp only [advanced, hidle, Function.update_eq_self]
    rw [hsame]
    exact .refl
  induction n generalizing pool with
  | zero => exact hstay pool 0 rfl
  | succ n ih =>
      cases hprog : (pool.procs i).1 with
      | pure a => exact hstay pool (n + 1) (by rw [hprog]; rfl)
      | throw e => exact hstay pool (n + 1) (by rw [hprog]; rfl)
      | call c next =>
          rw [hprog] at hallowed
          have hturn := @Turn.call _ _ _ _ _ _ _ _ h allowed silent pool i c next hprog hallowed.1
          have hrest := ih
            { shared := (h c (pool.shared, (pool.procs i).2)).2.1
              procs := Function.update pool.procs i
                (next (h c (pool.shared, (pool.procs i).2)).1,
                  (h c (pool.shared, (pool.procs i).2)).2.2) } (by simpa using hallowed.2)
          refine Relation.ReflTransGen.head hturn ?_
          simp only [advanced, Function.update_self, Function.update_idem] at hrest
          simp only [advanced, hprog, Prog.advance]
          exact hrest

end Pool

end Interaction
