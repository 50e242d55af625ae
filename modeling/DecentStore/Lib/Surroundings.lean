import DecentStore.Lib.Interaction

/-!
# A program and what surrounds it

The surroundings of a program answer its calls, in any way their relation allows, and move of their
own accord between any two of them. `Surroundings.Reaches` is every run of the two together.
`Prog.Safe` is judged along the program: whatever has moved, the state is good, and every answer
leads on to a safe rest. A condition on the calls of a run restricts the answers.
-/

namespace Interaction

variable {Call : Type} {Reply : Call → Type} {ε α β σ : Type}

structure Surroundings {Call : Type} (Reply : Call → Type) (σ : Type) where
  answers : (c : Call) → σ → Reply c → σ → Prop
  moves : σ → σ → Prop

namespace Surroundings

/-- The program makes its next call, or the surroundings move. -/
inductive Step (env : Surroundings Reply σ) :
    Prog Reply ε α × σ → Prog Reply ε α × σ → Prop where
  | answer {c : Call} {next : Reply c → Prog Reply ε α} {s s' : σ} {r : Reply c}
      (hanswer : env.answers c s r s') : Step env (.call c next, s) (next r, s')
  | move {p : Prog Reply ε α} {s s' : σ} (hmove : env.moves s s') : Step env (p, s) (p, s')

def Reaches (env : Surroundings Reply σ) :
    Prog Reply ε α × σ → Prog Reply ε α × σ → Prop :=
  Relation.ReflTransGen (Step env)

def Moved (env : Surroundings Reply σ) : σ → σ → Prop := Relation.ReflTransGen env.moves

/-- The surroundings in which every call meets a condition. -/
def provided (env : Surroundings Reply σ) (cond : Call → σ → Prop) : Surroundings Reply σ where
  answers := fun c s r s' => cond c s ∧ env.answers c s r s'
  moves := env.moves

variable {env : Surroundings Reply σ}

theorem Moved.keeps (inv : σ → Prop) (hstep : ∀ s s', env.moves s s' → inv s → inv s') {s s' : σ}
    (hmoved : env.Moved s s') (hs : inv s) : inv s' := by
  induction hmoved with
  | refl => exact hs
  | tail _ hmove ih => exact hstep _ _ hmove ih

theorem Reaches.answer {c : Call} {next : Reply c → Prog Reply ε α} {r : Reply c} {s s' : σ}
    {t : Prog Reply ε α × σ} (hanswer : env.answers c s r s') (hrest : env.Reaches (next r, s') t) :
    env.Reaches (.call c next, s) t :=
  Relation.ReflTransGen.head (.answer hanswer) hrest

/-- Surroundings that answer as a handler does. -/
def ofHandler (h : Handler Reply σ) (moves : σ → σ → Prop) : Surroundings Reply σ where
  answers := fun c s r s' => h c s = (r, s')
  moves := moves

/-- The program may go on alone until it is done. -/
theorem reaches_run (h : Handler Reply σ) (moves : σ → σ → Prop) (p : Prog Reply ε α) (s : σ) :
    (ofHandler h moves).Reaches (p, s) (Prog.ofExcept (p.run h s).1, (p.run h s).2) := by
  induction p generalizing s with
  | pure a => exact Relation.ReflTransGen.refl
  | throw e => exact Relation.ReflTransGen.refl
  | call c next ih =>
      exact Relation.ReflTransGen.head (.answer rfl) (ih (h c s).1 (h c s).2)

theorem Reaches.mono {env' : Surroundings Reply σ}
    (hanswers : ∀ c s r s', env.answers c s r s' → env'.answers c s r s')
    (hmoves : ∀ s s', env.moves s s' → env'.moves s s') {t t' : Prog Reply ε α × σ}
    (hreach : env.Reaches t t') : env'.Reaches t t' := by
  induction hreach with
  | refl => exact Relation.ReflTransGen.refl
  | tail _ hstep ih =>
      apply ih.tail
      cases hstep with
      | answer hanswer => exact .answer (hanswers _ _ _ _ hanswer)
      | move hmove => exact .move (hmoves _ _ hmove)

/-- What goes around a program and passes its calls on does not disturb its runs. -/
theorem Reaches.around (around : Prog Reply ε α → Prog Reply ε β)
    (hcall : ∀ (c : Call) (next : Reply c → Prog Reply ε α),
      around (.call c next) = .call c fun r => around (next r))
    {t t' : Prog Reply ε α × σ} (hreach : env.Reaches t t') :
    env.Reaches (around t.1, t.2) (around t'.1, t'.2) := by
  induction hreach with
  | refl => exact Relation.ReflTransGen.refl
  | tail _ hstep ih =>
      apply ih.tail
      cases hstep with
      | answer hanswer =>
          rw [hcall]
          exact .answer hanswer
      | move hmove => exact .move hmove

theorem Reaches.bind {p p' : Prog Reply ε α} {s s' : σ} (hreach : env.Reaches (p, s) (p', s'))
    (f : α → Prog Reply ε β) : env.Reaches (p >>= f, s) (p' >>= f, s') :=
  Reaches.around (· >>= f) (fun _ _ => rfl) hreach

theorem Reaches.tryCatch {p p' : Prog Reply ε α} {s s' : σ} (hreach : env.Reaches (p, s) (p', s'))
    (onError : ε → Prog Reply ε α) :
    env.Reaches (MonadExcept.tryCatch p onError, s) (MonadExcept.tryCatch p' onError, s') :=
  Reaches.around (MonadExcept.tryCatch · onError) (fun _ _ => rfl) hreach

end Surroundings

/-! ### Safety along a program -/

namespace Prog

variable {env : Surroundings Reply σ} {good : σ → Prop}

def Safe (env : Surroundings Reply σ) (good : σ → Prop) (post : Except ε α → σ → Prop) :
    Prog Reply ε α → σ → Prop
  | .pure a, s => ∀ s', env.Moved s s' → good s' ∧ post (.ok a) s'
  | .throw e, s => ∀ s', env.Moved s s' → good s' ∧ post (.error e) s'
  | .call c next, s => ∀ s', env.Moved s s' →
      good s' ∧ ∀ r s'', env.answers c s' r s'' → (next r).Safe env good post s''

variable {post : Except ε α → σ → Prop}

theorem safe_moved {p : Prog Reply ε α} {s s' : σ} (hmoved : env.Moved s s')
    (hp : p.Safe env good post s) : p.Safe env good post s' := by
  cases p <;> exact fun s'' hs'' => hp s'' (Relation.ReflTransGen.trans hmoved hs'')

theorem good_of_safe {p : Prog Reply ε α} {s : σ} (hp : p.Safe env good post s) : good s := by
  cases p <;> exact (hp s Relation.ReflTransGen.refl).1

/-- A safe program is safe wherever a run takes it. -/
theorem safe_of_reaches {t t' : Prog Reply ε α × σ} (hreach : env.Reaches t t')
    (hsafe : t.1.Safe env good post t.2) : t'.1.Safe env good post t'.2 := by
  induction hreach with
  | refl => exact hsafe
  | tail _ hstep ih =>
      cases hstep with
      | answer hanswer => exact (ih _ Relation.ReflTransGen.refl).2 _ _ hanswer
      | move hmove => exact safe_moved (Relation.ReflTransGen.single hmove) ih

theorem safe_pure {a : α} {s : σ}
    (hpost : ∀ s', env.Moved s s' → good s' ∧ post (.ok a) s') :
    Safe env good post (Pure.pure a) s := hpost

theorem safe_throw {e : ε} {s : σ}
    (hpost : ∀ s', env.Moved s s' → good s' ∧ post (.error e) s') :
    Safe env good post (MonadExcept.throw e : Prog Reply ε α) s := hpost

theorem safe_ask_bind {c : Call} {f : Reply c → Prog Reply ε α} {s : σ}
    (hcall : ∀ s', env.Moved s s' →
      good s' ∧ ∀ r s'', env.answers c s' r s'' → (f r).Safe env good post s'') :
    (ask c >>= f).Safe env good post s := hcall

theorem safe_mono {post' : Except ε α → σ → Prop} (hpost : ∀ r s, post r s → post' r s)
    {p : Prog Reply ε α} {s : σ} (hp : p.Safe env good post s) : p.Safe env good post' s := by
  induction p generalizing s with
  | pure a => exact fun s' hs' => ⟨(hp s' hs').1, hpost _ _ (hp s' hs').2⟩
  | throw e => exact fun s' hs' => ⟨(hp s' hs').1, hpost _ _ (hp s' hs').2⟩
  | call c next ih =>
      intro s' hs'
      exact ⟨(hp s' hs').1, fun r s'' hanswer => ih r ((hp s' hs').2 r s'' hanswer)⟩

theorem safe_bind {post : Except ε β → σ → Prop} {mid : Except ε α → σ → Prop}
    {p : Prog Reply ε α} {f : α → Prog Reply ε β} {s : σ} (hp : p.Safe env good mid s)
    (hok : ∀ a s', good s' → mid (.ok a) s' → (f a).Safe env good post s')
    (herror : ∀ e s', mid (.error e) s' → post (.error e) s') :
    (p >>= f).Safe env good post s := by
  change (p.bind f).Safe env good post s
  induction p generalizing s with
  | pure a =>
      obtain ⟨hgood, hmid⟩ := hp s Relation.ReflTransGen.refl
      exact hok a s hgood hmid
  | throw e => exact fun s' hs' => ⟨(hp s' hs').1, herror e s' (hp s' hs').2⟩
  | call c next ih =>
      intro s' hs'
      exact ⟨(hp s' hs').1, fun r s'' hanswer => ih r ((hp s' hs').2 r s'' hanswer)⟩

theorem safe_tryCatch (mid : Except ε α → σ → Prop) {p : Prog Reply ε α}
    {onError : ε → Prog Reply ε α} {s : σ} (hp : p.Safe env good mid s)
    (hok : ∀ a s', mid (.ok a) s' → post (.ok a) s')
    (herror : ∀ e s', good s' → mid (.error e) s' → (onError e).Safe env good post s') :
    (MonadExcept.tryCatch p onError).Safe env good post s := by
  change (p.tryCatch onError).Safe env good post s
  induction p generalizing s with
  | pure a => exact fun s' hs' => ⟨(hp s' hs').1, hok a s' (hp s' hs').2⟩
  | throw e =>
      obtain ⟨hgood, hmid⟩ := hp s Relation.ReflTransGen.refl
      exact herror e s hgood hmid
  | call c next ih =>
      intro s' hs'
      exact ⟨(hp s' hs').1, fun r s'' hanswer => ih r ((hp s' hs').2 r s'' hanswer)⟩

end Prog

end Interaction
