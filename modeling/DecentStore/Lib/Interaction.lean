import Mathlib.Logic.Function.Basic
import Mathlib.Logic.Relation

/-!
# Programs that call their environment

A program is a tree: it returns, it throws, or it makes one call and goes on with the reply. What a
call does is said by a handler, apart from the program, so one program can be run against an honest
environment, an adversarial one or a failing one.

Two readings of a tree are given. `Prog.run` runs it alone from a state. `Prog.Holds` is a
rely-guarantee judgement: before each of the program's calls other parties may move the state along
`rely`, each of the program's own calls moves it along `guar`, and the result satisfies `post`.
`Pool` is the interleaving semantics, one call at a time, and `Pool.holds_of_reachable` carries the
judgement of every process to every reachable state of the pool.
-/

namespace Interaction

variable {Call : Type} {Reply : Call → Type} {ε α β σ : Type}

inductive Prog {Call : Type} (Reply : Call → Type) (ε α : Type) : Type where
  | pure (a : α)
  | throw (e : ε)
  | call (c : Call) (next : Reply c → Prog Reply ε α)

/-- What a call does to the environment's state, and what it answers. -/
abbrev Handler (Reply : Call → Type) (σ : Type) := (c : Call) → σ → Reply c × σ

namespace Prog

def bind : Prog Reply ε α → (α → Prog Reply ε β) → Prog Reply ε β
  | .pure a, f => f a
  | .throw e, _ => .throw e
  | .call c next, f => .call c fun r => (next r).bind f

def tryCatch : Prog Reply ε α → (ε → Prog Reply ε α) → Prog Reply ε α
  | .pure a, _ => .pure a
  | .throw e, onError => onError e
  | .call c next, onError => .call c fun r => (next r).tryCatch onError

/-- A handler of some exceptions; the others pass it. -/
def catching (caught : ε → Bool) (p : Prog Reply ε α) (onError : ε → Prog Reply ε α) :
    Prog Reply ε α :=
  p.tryCatch fun e => if caught e then onError e else .throw e

instance : Monad (Prog Reply ε) where
  pure := .pure
  bind := .bind

instance : MonadExcept ε (Prog Reply ε) where
  throw := .throw
  tryCatch := .tryCatch

def ask (c : Call) : Prog Reply ε (Reply c) := .call c .pure

def ofExcept : Except ε α → Prog Reply ε α
  | .ok a => .pure a
  | .error e => .throw e

@[simp]
theorem pure_bind (a : α) (f : α → Prog Reply ε β) : (Pure.pure a >>= f) = f a := rfl

@[simp]
theorem throw_bind (e : ε) (f : α → Prog Reply ε β) :
    ((MonadExcept.throw e : Prog Reply ε α) >>= f) = MonadExcept.throw e := rfl

@[simp]
theorem ofExcept_ok_bind (a : α) (f : α → Prog Reply ε β) : (ofExcept (.ok a) >>= f) = f a := rfl

@[simp]
theorem ofExcept_error_bind (e : ε) (f : α → Prog Reply ε β) :
    ((ofExcept (.error e) : Prog Reply ε α) >>= f) = MonadExcept.throw e := rfl

/-- What is left of a result behind a handler that goes on with `a`. -/
def handled (caught : ε → Bool) (a : α) : Except ε α → Except ε α
  | .ok b => .ok b
  | .error e => if caught e then .ok a else .error e

theorem catching_ofExcept (caught : ε → Bool) (r : Except ε α) (a : α) :
    (ofExcept r : Prog Reply ε α).catching caught (fun _ => .pure a) =
      ofExcept (handled caught a r) := by
  cases r with
  | ok b => rfl
  | error e =>
      change (if caught e then Prog.pure a else Prog.throw e) =
        ofExcept (if caught e then .ok a else .error e)
      split <;> rfl

theorem ofExcept_handled_bind (caught : ε → Bool) (a : α) (e : ε) (f : α → Prog Reply ε β) :
    (ofExcept (handled caught a (.error e)) >>= f) = if caught e then f a else .throw e := by
  change (ofExcept (if caught e then .ok a else .error e) >>= f) = _
  split <;> rfl

theorem handled_error {caught : ε → Bool} {a : α} {r : Except ε α} {e : ε}
    (hr : handled caught a r = .error e) : r = .error e ∧ caught e = false := by
  cases r with
  | ok b => cases hr
  | error e' =>
      change (if caught e' then .ok a else .error e') = Except.error e at hr
      split at hr
      · cases hr
      · rename_i hcaught
        cases hr
        exact ⟨rfl, Bool.eq_false_iff.mpr hcaught⟩

theorem of_handled_none {caught : ε → Bool} {r : Except ε (Option α)} {a : α}
    (hr : handled caught none r = .ok (some a)) : r = .ok (some a) := by
  cases r with
  | ok b => exact hr
  | error e =>
      change (if caught e then .ok none else .error e) = Except.ok (some a) at hr
      split at hr <;> cases hr

theorem bind_assoc {γ : Type} (p : Prog Reply ε α) (f : α → Prog Reply ε β)
    (g : β → Prog Reply ε γ) : (p >>= f) >>= g = p >>= fun a => f a >>= g := by
  change (p.bind f).bind g = p.bind fun a => (f a).bind g
  induction p with
  | pure a => rfl
  | throw e => rfl
  | call c next ih => exact congrArg (Prog.call c) (funext ih)

/-! ### Running alone -/

def run (h : Handler Reply σ) : Prog Reply ε α → σ → Except ε α × σ
  | .pure a, s => (.ok a, s)
  | .throw e, s => (.error e, s)
  | .call c next, s => (next (h c s).1).run h (h c s).2

section Run

variable (h : Handler Reply σ) (s : σ)

@[simp]
theorem run_pure (a : α) : (Pure.pure a : Prog Reply ε α).run h s = (.ok a, s) := rfl

@[simp]
theorem run_throw (e : ε) : (MonadExcept.throw e : Prog Reply ε α).run h s = (.error e, s) := rfl

@[simp]
theorem run_ask (c : Call) :
    (ask c : Prog Reply ε (Reply c)).run h s = (.ok (h c s).1, (h c s).2) := rfl

@[simp]
theorem run_ofExcept_ok (a : α) : (ofExcept (.ok a) : Prog Reply ε α).run h s = (.ok a, s) := rfl

@[simp]
theorem run_ofExcept_error (e : ε) :
    (ofExcept (.error e) : Prog Reply ε α).run h s = (.error e, s) := rfl

theorem run_bind (p : Prog Reply ε α) (f : α → Prog Reply ε β) :
    (p >>= f).run h s = match p.run h s with
      | (.ok a, s') => (f a).run h s'
      | (.error e, s') => (.error e, s') := by
  change (p.bind f).run h s = _
  induction p generalizing s with
  | pure a => rfl
  | throw e => rfl
  | call c next ih => exact ih (h c s).1 (h c s).2

theorem run_tryCatch (p : Prog Reply ε α) (onError : ε → Prog Reply ε α) :
    (MonadExcept.tryCatch p onError).run h s = match p.run h s with
      | (.ok a, s') => (.ok a, s')
      | (.error e, s') => (onError e).run h s' := by
  change (p.tryCatch onError).run h s = _
  induction p generalizing s with
  | pure a => rfl
  | throw e => rfl
  | call c next ih => exact ih (h c s).1 (h c s).2

theorem run_catching (caught : ε → Bool) (p : Prog Reply ε α) (onError : ε → Prog Reply ε α) :
    (p.catching caught onError).run h s = match p.run h s with
      | (.ok a, s') => (.ok a, s')
      | (.error e, s') => if caught e then (onError e).run h s' else (.error e, s') := by
  refine (run_tryCatch h s p _).trans ?_
  split
  · rfl
  · split <;> rfl

variable {h s}

theorem run_bind_of_ok {p : Prog Reply ε α} {a : α} {s' : σ} (hp : p.run h s = (.ok a, s'))
    (f : α → Prog Reply ε β) : (p >>= f).run h s = (f a).run h s' := by
  rw [run_bind, hp]

theorem run_bind_of_error {p : Prog Reply ε α} {e : ε} {s' : σ} (hp : p.run h s = (.error e, s'))
    (f : α → Prog Reply ε β) : (p >>= f).run h s = (.error e, s') := by
  rw [run_bind, hp]

theorem run_bind_ok {p : Prog Reply ε α} {f : α → Prog Reply ε β} {b : β} {s'' : σ}
    (hrun : (p >>= f).run h s = (.ok b, s'')) :
    ∃ a s', p.run h s = (.ok a, s') ∧ (f a).run h s' = (.ok b, s'') := by
  rw [run_bind] at hrun
  split at hrun
  · rename_i a s' hp
    exact ⟨a, s', hp, hrun⟩
  · simp at hrun

end Run

/-! ### Programs of some calls only -/

/-- Every call that the program makes is of this kind. -/
def Only (kind : Call → Prop) : Prog Reply ε α → Prop
  | .pure _ => True
  | .throw _ => True
  | .call c next => kind c ∧ ∀ r, (next r).Only kind

section Only

variable {kind : Call → Prop}

theorem only_ask {c : Call} (hc : kind c) : Only kind (ask c : Prog Reply ε (Reply c)) :=
  ⟨hc, fun _ => trivial⟩

theorem only_ofExcept (r : Except ε α) : Only kind (ofExcept r : Prog Reply ε α) := by
  cases r <;> trivial

theorem only_bind {p : Prog Reply ε α} {f : α → Prog Reply ε β} (hp : p.Only kind)
    (hf : ∀ a, (f a).Only kind) : (p >>= f).Only kind := by
  change (p.bind f).Only kind
  induction p with
  | pure a => exact hf a
  | throw e => trivial
  | call c next ih => exact ⟨hp.1, fun r => ih r (hp.2 r)⟩

theorem Only.keeps {h : Handler Reply σ} (inv : σ → Prop)
    (hinv : ∀ c s, kind c → inv s → inv (h c s).2) {p : Prog Reply ε α} (hp : p.Only kind) {s : σ}
    (hs : inv s) : inv (p.run h s).2 := by
  induction p generalizing s with
  | pure a => exact hs
  | throw e => exact hs
  | call c next ih => exact ih (h c s).1 (hp.2 _) (hinv c s hp.1 hs)

end Only

/-! ### Running among others -/

def Holds (h : Handler Reply σ) (rely guar : σ → σ → Prop) (post : Except ε α → σ → Prop) :
    Prog Reply ε α → σ → Prop
  | .pure a, s => post (.ok a) s
  | .throw e, s => post (.error e) s
  | .call c next, s => ∀ s', rely s s' →
      guar s' (h c s').2 ∧ (next (h c s').1).Holds h rely guar post (h c s').2

section Holds

variable {h : Handler Reply σ} {rely guar : σ → σ → Prop}

theorem holds_mono {post post' : Except ε α → σ → Prop} (hpost : ∀ r s, post r s → post' r s)
    {p : Prog Reply ε α} {s : σ} (hp : p.Holds h rely guar post s) :
    p.Holds h rely guar post' s := by
  induction p generalizing s with
  | pure a => exact hpost _ _ hp
  | throw e => exact hpost _ _ hp
  | call c next ih => exact fun s' hs' => ⟨(hp s' hs').1, ih _ (hp s' hs').2⟩

theorem holds_bind {mid : Except ε α → σ → Prop} {post : Except ε β → σ → Prop}
    {p : Prog Reply ε α} {f : α → Prog Reply ε β} {s : σ} (hp : p.Holds h rely guar mid s)
    (hok : ∀ a s', mid (.ok a) s' → (f a).Holds h rely guar post s')
    (herror : ∀ e s', mid (.error e) s' → post (.error e) s') :
    (p >>= f).Holds h rely guar post s := by
  change (p.bind f).Holds h rely guar post s
  induction p generalizing s with
  | pure a => exact hok a s hp
  | throw e => exact herror e s hp
  | call c next ih =>
      intro s' hs'
      exact ⟨(hp s' hs').1, ih (h c s').1 (hp s' hs').2⟩

theorem holds_of_rely (htrans : ∀ a b c, rely a b → rely b c → rely a c)
    {post : Except ε α → σ → Prop} (hstable : ∀ r s s', rely s s' → post r s → post r s')
    {p : Prog Reply ε α} {s s' : σ} (hrely : rely s s') (hp : p.Holds h rely guar post s) :
    p.Holds h rely guar post s' := by
  cases p with
  | pure a => exact hstable _ _ _ hrely hp
  | throw e => exact hstable _ _ _ hrely hp
  | call c next => exact fun s'' hs'' => hp s'' (htrans _ _ _ hrely hs'')

/-- Running alone is running among others who do nothing. -/
theorem post_of_holds (hrefl : ∀ s, rely s s) {post : Except ε α → σ → Prop}
    {p : Prog Reply ε α} {s : σ} (hp : p.Holds h rely guar post s) :
    post (p.run h s).1 (p.run h s).2 := by
  induction p generalizing s with
  | pure a => exact hp
  | throw e => exact hp
  | call c next ih => exact ih (h c s).1 (hp s (hrefl s)).2

end Holds

end Prog

/-! ### Interleaving -/

/-- Processes over one shared state, each with a state of its own. -/
structure Pool (Reply : Call → Type) (ε α σ τ ι : Type) where
  shared : σ
  procs : ι → Prog Reply ε α × τ

namespace Pool

variable {τ ι : Type} [DecidableEq ι] {h : Handler Reply (σ × τ)}

inductive Step (h : Handler Reply (σ × τ)) :
    Pool Reply ε α σ τ ι → Pool Reply ε α σ τ ι → Prop where
  | call {pool : Pool Reply ε α σ τ ι} (i : ι) (c : Call) (next : Reply c → Prog Reply ε α)
      (hcall : (pool.procs i).1 = .call c next) :
      Step h pool
        { shared := (h c (pool.shared, (pool.procs i).2)).2.1
          procs := Function.update pool.procs i
            (next (h c (pool.shared, (pool.procs i).2)).1,
              (h c (pool.shared, (pool.procs i).2)).2.2) }

def Reachable (h : Handler Reply (σ × τ)) :
    Pool Reply ε α σ τ ι → Pool Reply ε α σ τ ι → Prop :=
  Relation.ReflTransGen (Step h)

/-- The others move the shared part of a process's state only. -/
def Others (move : σ → σ → Prop) (s s' : σ × τ) : Prop := move s.1 s'.1 ∧ s'.2 = s.2

def Own (move : σ → σ → Prop) (s s' : σ × τ) : Prop := move s.1 s'.1

variable {move : σ → σ → Prop}

def AllHold (h : Handler Reply (σ × τ)) (move : σ → σ → Prop)
    (post : ι → Except ε α → σ × τ → Prop) (pool : Pool Reply ε α σ τ ι) : Prop :=
  ∀ i, (pool.procs i).1.Holds h (Others move) (Own move) (post i) (pool.shared, (pool.procs i).2)

theorem step_allHold (hrefl : ∀ s, move s s) (htrans : ∀ a b c, move a b → move b c → move a c)
    {post : ι → Except ε α → σ × τ → Prop}
    (hstable : ∀ i r s s', Others move s s' → post i r s → post i r s')
    {pool pool' : Pool Reply ε α σ τ ι} (hstep : Step h pool pool')
    (hall : AllHold h move post pool) :
    move pool.shared pool'.shared ∧ AllHold h move post pool' := by
  cases hstep with
  | call i c next hcall =>
      have hi := hall i
      rw [hcall] at hi
      obtain ⟨hguar, hnext⟩ := hi _ ⟨hrefl _, rfl⟩
      refine ⟨hguar, fun j => ?_⟩
      by_cases hji : j = i
      · subst hji
        simpa using hnext
      · have hothers : Others move (pool.shared, (pool.procs j).2)
            ((h c (pool.shared, (pool.procs i).2)).2.1, (pool.procs j).2) := ⟨hguar, rfl⟩
        have hj := Prog.holds_of_rely
          (fun a b c hab hbc => ⟨htrans _ _ _ hab.1 hbc.1, hbc.2.trans hab.2⟩)
          (hstable j) hothers (hall j)
        simpa [Function.update_of_ne hji] using hj

/-- **Rely-guarantee soundness.** If every process meets its judgement at the start, every process
meets it in every reachable state, and the shared state has only moved along `move`. -/
theorem holds_of_reachable (hrefl : ∀ s, move s s)
    (htrans : ∀ a b c, move a b → move b c → move a c)
    {post : ι → Except ε α → σ × τ → Prop}
    (hstable : ∀ i r s s', Others move s s' → post i r s → post i r s')
    {pool pool' : Pool Reply ε α σ τ ι} (hreach : Reachable h pool pool')
    (hall : AllHold h move post pool) :
    move pool.shared pool'.shared ∧ AllHold h move post pool' := by
  induction hreach with
  | refl => exact ⟨hrefl _, hall⟩
  | tail _ hstep ih =>
      have hlast := step_allHold hrefl htrans hstable hstep ih.2
      exact ⟨htrans _ _ _ ih.1 hlast.1, hlast.2⟩

/-- What a process and the others do together is a move. -/
theorem holds_moves (hrefl : ∀ s, move s s) (htrans : ∀ a b c, move a b → move b c → move a c)
    {post : Except ε α → σ × τ → Prop} {p : Prog Reply ε α} {s : σ × τ}
    (hp : p.Holds h (Others move) (Own move) post s) :
    p.Holds h (Others move) (Own move) (fun r s' => post r s' ∧ move s.1 s'.1) s := by
  induction p generalizing s with
  | pure a => exact ⟨hp, hrefl _⟩
  | throw e => exact ⟨hp, hrefl _⟩
  | call c next ih =>
      intro s' hs'
      obtain ⟨hguar, hnext⟩ := hp s' hs'
      refine ⟨hguar, Prog.holds_mono ?_ (ih _ hnext)⟩
      rintro r s'' ⟨hpost, hmoved⟩
      exact ⟨hpost, htrans _ _ _ hs'.1 (htrans _ _ _ hguar hmoved)⟩

/-! ### A guest of a pool -/

/-- A program outside the pool runs to its end, and before each of its calls the processes take any
number of steps. -/
inductive Guest (h : Handler Reply (σ × τ)) : Pool Reply ε α σ τ ι → Prog Reply ε β → τ →
    Except ε β → σ × τ → Prop where
  | pure {pool : Pool Reply ε α σ τ ι} {own : τ} (b : β) :
      Guest h pool (.pure b) own (.ok b) (pool.shared, own)
  | throw {pool : Pool Reply ε α σ τ ι} {own : τ} (e : ε) :
      Guest h pool (.throw e) own (.error e) (pool.shared, own)
  | call {pool pool' : Pool Reply ε α σ τ ι} {own : τ} {c : Call} {next : Reply c → Prog Reply ε β}
      {r : Except ε β} {s : σ × τ} (hreach : Reachable h pool pool')
      (hrest : Guest h { pool' with shared := (h c (pool'.shared, own)).2.1 }
        (next (h c (pool'.shared, own)).1) (h c (pool'.shared, own)).2.2 r s) :
      Guest h pool (.call c next) own r s

theorem Guest.post_of_holds (hrefl : ∀ s, move s s)
    (htrans : ∀ a b c, move a b → move b c → move a c)
    {post : ι → Except ε α → σ × τ → Prop}
    (hstable : ∀ i r s s', Others move s s' → post i r s → post i r s')
    {pool : Pool Reply ε α σ τ ι} (hall : AllHold h move post pool) {guest : Prog Reply ε β}
    {own : τ} {guestPost : Except ε β → σ × τ → Prop} {r : Except ε β} {s : σ × τ}
    (hguest : guest.Holds h (Others move) (Own move) guestPost (pool.shared, own))
    (hrun : Guest h pool guest own r s) : guestPost r s := by
  induction hrun with
  | pure b => exact hguest
  | throw e => exact hguest
  | @call pool pool' own c next r s hreach hrest ih =>
      obtain ⟨hmoved, hall'⟩ := holds_of_reachable hrefl htrans hstable hreach hall
      obtain ⟨hguar, hnext⟩ := hguest (pool'.shared, own) ⟨hmoved, rfl⟩
      refine ih (fun i => ?_) hnext
      have hothers : Others move (pool'.shared, (pool'.procs i).2)
          ((h c (pool'.shared, own)).2.1, (pool'.procs i).2) := ⟨hguar, rfl⟩
      exact Prog.holds_of_rely
        (fun a b c hab hbc => ⟨htrans _ _ _ hab.1 hbc.1, hbc.2.trans hab.2⟩)
        (hstable i) hothers (hall' i)

theorem Guest.run (pool : Pool Reply ε α σ τ ι) (guest : Prog Reply ε β) (own : τ) :
    Guest h pool guest own (guest.run h (pool.shared, own)).1
      (guest.run h (pool.shared, own)).2 := by
  induction guest generalizing pool own with
  | pure b => exact .pure b
  | throw e => exact .throw e
  | call c next ih =>
      refine .call Relation.ReflTransGen.refl ?_
      exact ih (h c (pool.shared, own)).1
        { pool with shared := (h c (pool.shared, own)).2.1 } (h c (pool.shared, own)).2.2

end Pool

end Interaction
