import DecentStore.Lib.FileSystem

/-!
# Programs that are stopped

A program may be stopped at any time: between two calls, or in the middle of one, when a part of it
is done. `Prog.stopped` is what the environment looks like then. A property of every stop is proved
along the program, like its result: a sequence is stopped in its first part, or the first part is
done and it is stopped in the second.
-/

namespace Interaction

variable {Call : Type} {Reply : Call → Type} {ε α β σ : Type}

namespace Prog

/-- The state after `n` calls; the next one, if there is one, is cut short. -/
def stopped (h : Handler Reply σ) (cut : Call → σ → σ) : Nat → Prog Reply ε α → σ → σ
  | _, .pure _, s => s
  | _, .throw _, s => s
  | 0, .call c _, s => cut c s
  | n + 1, .call c next, s => (next (h c s).1).stopped h cut n (h c s).2

section Stopped

variable (h : Handler Reply σ) (cut : Call → σ → σ) (n : Nat) (s : σ)

@[simp]
theorem stopped_pure (a : α) : stopped h cut n (Pure.pure a : Prog Reply ε α) s = s := by
  cases n <;> rfl

@[simp]
theorem stopped_throw (e : ε) :
    stopped h cut n (MonadExcept.throw e : Prog Reply ε α) s = s := by
  cases n <;> rfl

theorem stopped_ask (c : Call) :
    stopped h cut n (ask c : Prog Reply ε (Reply c)) s =
      match n with
      | 0 => cut c s
      | _ + 1 => (h c s).2 := by
  cases n with
  | zero => rfl
  | succ n => exact stopped_pure h cut n (h c s).2 (h c s).1

theorem stopped_ask_bind (c : Call) (f : Reply c → Prog Reply ε α) :
    stopped h cut n (ask c >>= f) s =
      match n with
      | 0 => cut c s
      | n + 1 => stopped h cut n (f (h c s).1) (h c s).2 := by
  cases n <;> rfl

theorem stopped_bind (p : Prog Reply ε α) (f : α → Prog Reply ε β) :
    stopped h cut n (p >>= f) s = stopped h cut n p s ∨
      ∃ a s' m, p.run h s = (.ok a, s') ∧
        stopped h cut n (p >>= f) s = stopped h cut m (f a) s' := by
  change stopped h cut n (p.bind f) s = _ ∨ _
  induction p generalizing n s with
  | pure a => exact Or.inr ⟨a, s, n, rfl, rfl⟩
  | throw e => exact Or.inl (by cases n <;> rfl)
  | call c next ih =>
      cases n with
      | zero => exact Or.inl rfl
      | succ n => exact ih (h c s).1 n (h c s).2

end Stopped

/-- Wherever the program is stopped, this holds. -/
def Stops (h : Handler Reply σ) (cut : Call → σ → σ) (inv : σ → Prop) (p : Prog Reply ε α)
    (s : σ) : Prop :=
  ∀ n, inv (stopped h cut n p s)

section Stops

variable {h : Handler Reply σ} {cut : Call → σ → σ} {inv inv' : σ → Prop} {s : σ}

theorem stops_pure (hs : inv s) (a : α) : Stops h cut inv (Pure.pure a : Prog Reply ε α) s :=
  fun n => by rwa [stopped_pure]

theorem stops_throw (hs : inv s) (e : ε) :
    Stops h cut inv (MonadExcept.throw e : Prog Reply ε α) s :=
  fun n => by rwa [stopped_throw]

theorem stops_ask {c : Call} (hcut : inv (cut c s)) (hdone : inv (h c s).2) :
    Stops h cut inv (ask c : Prog Reply ε (Reply c)) s := by
  intro n
  rw [stopped_ask]
  cases n with
  | zero => exact hcut
  | succ n => exact hdone

theorem stops_bind {p : Prog Reply ε α} {f : α → Prog Reply ε β} (hp : Stops h cut inv p s)
    (hf : ∀ a s', p.run h s = (.ok a, s') → Stops h cut inv (f a) s') :
    Stops h cut inv (p >>= f) s := by
  intro n
  rcases stopped_bind h cut n s p f with hfirst | ⟨a, s', m, hrun, hrest⟩
  · rw [hfirst]
    exact hp n
  · rw [hrest]
    exact hf a s' hrun m

theorem stops_mono (hinv : ∀ s, inv s → inv' s) {p : Prog Reply ε α} (hp : Stops h cut inv p s) :
    Stops h cut inv' p s :=
  fun n => hinv _ (hp n)

end Stops

end Prog

end Interaction

namespace Posix

open Bytes

/-- A write that is cut short has written a part of its bytes; the other calls have no middle. -/
def FileSystem.cut (k : Nat) : FsCall → FileSystem → FileSystem
  | .append path data, fs => fs.append path (data.take k)
  | _, fs => fs

end Posix
