import Mathlib.Init

/-!
# Loops that may not end

A `while (true)` is what one turn of it does: the turn goes on with a new state or leaves the loop
with a result. Such a loop ends when some number of turns is enough. An invariant says what a loop
that ends has got, a measure shows that it ends, and an invariant under which every turn goes on
shows that it does not.
-/

namespace Loop

variable {σ ρ : Type} (turn : σ → σ ⊕ ρ)

/-- At most so many turns. -/
def run : Nat → σ → Option ρ
  | 0, _ => none
  | turns + 1, s =>
      match turn s with
      | .inl s => run turns s
      | .inr r => some r

def Ends (s : σ) : Prop := ∃ turns r, run turn turns s = some r

variable {turn} {s s' : σ} {r : ρ}

theorem run_of_inl (hturn : turn s = .inl s') (turns : Nat) :
    run turn (turns + 1) s = run turn turns s' := by
  rw [run, hturn]

theorem run_of_inr (hturn : turn s = .inr r) (turns : Nat) :
    run turn (turns + 1) s = some r := by
  rw [run, hturn]

/-- What every result of a loop has, from what every state in it has. -/
theorem post_of_run (inv : σ → Prop) (post : ρ → Prop)
    (hgoes : ∀ s s', inv s → turn s = .inl s' → inv s')
    (hstops : ∀ s r, inv s → turn s = .inr r → post r) {turns : Nat} (hs : inv s)
    (hrun : run turn turns s = some r) : post r := by
  induction turns generalizing s with
  | zero => cases hrun
  | succ turns ih =>
      cases hturn : turn s with
      | inl s' =>
          rw [run_of_inl hturn] at hrun
          exact ih (hgoes s s' hs hturn) hrun
      | inr r' =>
          rw [run_of_inr hturn] at hrun
          cases hrun
          exact hstops s r hs hturn

theorem ends_of_measure (inv : σ → Prop) (measure : σ → Nat)
    (hgoes : ∀ s s', inv s → turn s = .inl s' → inv s' ∧ measure s' < measure s) (hs : inv s) :
    Ends turn s := by
  induction hn : measure s using Nat.strongRecOn generalizing s with
  | _ n ih =>
      cases hturn : turn s with
      | inl s' =>
          obtain ⟨hs', hless⟩ := hgoes s s' hs hturn
          obtain ⟨turns, r, hrun⟩ := ih (measure s') (hn ▸ hless) hs' rfl
          exact ⟨turns + 1, r, (run_of_inl hturn turns).trans hrun⟩
      | inr r => exact ⟨1, r, run_of_inr hturn 0⟩

theorem not_ends_of_goes (inv : σ → Prop) (hgoes : ∀ s, inv s → ∃ s', turn s = .inl s' ∧ inv s')
    (hs : inv s) : ¬ Ends turn s := by
  rintro ⟨turns, r, hrun⟩
  induction turns generalizing s with
  | zero => cases hrun
  | succ turns ih =>
      obtain ⟨s', hturn, hs'⟩ := hgoes s hs
      rw [run_of_inl hturn] at hrun
      exact ih hs' hrun

end Loop
