import Mathlib.Algebra.Order.Group.Defs
import Mathlib.Data.Option.Basic

/-!
# Leases

A key is live for a fixed time after it was last seen. A table may drop keys that are no longer
live, at any time and in any amount, since a key that is dropped would not be live later either. So
a table that drops and one that only looks agree about what is live.
-/

namespace Lease

variable {T : Type} [AddCommGroup T] [LinearOrder T] {ttl t t' now : T} {seen kept : Option T}

def Live (ttl t : T) (seen : Option T) : Prop := ∃ s, seen = some s ∧ t - s ≤ ttl

def Stale (ttl t : T) (seen : Option T) : Prop := ∃ s, seen = some s ∧ ttl < t - s

def expire (ttl t : T) (seen : Option T) : Option T :=
  seen.filter fun s => decide (t - s ≤ ttl)

/-- What a table kept of a key: when it was last seen, or nothing any more. -/
def Keeps (ttl t : T) (kept seen : Option T) : Prop :=
  kept = seen ∨ kept = none ∧ Stale ttl t seen

theorem not_live_none : ¬ Live ttl t none := by
  rintro ⟨s, hnone, -⟩
  cases hnone

theorem not_live_iff : ¬ Live ttl t seen ↔ seen = none ∨ Stale ttl t seen := by
  cases seen with
  | none => simp [Live]
  | some s => simp [Live, Stale]

theorem Stale.not_live (hstale : Stale ttl t seen) : ¬ Live ttl t seen :=
  not_live_iff.mpr (Or.inr hstale)

theorem expire_of_live (hlive : Live ttl t seen) : expire ttl t seen = seen := by
  obtain ⟨s, rfl, hs⟩ := hlive
  simp [expire, hs]

theorem expire_of_not_live (hdead : ¬ Live ttl t seen) : expire ttl t seen = none := by
  cases seen with
  | none => rfl
  | some s =>
      have hs : ¬ t - s ≤ ttl := fun hle => hdead ⟨s, rfl, hle⟩
      exact Option.filter_eq_none_iff.mpr fun x hx => by
        rw [← Option.some.inj hx]
        simpa using hs

theorem expire_of_not_stale (hfresh : ¬ Stale ttl t seen) : expire ttl t seen = seen := by
  by_cases hlive : Live ttl t seen
  · exact expire_of_live hlive
  · rcases not_live_iff.mp hlive with rfl | hstale
    · rfl
    · exact absurd hstale hfresh

theorem isSome_expire : (expire ttl t seen).isSome ↔ Live ttl t seen := by
  by_cases hlive : Live ttl t seen
  · obtain ⟨s, hseen, -⟩ := id hlive
    rw [expire_of_live hlive, hseen]
    exact iff_of_true rfl (hseen ▸ hlive)
  · rw [expire_of_not_live hlive]
    exact iff_of_false Bool.false_ne_true hlive

/-- Dropping what is not live changes nothing about what is. -/
@[simp]
theorem live_expire_iff : Live ttl t (expire ttl t seen) ↔ Live ttl t seen := by
  by_cases hlive : Live ttl t seen
  · rw [expire_of_live hlive]
  · rw [expire_of_not_live hlive]
    exact iff_of_false not_live_none hlive

theorem Keeps.refl (seen : Option T) : Keeps ttl t seen seen := Or.inl rfl

theorem Keeps.expire (hkeeps : Keeps ttl t kept seen) :
    Keeps ttl t (Lease.expire ttl t kept) seen := by
  rcases hkeeps with rfl | ⟨rfl, hstale⟩
  · by_cases hlive : Live ttl t kept
    · exact Or.inl (expire_of_live hlive)
    · rcases not_live_iff.mp hlive with rfl | hstale
      · exact Or.inl rfl
      · exact Or.inr ⟨expire_of_not_live hlive, hstale⟩
  · exact Or.inr ⟨rfl, hstale⟩

section Later

variable [IsOrderedAddMonoid T]

theorem Live.earlier (ht : t ≤ t') (hlive : Live ttl t' seen) : Live ttl t seen := by
  obtain ⟨s, hseen, hs⟩ := hlive
  exact ⟨s, hseen, le_trans (sub_le_sub_right ht s) hs⟩

theorem Stale.later (ht : t ≤ t') (hstale : Stale ttl t seen) : Stale ttl t' seen := by
  obtain ⟨s, hseen, hs⟩ := hstale
  exact ⟨s, hseen, lt_of_lt_of_le hs (sub_le_sub_right ht s)⟩

theorem Keeps.later (ht : t ≤ t') (hkeeps : Keeps ttl t kept seen) : Keeps ttl t' kept seen :=
  hkeeps.imp_right fun hdropped => ⟨hdropped.1, hdropped.2.later ht⟩

theorem Keeps.expire_both (ht : t ≤ t') (hkeeps : Keeps ttl t kept seen) :
    Keeps ttl t (Lease.expire ttl t' kept) (Lease.expire ttl t' seen) := by
  rcases hkeeps with rfl | ⟨rfl, hstale⟩
  · exact Keeps.refl _
  · rw [expire_of_not_live (hstale.later ht).not_live]
    exact Keeps.refl none

/-- A table that drops tells as well as one that does not what is live. -/
theorem Keeps.live_iff (ht : t ≤ now) (hkeeps : Keeps ttl t kept seen) :
    Live ttl now kept ↔ Live ttl now seen := by
  rcases hkeeps with rfl | ⟨rfl, hstale⟩
  · exact Iff.rfl
  · exact iff_of_false not_live_none (hstale.later ht).not_live

end Later

end Lease
