import Mathlib.Data.List.Basic
import Mathlib.Tactic.Common

/-!
# The first that counts

A search goes through a list: it passes some elements and stops at one. What stops it is the first
element that does not pass, so two ways to stop at the same elements are one.
-/

variable {α : Type}

/-- The list has an element that hits, and all before it pass. -/
def Until (passed hit : α → Prop) : List α → Prop
  | [] => False
  | a :: l => hit a ∨ passed a ∧ Until passed hit l

namespace Until

variable {passed passed' hit hit' : α → Prop} {l : List α}

instance decidable (passed hit : α → Prop) [DecidablePred passed] [DecidablePred hit] :
    (l : List α) → Decidable (Until passed hit l)
  | [] => isFalse id
  | _ :: l =>
      have : Decidable (Until passed hit l) := decidable passed hit l
      inferInstanceAs (Decidable (_ ∨ _ ∧ _))

theorem mono (hpassed : ∀ a ∈ l, passed a → passed' a) (hhit : ∀ a ∈ l, hit a → hit' a)
    (huntil : Until passed hit l) : Until passed' hit' l := by
  induction l with
  | nil => exact huntil
  | cons a l ih =>
      rcases huntil with hfirst | ⟨hpass, hrest⟩
      · exact Or.inl (hhit a List.mem_cons_self hfirst)
      · exact Or.inr ⟨hpassed a List.mem_cons_self hpass,
          ih (fun b hb => hpassed b (List.mem_cons_of_mem a hb))
            (fun b hb => hhit b (List.mem_cons_of_mem a hb)) hrest⟩

theorem exists_hit (huntil : Until passed hit l) : ∃ a ∈ l, hit a := by
  induction l with
  | nil => exact huntil.elim
  | cons a l ih =>
      rcases huntil with hfirst | ⟨-, hrest⟩
      · exact ⟨a, List.mem_cons_self, hfirst⟩
      · obtain ⟨b, hb, hhit⟩ := ih hrest
        exact ⟨b, List.mem_cons_of_mem a hb, hhit⟩

/-- Where everything passes, one that hits is enough. -/
theorem of_mem (hpassed : ∀ a ∈ l, passed a) {a : α} (ha : a ∈ l) (hhit : hit a) :
    Until passed hit l := by
  induction l with
  | nil => cases ha
  | cons b l ih =>
      rcases List.mem_cons.mp ha with rfl | ha
      · exact Or.inl hhit
      · exact Or.inr ⟨hpassed b List.mem_cons_self,
          ih (fun c hc => hpassed c (List.mem_cons_of_mem b hc)) ha⟩

theorem choose {β : Type} {hit : β → α → Prop} (huntil : Until passed (fun a => ∃ b, hit b a) l) :
    ∃ b, Until passed (hit b) l := by
  induction l with
  | nil => exact huntil.elim
  | cons a l ih =>
      rcases huntil with ⟨b, hhit⟩ | ⟨hpass, hrest⟩
      · exact ⟨b, Or.inl hhit⟩
      · obtain ⟨b, hb⟩ := ih hrest
        exact ⟨b, Or.inr ⟨hpass, hb⟩⟩

/-- What hits need not pass. -/
theorem or_hit : Until (fun a => passed a ∨ hit a) hit l ↔ Until passed hit l := by
  induction l with
  | nil => exact Iff.rfl
  | cons a l ih =>
      unfold Until
      rw [ih]
      tauto

/-- What passes the one search does not stop the other, and what stops the one does not pass. -/
theorem not_of_until (huntil : Until passed hit l) (hpassed : ∀ a ∈ l, passed a → ¬ hit' a)
    (hhit : ∀ a ∈ l, hit a → ¬ passed' a ∧ ¬ hit' a) : ¬ Until passed' hit' l := by
  induction l with
  | nil => exact id
  | cons a l ih =>
      rintro (hfirst' | ⟨hpass', hrest'⟩)
      · rcases huntil with hfirst | ⟨hpass, -⟩
        · exact (hhit a List.mem_cons_self hfirst).2 hfirst'
        · exact hpassed a List.mem_cons_self hpass hfirst'
      · rcases huntil with hfirst | ⟨-, hrest⟩
        · exact (hhit a List.mem_cons_self hfirst).1 hpass'
        · exact ih hrest (fun b hb => hpassed b (List.mem_cons_of_mem a hb))
            (fun b hb => hhit b (List.mem_cons_of_mem a hb)) hrest'

end Until
