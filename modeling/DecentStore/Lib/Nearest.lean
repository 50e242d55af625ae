import Mathlib.Data.List.Sort
import Mathlib.Data.List.Dedup

/-!
# The nearest of a list

The first `k` of a list sorted by a key. Where the key tells the members apart the order is total,
so any way of sorting gives the same list, and what it gives depends on the members alone.
-/

namespace Nearest

variable {α β : Type} (key : α → β)

/-- The key tells the members apart. -/
def Separates (l : List α) : Prop := ∀ a ∈ l, ∀ b ∈ l, key a = key b → a = b

variable [LinearOrder β]

def ranked (l : List α) : List α := l.insertionSort fun a b => key a ≤ key b

variable {key} {l l' : List α}

theorem mem_ranked {a : α} : a ∈ ranked key l ↔ a ∈ l := List.mem_insertionSort _

theorem length_ranked (key : α → β) (l : List α) : (ranked key l).length = l.length :=
  List.length_insertionSort _ l

theorem nodup_ranked (hnodup : l.Nodup) : (ranked key l).Nodup :=
  (List.perm_insertionSort _ l).nodup_iff.mpr hnodup

theorem ranked_pairwise_le (key : α → β) (l : List α) :
    (ranked key l).Pairwise fun a b => key a ≤ key b := by
  have htotal : Std.Total fun a b : α => key a ≤ key b := ⟨fun a b => le_total _ _⟩
  have htrans : IsTrans α fun a b => key a ≤ key b := ⟨fun _ _ _ => le_trans⟩
  exact List.pairwise_insertionSort _ l

theorem ranked_pairwise_lt (hsep : Separates key l) (hnodup : l.Nodup) :
    (ranked key l).Pairwise fun a b => key a < key b := by
  have hranked : (ranked key l).Nodup := nodup_ranked hnodup
  have hboth := (ranked_pairwise_le key l).and hranked
  refine hboth.imp_of_mem fun ha hb hle => ?_
  exact lt_of_le_of_ne hle.1 fun hsame =>
    hle.2 (hsep _ (mem_ranked.mp ha) _ (mem_ranked.mp hb) hsame)

/-- **Any sorted list of the members** is this one. -/
theorem ranked_unique (hsep : Separates key l) (hperm : l'.Perm l)
    (hsorted : l'.Pairwise fun a b => ¬ key b < key a) : l' = ranked key l := by
  refine (hperm.trans (List.perm_insertionSort _ l).symm).eq_of_pairwise ?_
    (hsorted.imp not_lt.mp) (ranked_pairwise_le key l)
  intro a b ha hb hab hba
  exact hsep a (hperm.mem_iff.mp ha) b (mem_ranked.mp hb) (le_antisymm hab hba)

/-- **Only the members count**, not their order. -/
theorem ranked_congr (hsep : Separates key l) (hnodup : l.Nodup) (hnodup' : l'.Nodup)
    (hmem : ∀ a, a ∈ l' ↔ a ∈ l) : ranked key l' = ranked key l := by
  have hperm : l'.Perm l := (List.perm_ext_iff_of_nodup hnodup' hnodup).mpr hmem
  refine ranked_unique hsep ((List.perm_insertionSort _ l').trans hperm) ?_
  exact (ranked_pairwise_le key l').imp not_lt.mpr

/-- What is left out is farther away. -/
theorem lt_of_left_out (hsep : Separates key l) (hnodup : l.Nodup) {k : Nat} {a b : α}
    (ha : a ∈ (ranked key l).take k) (hb : b ∈ l) (hout : b ∉ (ranked key l).take k) :
    key a < key b := by
  have hsorted := ranked_pairwise_lt hsep hnodup
  rw [← List.take_append_drop k (ranked key l)] at hsorted
  have hrest : b ∈ (ranked key l).drop k := by
    have hmem : b ∈ ranked key l := mem_ranked.mpr hb
    rw [← List.take_append_drop k (ranked key l)] at hmem
    exact (List.mem_append.mp hmem).resolve_left hout
  exact (List.pairwise_append.mp hsorted).2.2 a ha b hrest

/-! ### One more member -/

/-- The new member stands between the nearer ones and the farther ones. -/
theorem exists_ranked_insert {before after : List α} {a : α}
    (hsep : Separates key (a :: (before ++ after))) (hnodup : (a :: (before ++ after)).Nodup) :
    ∃ near far, ranked key (before ++ after) = near ++ far ∧
      ranked key (before ++ a :: after) = near ++ a :: far := by
  have hsame : ranked key (before ++ a :: after) = ranked key (a :: (before ++ after)) := by
    refine ranked_congr hsep hnodup (List.perm_middle.nodup_iff.mpr hnodup) fun b => ?_
    exact List.perm_middle.mem_iff
  have hsplit := List.takeWhile_append_dropWhile (p := fun b => decide ¬ key a ≤ key b)
    (l := ranked key (before ++ after))
  refine ⟨_, _, hsplit.symm, ?_⟩
  calc ranked key (before ++ a :: after)
      = (ranked key (before ++ after)).orderedInsert (fun a b => key a ≤ key b) a := hsame
    _ = _ := List.orderedInsert_eq_take_drop _ a _

/-- `l'` is `l`, or `a` is put in at one place of it, for which a list of `k` loses its last. -/
def Displaced (a : α) (k : Nat) (l l' : List α) : Prop :=
  l' = l ∨ ∃ near far, near ++ far = (if l.length = k then l.dropLast else l) ∧
    l' = near ++ a :: far

theorem displaced_take (a : α) (k : Nat) (near far : List α) :
    Displaced a k ((near ++ far).take k) ((near ++ a :: far).take k) := by
  by_cases hk : k ≤ near.length
  · refine Or.inl ?_
    rw [List.take_append_of_le_length hk, List.take_append_of_le_length hk]
  · obtain ⟨m, rfl⟩ : ∃ m, k = near.length + (m + 1) := ⟨k - near.length - 1, by omega⟩
    rw [List.take_length_add_append, List.take_length_add_append, List.take_succ_cons]
    refine Or.inr ⟨near, far.take m, ?_, rfl⟩
    by_cases hfull : m + 1 ≤ far.length
    · have hlength : (near ++ far.take (m + 1)).length = near.length + (m + 1) := by
        rw [List.length_append, List.length_take_of_le hfull]
      have hne : far.take (m + 1) ≠ [] := by
        refine List.ne_nil_of_length_pos ?_
        rw [List.length_take_of_le hfull]
        exact Nat.succ_pos m
      have hlast : (far.take (m + 1)).dropLast = far.take m := by
        rw [List.dropLast_eq_take, List.length_take_of_le hfull, List.take_take]
        exact congrArg (far.take ·) (by omega)
      rw [if_pos hlength, List.dropLast_append_of_ne_nil hne, hlast]
    · have hlength : (near ++ far.take (m + 1)).length ≠ near.length + (m + 1) := by
        rw [List.length_append, List.length_take]
        omega
      rw [if_neg hlength, List.take_of_length_le (by omega), List.take_of_length_le (by omega)]

end Nearest
