import Mathlib.Algebra.BigOperators.Group.Finset.Basic
import Mathlib.Algebra.Order.BigOperators.Group.Finset
import Mathlib.Data.Set.Finite.Basic

/-!
# Maps to lists without empty entries

A map from keys to lists that drops an entry with its last item, as a function to `Option`.
It is then fixed by the lists it is read as, where an absent key reads as the empty one
(`Pruned.eq_of_lists`), and it has no more keys than items (`Pruned.exists_keys`).
-/

open Function

variable {α β : Type*} {m m' : α → Option (List β)}

/-- The map has finitely many entries, and none of them is empty. -/
structure Pruned (m : α → Option (List β)) : Prop where
  ne_nil : ∀ a, m a ≠ some []
  finite : {a | m a ≠ none}.Finite

namespace Pruned

theorem empty : Pruned fun _ : α => (none : Option (List β)) :=
  ⟨fun _ => Option.some_ne_none [] |>.symm, by simp⟩

theorem update [DecidableEq α] (h : Pruned m) (a : α) {entry : Option (List β)}
    (hentry : entry ≠ some []) : Pruned (Function.update m a entry) := by
  refine ⟨fun b => ?_, (h.finite.insert a).subset fun b hb => ?_⟩
  · by_cases hb : b = a
    · rwa [hb, update_self]
    · rw [update_of_ne hb]
      exact h.ne_nil b
  · by_cases hba : b = a
    · exact Set.mem_insert_iff.2 (Or.inl hba)
    · rw [Set.mem_ofPred_eq, update_of_ne hba] at hb
      exact Set.mem_insert_of_mem a hb

theorem getD_ne_nil (h : Pruned m) {a : α} (ha : m a ≠ none) : (m a).getD [] ≠ [] := by
  obtain ⟨l, hl⟩ := Option.ne_none_iff_exists'.1 ha
  rw [hl, Option.getD_some]
  exact fun hnil => h.ne_nil a (hl.trans (congrArg some hnil))

/-- Two pruned maps that read the same are the same, keys included. -/
theorem eq_of_lists (h : Pruned m) (h' : Pruned m')
    (heq : ∀ a, (m a).getD [] = (m' a).getD []) : m = m' := by
  funext a
  have ha := heq a
  cases hm : m a with
  | none =>
    by_contra hne
    rw [hm, Option.getD_none] at ha
    exact h'.getD_ne_nil (Ne.symm hne) ha.symm
  | some l =>
    cases hm' : m' a with
    | none =>
      rw [hm', Option.getD_none] at ha
      exact absurd ha (h.getD_ne_nil (by simp [hm]))
    | some l' =>
      rw [hm, hm', Option.getD_some, Option.getD_some] at ha
      rw [ha]

/-- A pruned map has at most as many keys as there are items in its entries. -/
theorem exists_keys (h : Pruned m) : ∃ keys : Finset α, (∀ a, a ∈ keys ↔ m a ≠ none) ∧
    keys.card ≤ ∑ a ∈ keys, ((m a).getD []).length := by
  refine ⟨h.finite.toFinset, fun a => h.finite.mem_toFinset, ?_⟩
  rw [Finset.card_eq_sum_ones]
  refine Finset.sum_le_sum fun a ha => ?_
  exact List.length_pos_iff.2 (h.getD_ne_nil (h.finite.mem_toFinset.1 ha))

end Pruned
