import Mathlib.Data.List.Infix

/-!
# Lines

A line is a list that ends with its one terminator `nl`. No part of a line that is cut off
before its end holds the terminator (`IsLine.notMem_of_isPrefix`), so a list begins with at most one
line (`IsLine.unique`).
-/

variable {α : Type*} {nl : α} {l l' t : List α}

/-- A list that ends with its one `nl`. -/
def IsLine (nl : α) (l : List α) : Prop :=
  ∃ pre, nl ∉ pre ∧ l = pre ++ [nl]

namespace IsLine

theorem mem (h : IsLine nl l) : nl ∈ l := by
  obtain ⟨pre, -, rfl⟩ := h
  exact List.mem_append_right _ (List.mem_singleton_self nl)

theorem count [DecidableEq α] (h : IsLine nl l) : l.count nl = 1 := by
  obtain ⟨pre, hpre, rfl⟩ := h
  rw [List.count_append, List.count_eq_zero_of_not_mem hpre, List.count_singleton_self]

/-- A line that is cut off has no terminator. -/
theorem notMem_of_isPrefix (h : IsLine nl l) (ht : t <+: l) (hne : t ≠ l) : nl ∉ t := by
  obtain ⟨pre, hpre, rfl⟩ := h
  rcases List.prefix_concat_iff.1 ht with rfl | ht
  · exact absurd rfl hne
  · exact fun hmem => hpre (ht.subset hmem)

/-- What a line begins with is a line only if it is all of it. -/
theorem eq_of_isPrefix (h : IsLine nl l) (h' : IsLine nl l') (hl : l <+: l') : l = l' := by
  by_contra hne
  exact h'.notMem_of_isPrefix hl hne h.mem

/-- A list begins with one line only. -/
theorem unique (h : IsLine nl l) (h' : IsLine nl l') (hl : l <+: t) (hl' : l' <+: t) : l = l' := by
  rcases List.prefix_or_prefix_of_prefix hl hl' with hp | hp
  · exact h.eq_of_isPrefix h' hp
  · exact (h'.eq_of_isPrefix h hp).symm

/-- Behind a line with a tail of no terminator there is no second one. -/
theorem count_append [DecidableEq α] (h : IsLine nl l) (ht : nl ∉ t) : (l ++ t).count nl = 1 := by
  rw [List.count_append, h.count, List.count_eq_zero_of_not_mem ht]

end IsLine
