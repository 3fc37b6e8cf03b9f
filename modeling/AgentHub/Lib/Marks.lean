import Mathlib.Data.List.Basic
import Mathlib.Order.Nat

/-!
# Logs whose marks increase

Some entries of a log carry a mark, a number. The log of a system that passes through
stages, each new mark beyond the stage before it, has strictly increasing marks, none
beyond the present stage (`MarkedUpTo`). So an entry with a given mark occurs at most once
(`eq_of_mem`, `countP_le_one`), and of two entries the one with the smaller mark stands
first (`lt_of_split`).
-/

/-- Two entries of a log with the same mark are one when no mark comes twice. -/
theorem eq_of_nodup_filterMap {α β : Type*} {f : α → Option β} {l : List α}
    (h : (l.filterMap f).Nodup) {a b : α} {i : β} (ha : a ∈ l) (hb : b ∈ l) (hai : f a = some i)
    (hbi : f b = some i) : a = b := by
  obtain ⟨p, hp, rfl⟩ := List.getElem_of_mem ha
  obtain ⟨q, hq, rfl⟩ := List.getElem_of_mem hb
  have hpair := List.pairwise_iff_getElem.1 (List.pairwise_filterMap.1 h)
  rcases lt_trichotomy p q with hpq | rfl | hpq
  · exact absurd rfl (hpair p q hp hq hpq i hai i hbi)
  · rfl
  · exact absurd rfl (hpair q p hq hp hpq i hbi i hai)

variable {α : Type*} (mark : α → Option ℕ)

/-- The entries `o`, at most one of them marked, take the stage from `m` to `n`. -/
def Advances (m : ℕ) (o : List α) (n : ℕ) : Prop :=
  (o.filterMap mark = [] ∧ m ≤ n) ∨ ∃ i, o.filterMap mark = [i] ∧ m < i ∧ i ≤ n

/-- The marks of `l` strictly increase, and none is beyond `n`. -/
structure MarkedUpTo (l : List α) (n : ℕ) : Prop where
  increasing : l.Pairwise fun a b => ∀ i, mark a = some i → ∀ j, mark b = some j → i < j
  le : ∀ a ∈ l, ∀ i, mark a = some i → i ≤ n

namespace MarkedUpTo

variable {mark} {l o : List α} {m n i j : ℕ} {a b : α}

theorem nil : MarkedUpTo mark [] n :=
  ⟨.nil, by simp⟩

theorem of_advances (h : Advances mark m o n) :
    MarkedUpTo mark o n ∧ (∀ a ∈ o, ∀ i, mark a = some i → m < i) ∧ m ≤ n := by
  have hmem : ∀ a ∈ o, ∀ i, mark a = some i → i ∈ o.filterMap mark := fun a ha i hi =>
    List.mem_filterMap.2 ⟨a, ha, hi⟩
  have hpair : (o.filterMap mark).Pairwise (· < ·) := by
    rcases h with ⟨h, -⟩ | ⟨i, h, -⟩ <;> simp [h]
  refine ⟨⟨?_, ?_⟩, ?_, ?_⟩
  · exact (List.pairwise_filterMap.1 hpair).imp fun h i hi j hj => h i hi j hj
  · intro a ha i hi
    have := hmem a ha i hi
    rcases h with ⟨h, -⟩ | ⟨j, h, -, hj⟩
    · simp [h] at this
    · simp only [h, List.mem_singleton] at this
      omega
  · intro a ha i hi
    have := hmem a ha i hi
    rcases h with ⟨h, -⟩ | ⟨j, h, hj, -⟩
    · simp [h] at this
    · simp only [h, List.mem_singleton] at this
      omega
  · rcases h with ⟨-, h⟩ | ⟨i, -, h, h'⟩ <;> omega

theorem advance (h : MarkedUpTo mark l m) (ho : Advances mark m o n) :
    MarkedUpTo mark (l ++ o) n := by
  obtain ⟨hinc, habove, hmn⟩ := of_advances ho
  refine ⟨List.pairwise_append.2 ⟨h.increasing, hinc.increasing, fun a ha b hb i hi j hj => ?_⟩,
    fun a ha i hi => ?_⟩
  · exact (h.le a ha i hi).trans_lt (habove b hb j hj)
  · rcases List.mem_append.1 ha with ha | ha
    · exact (h.le a ha i hi).trans hmn
    · exact hinc.le a ha i hi

/-- What stands before a marked entry has a smaller mark. -/
theorem lt_of_split (h : MarkedUpTo mark l n) {pre post : List α} (hl : l = pre ++ a :: post)
    (ha : mark a = some i) (hb : b ∈ pre) (hbj : mark b = some j) : j < i := by
  have := h.increasing
  rw [hl, List.pairwise_append] at this
  exact this.2.2 b hb a (by simp) j hbj i ha

/-- Two entries of one mark are the same. -/
theorem eq_of_mem (h : MarkedUpTo mark l n) (ha : a ∈ l) (hb : b ∈ l) (hai : mark a = some i)
    (hbi : mark b = some i) : a = b :=
  eq_of_nodup_filterMap (List.pairwise_filterMap.2
    (h.increasing.imp fun hab i hi j hj => (hab i hi j hj).ne)) ha hb hai hbi

/-- Entries that all have one mark occur at most once. -/
theorem countP_le_one (h : MarkedUpTo mark l n) {p : α → Bool}
    (hp : ∀ a, p a = true → mark a = some i) : l.countP p ≤ 1 := by
  have hpair : (l.filter p).Pairwise fun _ _ => False :=
    (h.increasing.filter p).imp_of_mem fun ha hb hab =>
      lt_irrefl i (hab i (hp _ (List.mem_filter.1 ha).2) i (hp _ (List.mem_filter.1 hb).2))
  rw [List.countP_eq_length_filter]
  cases hl : l.filter p with
  | nil => simp
  | cons a l' =>
    cases l' with
    | nil => simp
    | cons b l'' =>
      rw [hl, List.pairwise_cons] at hpair
      exact (hpair.1 b (by simp)).elim

end MarkedUpTo
