import Mathlib.Data.List.Basic
import Mathlib.Order.Nat

/-!
# Splitting a list at an entry

A list given as `pre ++ a :: post` : its entry at the position of `a`, the list without
that entry, the first entry with a property, and a split read against another one.
-/

variable {α : Type*}

theorem eraseIdx_split {l : List α} {i : Fin l.length} {pre post : List α} {a : α}
    (hl : l = pre ++ a :: post) (hi : pre.length = i) :
    l.get i = a ∧ l.eraseIdx i = pre ++ post := by
  subst hl
  constructor
  · simp [← hi]
  · rw [← hi, List.eraseIdx_append_of_length_le le_rfl]
    simp

theorem take_get_drop (l : List α) (i : Fin l.length) :
    l = l.take i ++ l.get i :: l.drop (i + 1) := by
  conv_lhs => rw [← List.take_append_drop i l, List.drop_eq_getElem_cons i.isLt]
  rfl

/-- The first entry with `p` : the split at it, and the list without it. -/
theorem findFinIdx?_split {p : α → Bool} {l : List α} {i : Fin l.length}
    (h : l.findFinIdx? p = some i) : l = l.take i ++ l.get i :: l.drop (i + 1) ∧
      l.eraseIdx i = l.take i ++ l.drop (i + 1) ∧ p (l.get i) = true ∧
      ∀ x ∈ l.take i, p x = false := by
  obtain ⟨hp, hbefore⟩ := List.findFinIdx?_eq_some_iff.1 h
  have hlen : (l.take i).length = i := by simp [i.isLt.le]
  refine ⟨take_get_drop l i, (eraseIdx_split (take_get_drop l i) hlen).2, hp, fun x hx => ?_⟩
  obtain ⟨j, hj, rfl⟩ := List.getElem_of_mem hx
  have hji : j < i := by simpa [hlen] using hj
  have := hbefore ⟨j, hji.trans i.isLt⟩ hji
  simpa using this

/-- Two splits of one list : the marked entry of the second stands right or left of the
cut of the first. -/
theorem append_eq_append_cons {pre post pre' post' : List α} {a : α}
    (h : pre ++ post = pre' ++ a :: post') :
    (∃ mid, pre' = pre ++ mid ∧ post = mid ++ a :: post') ∨
      ∃ mid, pre = pre' ++ a :: mid ∧ post' = mid ++ post := by
  rcases List.append_eq_append_iff.1 h with ⟨mid, hpre', hpost⟩ | ⟨mid, hpre, hpost'⟩
  · exact Or.inl ⟨mid, hpre', hpost⟩
  · cases mid with
    | nil => exact Or.inl ⟨[], by simp [hpre], by simpa using hpost'.symm⟩
    | cons c mid =>
      obtain ⟨rfl, rfl⟩ := List.cons.inj hpost'
      exact Or.inr ⟨mid, hpre, rfl⟩

/-- The cut at the first `a` is unique. -/
theorem split_at_first {pre post pre' post' : List α} {a : α}
    (h : pre ++ a :: post = pre' ++ a :: post') (hpre : a ∉ pre) (hpre' : a ∉ pre') :
    pre = pre' ∧ post = post' := by
  rcases List.append_eq_append_iff.1 h with ⟨mid, rfl, hmid⟩ | ⟨mid, rfl, hmid⟩
  · cases mid with
    | nil => exact ⟨(List.append_nil _).symm, (List.cons.inj hmid).2⟩
    | cons c mid => exact absurd (by simp [(List.cons.inj hmid).1]) hpre'
  · cases mid with
    | nil => exact ⟨List.append_nil _, (List.cons.inj hmid).2.symm⟩
    | cons c mid => exact absurd (by simp [(List.cons.inj hmid).1]) hpre

/-- Where only the last entry has `p`, a split at an entry with `p` is the one at the end. -/
theorem split_at_last {p : α → Bool} {l pre post : List α} {a b : α} (h : l ++ [b] = pre ++ a :: post)
    (ha : p a = true) (hl : ∀ c ∈ l, p c = false) : l = pre ∧ b = a ∧ post = [] := by
  rcases append_eq_append_cons h with ⟨mid, rfl, hmid⟩ | ⟨mid, rfl, -⟩
  · cases mid with
    | nil =>
      obtain ⟨rfl, rfl⟩ := List.cons.inj hmid
      exact ⟨(List.append_nil l).symm, rfl, rfl⟩
    | cons c mid => simp at hmid
  · rw [hl a (by simp)] at ha
    cases ha

/-- Looking up and erasing the first entry with `p`, at a split there. -/
theorem find?_eraseP_split {p : α → Bool} {pre : List α} {a : α} (post : List α) (ha : p a = true)
    (hpre : ∀ b ∈ pre, p b = false) :
    (pre ++ a :: post).find? p = some a ∧ (pre ++ a :: post).eraseP p = pre ++ post := by
  induction pre with
  | nil => simp [ha]
  | cons b pre ih =>
    obtain ⟨hfind, herase⟩ := ih fun c hc => hpre c (List.mem_cons_of_mem b hc)
    have hb := hpre b List.mem_cons_self
    exact ⟨by simp only [List.cons_append, List.find?_cons, hb, hfind],
      by simp only [List.cons_append, List.eraseP_cons, hb, herase, cond_false]⟩
