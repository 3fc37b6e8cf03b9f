import Mathlib.Data.List.Nodup
import Mathlib.Data.List.Perm.Basic

/-!
# Items kept in places

`held p` are the items a place holds, in some order, and `key` tells instances apart. What
one step does to the places is a `Transfer` : nothing, an item that enters at one place, or
an item that moves from one place to another. Transfers keep every instance in one place
(`Exclusive.transfer`), once a new one is new to all places, and lose none
(`Transfer.mem_iff`).
-/

variable {P τ κ : Type*}

/-- The step from `held` to `held'` brings in the items `new` and loses none. -/
inductive Transfer (held held' : P → List τ) : List τ → Prop
  | same (h : ∀ p, (held' p).Perm (held p)) : Transfer held held' []
  | enter (q : P) (x : τ) (hq : (held' q).Perm (x :: held q))
      (h : ∀ r, r ≠ q → (held' r).Perm (held r)) : Transfer held held' [x]
  | move (p q : P) (x : τ) (hne : p ≠ q) (hp : (held p).Perm (x :: held' p))
      (hq : (held' q).Perm (x :: held q)) (h : ∀ r, r ≠ p → r ≠ q → (held' r).Perm (held r)) :
      Transfer held held' []

variable (key : τ → κ)

/-- Every instance is held once, and in one place. -/
structure Exclusive (held : P → List τ) : Prop where
  once : ∀ p, ((held p).map key).Nodup
  apart : ∀ p q x y, x ∈ held p → y ∈ held q → key x = key y → p = q

variable {key} {held held' : P → List τ} {new : List τ}

/-- A transfer loses no item and brings in the new ones only. -/
theorem Transfer.mem_iff (h : Transfer held held' new) (y : τ) :
    (∃ p, y ∈ held' p) ↔ (∃ p, y ∈ held p) ∨ y ∈ new := by
  cases h with
  | same h => simp [(h _).mem_iff]
  | enter q x hq h =>
    rw [List.mem_singleton]
    constructor
    · rintro ⟨r, hr⟩
      by_cases hrq : r = q
      · rw [hrq, hq.mem_iff, List.mem_cons] at hr
        exact hr.symm.imp (fun hy => ⟨q, hy⟩) id
      · exact Or.inl ⟨r, (h r hrq).mem_iff.1 hr⟩
    · rintro (⟨r, hr⟩ | rfl)
      · by_cases hrq : r = q
        · exact ⟨q, hq.mem_iff.2 (List.mem_cons_of_mem x (hrq ▸ hr))⟩
        · exact ⟨r, (h r hrq).mem_iff.2 hr⟩
      · exact ⟨q, hq.mem_iff.2 List.mem_cons_self⟩
  | move p q x hne hp hq h =>
    simp only [List.not_mem_nil, or_false]
    constructor
    · rintro ⟨r, hr⟩
      by_cases hrq : r = q
      · rw [hrq, hq.mem_iff, List.mem_cons] at hr
        rcases hr with rfl | hr
        · exact ⟨p, hp.mem_iff.2 List.mem_cons_self⟩
        · exact ⟨q, hr⟩
      by_cases hrp : r = p
      · exact ⟨p, hp.mem_iff.2 (List.mem_cons_of_mem x (hrp ▸ hr))⟩
      · exact ⟨r, (h r hrp hrq).mem_iff.1 hr⟩
    · rintro ⟨r, hr⟩
      by_cases hrp : r = p
      · rw [hrp, hp.mem_iff, List.mem_cons] at hr
        rcases hr with rfl | hr
        · exact ⟨q, hq.mem_iff.2 List.mem_cons_self⟩
        · exact ⟨p, hr⟩
      by_cases hrq : r = q
      · exact ⟨q, hq.mem_iff.2 (List.mem_cons_of_mem x (hrq ▸ hr))⟩
      · exact ⟨r, (h r hrp hrq).mem_iff.2 hr⟩

namespace Exclusive

/-- Dropping items keeps the others apart. -/
theorem sublist (h : Exclusive key held) (hsub : ∀ p, (held' p).Sublist (held p)) :
    Exclusive key held' :=
  ⟨fun p => (h.once p).sublist ((hsub p).map key), fun p q x y hx hy hxy =>
    h.apart p q x y ((hsub p).subset hx) ((hsub q).subset hy) hxy⟩

theorem congr (h : Exclusive key held) (hperm : ∀ p, (held' p).Perm (held p)) :
    Exclusive key held' :=
  ⟨fun p => ((hperm p).map key).nodup_iff.2 (h.once p), fun p q x y hx hy hxy =>
    h.apart p q x y ((hperm p).mem_iff.1 hx) ((hperm q).mem_iff.1 hy) hxy⟩

theorem enter (h : Exclusive key held) {q : P} {x : τ} (hq : (held' q).Perm (x :: held q))
    (hrest : ∀ r, r ≠ q → (held' r).Perm (held r)) (hfresh : ∀ p, ∀ y ∈ held p, key y ≠ key x) :
    Exclusive key held' where
  once r := by
    by_cases hr : r = q
    · rw [hr, (hq.map key).nodup_iff, List.map_cons, List.nodup_cons]
      refine ⟨fun hmem => ?_, h.once q⟩
      obtain ⟨y, hy, hyx⟩ := List.mem_map.1 hmem
      exact hfresh q y hy hyx
    · exact ((hrest r hr).map key).nodup_iff.2 (h.once r)
  apart r r' y z hy hz hyz := by
    have hmem : ∀ r y, y ∈ held' r → y ∈ held r ∨ r = q ∧ y = x := by
      intro r y hy
      by_cases hr : r = q
      · rw [hr, hq.mem_iff, List.mem_cons] at hy
        exact hy.elim (fun h => Or.inr ⟨hr, h⟩) fun h => Or.inl (hr ▸ h)
      · exact Or.inl ((hrest r hr).mem_iff.1 hy)
    rcases hmem r y hy with hy | ⟨rfl, rfl⟩ <;> rcases hmem r' z hz with hz | ⟨rfl, rfl⟩
    · exact h.apart r r' y z hy hz hyz
    · exact absurd hyz (hfresh r y hy)
    · exact absurd hyz.symm (hfresh r' z hz)
    · rfl

/-- A move takes the instance out of its place before it enters the other one. -/
theorem move (h : Exclusive key held) {p q : P} {x : τ} (hne : p ≠ q)
    (hp : (held p).Perm (x :: held' p)) (hq : (held' q).Perm (x :: held q))
    (hrest : ∀ r, r ≠ p → r ≠ q → (held' r).Perm (held r)) : Exclusive key held' := by
  classical
  have hnodup : ((x :: held' p).map key).Nodup := (hp.map key).nodup_iff.1 (h.once p)
  rw [List.map_cons, List.nodup_cons] at hnodup
  have hx : x ∈ held p := hp.mem_iff.2 List.mem_cons_self
  -- the places with the instance taken out
  let out : P → List τ := fun r => if r = p then held' p else held r
  have hout : ∀ r, r ≠ p → out r = held r := fun r hr => if_neg hr
  have houtp : out p = held' p := if_pos rfl
  have hsub : ∀ r, ∀ y ∈ out r, y ∈ held r ∧ key y ≠ key x := by
    intro r y hy
    by_cases hr : r = p
    · rw [hr, houtp] at hy
      exact ⟨hr ▸ hp.mem_iff.2 (List.mem_cons_of_mem x hy), fun heq =>
        hnodup.1 (heq ▸ List.mem_map_of_mem hy)⟩
    · rw [hout r hr] at hy
      exact ⟨hy, fun heq => hr (h.apart r p y x hy hx heq)⟩
  have hexcl : Exclusive key out := by
    refine ⟨fun r => ?_, fun r r' y z hy hz => h.apart r r' y z (hsub r y hy).1 (hsub r' z hz).1⟩
    by_cases hr : r = p
    · rw [hr, houtp]
      exact hnodup.2
    · rw [hout r hr]
      exact h.once r
  refine hexcl.enter (q := q) (x := x) ?_ (fun r hr => ?_) fun r y hy => (hsub r y hy).2
  · rwa [hout q hne.symm]
  · by_cases hrp : r = p
    · rw [hrp, houtp]
    · rw [hout r hrp]
      exact hrest r hrp hr

/-- Transfers keep every instance in one place. -/
theorem transfer (h : Exclusive key held) (ht : Transfer held held' new)
    (hfresh : ∀ x ∈ new, ∀ p, ∀ y ∈ held p, key y ≠ key x) : Exclusive key held' := by
  cases ht with
  | same hsame => exact h.congr hsame
  | enter q x hq hrest => exact h.enter hq hrest (hfresh x (by simp))
  | move p q x hne hp hq hrest => exact h.move hne hp hq hrest

/-- In its place an instance is held once. -/
theorem eq_of_mem (h : Exclusive key held) {p q : P} {x y : τ} (hx : x ∈ held p) (hy : y ∈ held q)
    (hxy : key x = key y) : p = q ∧ x = y := by
  obtain rfl := h.apart p q x y hx hy hxy
  exact ⟨rfl, List.inj_on_of_nodup_map (h.once p) hx hy hxy⟩

end Exclusive
