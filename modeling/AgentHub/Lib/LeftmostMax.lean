import AgentHub.Lib.Split
import Mathlib.Data.List.Basic
import Mathlib.Order.Lattice

/-!
# The leftmost maximum of a scan

`scanMax` runs over a list with the best entry so far, its index and its score. Entries
without a score are passed over, and a later entry takes the place of the best only with a
strictly greater score. What it returns is a leftmost maximum (`LeftmostMax`) : every
scored entry before it has a smaller score, every one after it none greater.
-/

variable {α β : Type*} [LinearOrder β] (score : α → Option β)

/-- The scan's step : the best so far against the entry `a` at `index`. -/
def pickMax (index : ℕ) (best : Option (ℕ × β)) (a : α) : Option (ℕ × β) :=
  match score a, best with
  | none, best => best
  | some b, none => some (index, b)
  | some b, some (i, b') => if b' < b then some (index, b) else some (i, b')

/-- The scan from `index` on, with the best of the entries before. -/
def scanMax : ℕ → Option (ℕ × β) → List α → Option (ℕ × β)
  | _, best, [] => best
  | index, best, a :: l => scanMax (index + 1) (pickMax score index best a) l

/-- `l` is `pre`, then `a` of score `b`, then `post`, and `a` is the leftmost maximum. -/
structure LeftmostMax (pre : List α) (a : α) (post : List α) (b : β) : Prop where
  score_eq : score a = some b
  lt_of_mem_pre : ∀ x ∈ pre, ∀ c, score x = some c → c < b
  le_of_mem_post : ∀ x ∈ post, ∀ c, score x = some c → c ≤ b

/-- What the scan knows of the entries `seen`. -/
def BestOf (seen : List α) : Option (ℕ × β) → Prop
  | none => ∀ x ∈ seen, score x = none
  | some (i, b) => ∃ pre a post, seen = pre ++ a :: post ∧ pre.length = i ∧
      LeftmostMax score pre a post b

variable {score}

theorem BestOf.pick {seen : List α} {best : Option (ℕ × β)} (h : BestOf score seen best) (a : α) :
    BestOf score (seen ++ [a]) (pickMax score seen.length best a) := by
  cases ha : score a with
  | none =>
    have hpick : pickMax score seen.length best a = best := by simp [pickMax, ha]
    rw [hpick]
    match best, h with
    | none, h =>
      intro x hx
      rcases List.mem_append.mp hx with hx | hx
      · exact h x hx
      · rw [List.mem_singleton.mp hx, ha]
    | some (i, b), ⟨pre, c, post, hseen, hlen, hmax⟩ =>
      refine ⟨pre, c, post ++ [a], by simp [hseen], hlen, hmax.score_eq, hmax.lt_of_mem_pre, ?_⟩
      intro x hx d hd
      rcases List.mem_append.mp hx with hx | hx
      · exact hmax.le_of_mem_post x hx d hd
      · rw [List.mem_singleton.mp hx, ha] at hd
        cases hd
  | some b =>
    match best, h with
    | none, h =>
      have hpick : pickMax score seen.length none a = some (seen.length, b) := by
        simp [pickMax, ha]
      rw [hpick]
      refine ⟨seen, a, [], rfl, rfl, ha, ?_, by simp⟩
      intro x hx c hc
      rw [h x hx] at hc
      cases hc
    | some (i, b'), ⟨pre, c, post, hseen, hlen, hmax⟩ =>
      by_cases hlt : b' < b
      · have hpick : pickMax score seen.length (some (i, b')) a = some (seen.length, b) := by
          simp [pickMax, ha, hlt]
        rw [hpick]
        refine ⟨seen, a, [], rfl, rfl, ha, ?_, by simp⟩
        -- the old best bounds everything seen, and the new entry beats it
        intro x hx d hd
        rw [hseen, List.mem_append, List.mem_cons] at hx
        rcases hx with hx | rfl | hx
        · exact lt_trans (hmax.lt_of_mem_pre x hx d hd) hlt
        · rw [hmax.score_eq] at hd
          cases hd
          exact hlt
        · exact lt_of_le_of_lt (hmax.le_of_mem_post x hx d hd) hlt
      · have hpick : pickMax score seen.length (some (i, b')) a = some (i, b') := by
          simp [pickMax, ha, hlt]
        rw [hpick]
        refine ⟨pre, c, post ++ [a], by simp [hseen], hlen, hmax.score_eq, hmax.lt_of_mem_pre, ?_⟩
        intro x hx d hd
        rcases List.mem_append.mp hx with hx | hx
        · exact hmax.le_of_mem_post x hx d hd
        · rw [List.mem_singleton.mp hx, ha] at hd
          cases hd
          exact not_lt.mp hlt

/-- The scan keeps its knowledge up to the end of the list. -/
theorem BestOf.scan : ∀ {l seen : List α} {best : Option (ℕ × β)}, BestOf score seen best →
    BestOf score (seen ++ l) (scanMax score seen.length best l)
  | [], seen, best, h => by simpa [scanMax] using h
  | a :: l, seen, best, h => by
    have := (h.pick a).scan (l := l)
    simpa [scanMax] using this

theorem bestOf_scanMax (l : List α) : BestOf score l (scanMax score 0 none l) :=
  @BestOf.scan _ _ _ score l [] none fun x hx => by simp at hx

/-- A scan without result has met no scored entry. -/
theorem score_eq_none_of_scanMax {l : List α} (h : scanMax score 0 none l = none) :
    ∀ x ∈ l, score x = none := by
  have := @bestOf_scanMax _ _ _ score l
  rwa [h] at this

/-- The scan's result is the index of the leftmost maximum. -/
theorem leftmostMax_of_scanMax {l : List α} {i : ℕ} {b : β}
    (h : scanMax score 0 none l = some (i, b)) :
    ∃ pre a post, l = pre ++ a :: post ∧ pre.length = i ∧ LeftmostMax score pre a post b := by
  have := @bestOf_scanMax _ _ _ score l
  rwa [h] at this

theorem scanMax_eq_none {l : List α} (h : ∀ x ∈ l, score x = none) : scanMax score 0 none l = none := by
  cases hscan : scanMax score 0 none l with
  | none => rfl
  | some r =>
    obtain ⟨pre, a, post, rfl, -, hmax⟩ := leftmostMax_of_scanMax (i := r.1) (b := r.2) hscan
    have := hmax.score_eq
    rw [h a (by simp)] at this
    cases this

/-- A leftmost maximum is what the scan settles on. -/
theorem LeftmostMax.scanMax_eq {pre post : List α} {a : α} {b : β} (h : LeftmostMax score pre a post b) :
    scanMax score 0 none (pre ++ a :: post) = some (pre.length, b) := by
  cases hscan : scanMax score 0 none (pre ++ a :: post) with
  | none =>
    have := score_eq_none_of_scanMax hscan a (by simp)
    rw [h.score_eq] at this
    cases this
  | some r =>
    obtain ⟨pre', a', post', hl, hlen, h'⟩ := leftmostMax_of_scanMax (i := r.1) (b := r.2) hscan
    rcases append_eq_append_cons hl with ⟨mid, hpre', hmid⟩ | ⟨mid, hpre, hpost'⟩
    · cases mid with
      | nil =>
        obtain ⟨rfl, -⟩ := List.cons.inj hmid
        obtain rfl : b = r.2 := Option.some.inj (h.score_eq.symm.trans h'.score_eq)
        have hr : r.1 = pre.length := by rw [← hlen, hpre', List.append_nil]
        rw [← hr]
      | cons c mid =>
        obtain ⟨rfl, rfl⟩ := List.cons.inj hmid
        have hlt := h'.lt_of_mem_pre a (by simp [hpre']) b h.score_eq
        have hle := h.le_of_mem_post a' (by simp) r.2 h'.score_eq
        exact absurd hlt hle.not_gt
    · have hlt := h.lt_of_mem_pre a' (by simp [hpre]) r.2 h'.score_eq
      have hle := h'.le_of_mem_post a (by simp [hpost']) b h.score_eq
      exact absurd hlt hle.not_gt
