import AgentHub.Lib.Machine
import Mathlib.Order.Filter.AtTopBot.Basic

/-!
# Infinite runs

A `Path` is a run that never ends. What happens again and again on it is said with
`∃ᶠ n in atTop`, what holds from some point on with `∀ᶠ n in atTop`.

Steps that lower a measure which no step raises come to an end (`eventually_not`). From that
and from strong fairness follows where the parties of a system with one lock come to stand
(`eventually_rests`) : a party that is neither at rest nor able to move waits for the lock, and
who holds it can move, so no one waits for ever.
-/

namespace Machine

open Filter

variable {σ α ι τ : Type*} {step : σ → α → Option σ}

/-- A run that never ends. -/
structure Path (step : σ → α → Option σ) where
  state : ℕ → σ
  action : ℕ → α
  step_eq : ∀ n, step (state n) (action n) = some (state (n + 1))

namespace Path

theorem reach_of_le (p : Path step) {m n : ℕ} (h : m ≤ n) : Reach step (p.state m) (p.state n) := by
  induction h with
  | refl => exact .init
  | step _ ih => exact .next ih trivial (p.step_eq _)

/-- A step in front of a run. -/
def cons (s : σ) (a : α) (p : Path step) (h : step s a = some (p.state 0)) : Path step where
  state
    | 0 => s
    | n + 1 => p.state n
  action
    | 0 => a
    | n + 1 => p.action n
  step_eq
    | 0 => h
    | n + 1 => p.step_eq n

/-- One action for ever, which stays enabled. -/
theorem exists_forever {P : σ → Prop} {b : α} (hloop : ∀ s, P s → ∃ s', step s b = some s' ∧ P s')
    {s : σ} (hs : P s) : ∃ p : Path step, p.state 0 = s ∧ ∀ n, P (p.state n) := by
  choose next hstep hP using hloop
  let state : ℕ → {s // P s} := Nat.rec ⟨s, hs⟩ fun _ t => ⟨next t.1 t.2, hP t.1 t.2⟩
  exact ⟨⟨fun n => (state n).1, fun _ => b, fun n => hstep (state n).1 (state n).2⟩, rfl,
    fun n => (state n).2⟩

/-- A finite run in front of a run. -/
theorem exists_of_reach {Q : σ → α → Prop} {s₀ s : σ} (h : ReachVia step Q s₀ s) (p : Path step)
    (hp : p.state 0 = s) : ∃ (q : Path step) (k : ℕ), q.state 0 = s₀ ∧
      (∀ n, q.state (n + k) = p.state n ∧ q.action (n + k) = p.action n) ∧
      ∀ n, n < k → Q (q.state n) (q.action n) := by
  induction h generalizing p with
  | init => exact ⟨p, 0, hp, fun n => ⟨rfl, rfl⟩, fun n hn => absurd hn (Nat.not_lt_zero n)⟩
  | @next s s' a _ hq hs ih =>
    obtain ⟨q, k, hstart, hlater, hfirst⟩ := ih (cons s a p (hp ▸ hs)) rfl
    refine ⟨q, k + 1, hstart, fun n => ?_, fun n hn => ?_⟩
    · rw [show n + (k + 1) = n + 1 + k by omega]
      exact hlater (n + 1)
    · rcases Nat.lt_succ_iff_lt_or_eq.1 hn with hlt | rfl
      · exact hfirst n hlt
      · obtain ⟨hstate, haction⟩ := hlater 0
        rw [Nat.zero_add] at hstate haction
        rw [hstate, haction]
        exact hq

/-- A run that goes on with one action for ever. -/
theorem exists_of_run {P : σ → Prop} {b : α} (hloop : ∀ s, P s → ∃ s', step s b = some s' ∧ P s')
    {as : List α} {s₀ s : σ} (hrun : run step s₀ as = some s) (hs : P s) :
    ∃ p : Path step, p.state 0 = s₀ ∧ ∀ᶠ n in atTop, P (p.state n) := by
  obtain ⟨p, hstart, hP⟩ := exists_forever hloop hs
  obtain ⟨q, k, hq, hlater, -⟩ := exists_of_reach (reach_of_run hrun) p hstart
  refine ⟨q, hq, eventually_atTop.2 ⟨k, fun n hn => ?_⟩⟩
  obtain ⟨m, rfl⟩ := Nat.exists_eq_add_of_le' hn
  rw [(hlater m).1]
  exact hP m

/-- The actions `as` lead from `s` to `s'`, each in a state where it meets `Q`. -/
def Along (step : σ → α → Option σ) (Q : σ → α → Prop) : σ → List α → σ → Prop
  | s, [], s' => s = s'
  | s, a :: as, s' => Q s a ∧ ∃ s₁, step s a = some s₁ ∧ Along step Q s₁ as s'

theorem Along.concat {Q : σ → α → Prop} {a : α} {s₂ s' : σ} (hq : Q s₂ a) (hs : step s₂ a = some s') :
    ∀ {as : List α} {s : σ}, Along step Q s as s₂ → Along step Q s (as ++ [a]) s'
  | [], s, h => by
    cases h
    exact ⟨hq, s', hs, rfl⟩
  | b :: as, s, ⟨hb, s₁, h₁, hrest⟩ => ⟨hb, s₁, h₁, hrest.concat hq hs⟩

theorem exists_along {Q : σ → α → Prop} {s s' : σ} (h : ReachVia step Q s s') :
    ∃ as, Along step Q s as s' := by
  induction h with
  | init => exact ⟨[], rfl⟩
  | next _ hq hs ih =>
    obtain ⟨as, has⟩ := ih
    exact ⟨_, has.concat hq hs⟩

/-- Rounds one after the other for ever. Each begins with a step that meets `M`, and goes on with
steps that meet `Q`. -/
theorem exists_of_rounds {P : ℕ → σ → Prop} {M Q : σ → α → Prop}
    (hround : ∀ i s, P i s → ∃ a s₁ s', M s a ∧ step s a = some s₁ ∧ ReachVia step Q s₁ s' ∧ P (i + 1) s')
    {s : σ} (hs : P 0 s) : ∃ p : Path step, p.state 0 = s ∧
      (∀ n, M (p.state n) (p.action n) ∨ Q (p.state n) (p.action n)) ∧
      ∀ i, ∃ n, i ≤ n ∧ P i (p.state n) ∧ M (p.state n) (p.action n) := by
  -- in the middle of a round there are actions left that complete it
  let C := {q : σ × ℕ × List α // ∃ s', Along step Q q.1 q.2.2 s' ∧ P q.2.1 s'}
  have hnext : ∀ q : C, ∃ (a : α) (q' : C), step q.1.1 a = some q'.1.1 ∧
      (q.1.2.2 = [] ∧ P q.1.2.1 q.1.1 ∧ M q.1.1 a ∧ q'.1.2.1 = q.1.2.1 + 1 ∨
        q.1.2.2 = a :: q'.1.2.2 ∧ Q q.1.1 a ∧ q'.1.2.1 = q.1.2.1) := by
    rintro ⟨⟨s, i, as⟩, s', halong, hP⟩
    cases as with
    | nil =>
      obtain rfl : s = s' := halong
      obtain ⟨a, s₁, s₂, hM, hstep, hreach, hP'⟩ := hround i s hP
      obtain ⟨bs, hbs⟩ := exists_along hreach
      exact ⟨a, ⟨(s₁, i + 1, bs), s₂, hbs, hP'⟩, hstep, Or.inl ⟨rfl, hP, hM, rfl⟩⟩
    | cons a as =>
      obtain ⟨hq, s₁, hstep, hrest⟩ := halong
      exact ⟨a, ⟨(s₁, i, as), s', hrest, hP⟩, hstep, Or.inr ⟨rfl, hq, rfl⟩⟩
  choose act next hstep hkind using hnext
  let state : ℕ → C := Nat.rec ⟨(s, 0, []), s, rfl, hs⟩ fun _ q => next q
  have hsucc : ∀ n, state (n + 1) = next (state n) := fun n => rfl
  refine ⟨⟨fun n => (state n).1.1, fun n => act (state n), fun n => hstep (state n)⟩, rfl, fun n => ?_,
    fun i => ?_⟩
  · exact (hkind (state n)).imp (fun h => h.2.2.1) fun h => h.2.1
  have hdone : ∀ l n, (state n).1.2.2.length = l →
      ∃ m, n ≤ m ∧ (state m).1.2.2 = [] ∧ (state m).1.2.1 = (state n).1.2.1 := by
    intro l
    induction l with
    | zero => exact fun n hl => ⟨n, le_rfl, List.eq_nil_of_length_eq_zero hl, rfl⟩
    | succ l ih =>
      intro n hl
      rcases hkind (state n) with ⟨hnil, -⟩ | ⟨hcons, -, hsame⟩
      · rw [hnil] at hl
        cases hl
      · rw [hcons, List.length_cons, Nat.add_right_cancel_iff] at hl
        obtain ⟨m, hm, hnil, hi⟩ := ih (n + 1) hl
        exact ⟨m, (Nat.le_succ n).trans hm, hnil, hi.trans hsame⟩
  have hbegins : ∃ n, i ≤ n ∧ (state n).1.2.2 = [] ∧ (state n).1.2.1 = i := by
    induction i with
    | zero => exact ⟨0, le_rfl, rfl, rfl⟩
    | succ i ih =>
      obtain ⟨n, hn, hnil, hi⟩ := ih
      rcases hkind (state n) with ⟨-, -, -, hnext⟩ | ⟨hcons, -⟩
      · obtain ⟨m, hm, hnil', hi'⟩ := hdone _ (n + 1) rfl
        refine ⟨m, by omega, hnil', ?_⟩
        rw [hi', hsucc, hnext, hi]
      · rw [hnil] at hcons
        cases hcons
  obtain ⟨n, hn, hnil, hi⟩ := hbegins
  rcases hkind (state n) with ⟨-, hP, hM, -⟩ | ⟨hcons, -⟩
  · exact ⟨n, hn, hi ▸ hP, hM⟩
  · rw [hnil] at hcons
    cases hcons

/-- The run from its state `k` on. -/
def drop (p : Path step) (k : ℕ) : Path step where
  state n := p.state (k + n)
  action n := p.action (k + n)
  step_eq n := p.step_eq (k + n)

/-- Steps that lower a measure which no step raises come to an end. -/
theorem eventually_not [Preorder τ] [WellFoundedLT τ] (p : Path step) {μ : σ → τ}
    {Q : σ → α → Prop} (hle : ∀ n, μ (p.state (n + 1)) ≤ μ (p.state n))
    (hlt : ∀ n, Q (p.state n) (p.action n) → μ (p.state (n + 1)) < μ (p.state n)) :
    ∀ᶠ n in atTop, ¬ Q (p.state n) (p.action n) := by
  have hanti : Antitone fun n => μ (p.state n) := antitone_nat_of_succ_le hle
  obtain ⟨_, ⟨N, rfl⟩, hmin⟩ :=
    wellFounded_lt.has_min (Set.range fun n => μ (p.state n)) ⟨_, 0, rfl⟩
  refine eventually_atTop.2 ⟨N, fun n hn hQ => hmin _ ⟨n + 1, rfl⟩ ?_⟩
  exact (hlt n hQ).trans_le (hanti hn)

/-- Parties that share one lock come to rest, if each moves finitely often, each that is ready
again and again moves again and again, and a party that is neither at rest nor ready waits for
the lock, whose holder is ready. -/
theorem eventually_rests (p : Path step) {moves : ι → σ → α → Prop} {rests ready waits : ι → σ → Prop}
    {holder : σ → Option ι}
    (hfinite : ∀ i, ∀ᶠ n in atTop, ¬ moves i (p.state n) (p.action n))
    (hfair : ∀ i, (∃ᶠ n in atTop, ready i (p.state n)) →
      ∃ᶠ n in atTop, moves i (p.state n) (p.action n))
    (hready : ∀ i n, rests i (p.state n) ∨ ready i (p.state n) ∨ waits i (p.state n))
    (hfree : ∀ i n, waits i (p.state n) → holder (p.state n) = none → ready i (p.state n))
    (hstays : ∀ i n, waits i (p.state n) → ¬ moves i (p.state n) (p.action n) →
      waits i (p.state (n + 1)))
    (hholder : ∀ i n, holder (p.state n) = some i → ready i (p.state n))
    (hkeeps : ∀ i n, holder (p.state n) = some i →
      holder (p.state (n + 1)) = some i ∨ holder (p.state (n + 1)) = none)
    (i : ι) : ∀ᶠ n in atTop, rests i (p.state n) := by
  have hidle : ∀ j, ∀ᶠ n in atTop, ¬ ready j (p.state n) := by
    intro j
    by_contra hfrequent
    exact (hfair j (by simpa [Filter.Frequently] using hfrequent)) (hfinite j)
  obtain ⟨N, hN⟩ := eventually_atTop.1 ((hfinite i).and (hidle i))
  have hnever : ∀ n, N ≤ n → ¬ waits i (p.state n) := by
    intro n hn hwaits
    have hlater : ∀ m, n ≤ m → waits i (p.state m) := by
      intro m hm
      induction hm with
      | refl => exact hwaits
      | step hm ih => exact hstays i _ ih (hN _ (hn.trans hm)).1
    have hheld : ∀ m, n ≤ m → holder (p.state m) ≠ none :=
      fun m hm hnone => (hN m (hn.trans hm)).2 (hfree i m (hlater m hm) hnone)
    obtain ⟨j, hj⟩ := Option.ne_none_iff_exists'.1 (hheld n le_rfl)
    -- the lock is never free again, so its holder keeps it, ready all the while
    have hforever : ∀ m, n ≤ m → holder (p.state m) = some j := by
      intro m hm
      induction hm with
      | refl => exact hj
      | @step m hm ih => exact (hkeeps j m ih).resolve_right (hheld _ (Nat.le_succ_of_le hm))
    obtain ⟨M, hM⟩ := eventually_atTop.1 (hidle j)
    exact hM (max n M) (le_max_right _ _) (hholder j _ (hforever _ (le_max_left _ _)))
  refine eventually_atTop.2 ⟨N, fun n hn => ?_⟩
  rcases hready i n with hrests | hmoves | hwaits
  · exact hrests
  · exact absurd hmoves (hN n hn).2
  · exact absurd hwaits (hnever n hn)

end Path

end Machine
