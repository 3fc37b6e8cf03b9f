import Mathlib.Logic.Basic

/-!
# Transition systems given by a partial step function

`step s a` is the state after the action `a`, or `none` where `a` is not enabled in `s`.
A run takes actions one after another. `Reach` are the states some run leads to, and
`ReachVia Q` those a run leads to when each of its steps meets `Q`, a condition on the
state before the step and the action.

An invariant is proved one step at a time (`ReachVia.invariant`), and a fact that holds
along a run of conditioned steps carries from one reached state to a later one
(`ReachVia.trans`).
-/

namespace Machine

variable {σ α : Type*}

/-- The states reached from `s₀` by steps that all meet `Q`. -/
inductive ReachVia (step : σ → α → Option σ) (Q : σ → α → Prop) (s₀ : σ) : σ → Prop
  | init : ReachVia step Q s₀ s₀
  | next {s s' : σ} {a : α} : ReachVia step Q s₀ s → Q s a → step s a = some s' →
      ReachVia step Q s₀ s'

/-- The states reached from `s₀`. -/
abbrev Reach (step : σ → α → Option σ) (s₀ : σ) : σ → Prop :=
  ReachVia step (fun _ _ => True) s₀

/-- The state a list of actions leads to, if each is enabled in its turn. -/
def run (step : σ → α → Option σ) : σ → List α → Option σ
  | s, [] => some s
  | s, a :: as => (step s a).bind fun s' => run step s' as

/-- The states after each action of a list, up to one that is not enabled. -/
def states (step : σ → α → Option σ) : σ → List α → List σ
  | _, [] => []
  | s, a :: as => (step s a).elim [] fun s' => s' :: states step s' as

variable {step : σ → α → Option σ} {Q : σ → α → Prop} {s₀ s s' : σ}

theorem ReachVia.mono {Q' : σ → α → Prop} (h : ReachVia step Q s₀ s) (hq : ∀ s a, Q s a → Q' s a) :
    ReachVia step Q' s₀ s := by
  induction h with
  | init => exact .init
  | next _ h hs ih => exact .next ih (hq _ _ h) hs

theorem ReachVia.reach (h : ReachVia step Q s₀ s) : Reach step s₀ s :=
  h.mono fun _ _ _ => trivial

theorem ReachVia.trans {s₁ s₂ : σ} (h₁ : ReachVia step Q s₀ s₁) (h₂ : ReachVia step Q s₁ s₂) :
    ReachVia step Q s₀ s₂ := by
  induction h₂ with
  | init => exact h₁
  | next _ hq hs ih => exact .next ih hq hs

/-- A property of `s₀` that every enabled step meeting `Q` keeps holds in every state
reached. The step may use that the state before it is reached. -/
theorem ReachVia.invariant {P : σ → Prop} (h : ReachVia step Q s₀ s) (h₀ : P s₀)
    (hstep : ∀ s a s', ReachVia step Q s₀ s → P s → Q s a → step s a = some s' → P s') : P s := by
  induction h with
  | init => exact h₀
  | next hr hq hs ih => exact hstep _ _ _ hr ih hq hs

/-- A property every step keeps holds in every state reached from one that has it. -/
theorem Reach.invariant {P : σ → Prop} (h : Reach step s₀ s) (h₀ : P s₀)
    (hstep : ∀ s a s', P s → step s a = some s' → P s') : P s :=
  ReachVia.invariant h h₀ fun s a s' _ hP _ hs => hstep s a s' hP hs

/-- A run meets `Q` once each of its steps does, given what the run still leads to. -/
theorem Reach.via (h : Reach step s₀ s) (hq : ∀ s₁ a s₂, Reach step s₀ s₁ → step s₁ a = some s₂ →
    Reach step s₂ s → Q s₁ a) : ReachVia step Q s₀ s := by
  induction h with
  | init => exact .init
  | next h _ hs ih =>
    refine .next (ih fun s₁ a s₂ h₁ h₂ h₃ => hq s₁ a s₂ h₁ h₂ (.next h₃ trivial hs)) ?_ hs
    exact hq _ _ _ h hs .init

/-- A run whose actions meet `Q` in every state. -/
theorem reachVia_of_run : ∀ {as : List α} {s₀ s : σ}, run step s₀ as = some s →
    (∀ s, ∀ a ∈ as, Q s a) → ReachVia step Q s₀ s
  | [], s₀, s, h, _ => by
    obtain rfl := Option.some.inj h
    exact .init
  | a :: as, s₀, s, h, hq => by
    obtain ⟨s₁, h₁, h₂⟩ := Option.bind_eq_some_iff.mp h
    exact ReachVia.trans (.next .init (hq s₀ a List.mem_cons_self) h₁)
      (reachVia_of_run h₂ fun s b hb => hq s b (List.mem_cons_of_mem a hb))

/-- A run through states with a property that each step into such a state meets `Q`. -/
theorem reachVia_of_states {P : σ → Prop} (hP : ∀ s a s', step s a = some s' → P s' → Q s a) :
    ∀ {as : List α} {s₀ s : σ}, run step s₀ as = some s → (∀ s' ∈ states step s₀ as, P s') →
      ReachVia step Q s₀ s
  | [], s₀, s, h, _ => by
    obtain rfl := Option.some.inj h
    exact .init
  | a :: as, s₀, s, h, hstates => by
    obtain ⟨s₁, h₁, h₂⟩ := Option.bind_eq_some_iff.mp h
    rw [states, h₁, Option.elim_some, List.forall_mem_cons] at hstates
    exact ReachVia.trans (.next .init (hP s₀ a s₁ h₁ hstates.1) h₁) (reachVia_of_states hP h₂ hstates.2)

/-- Whether each step of a run passes a check. -/
def checks (step : σ → α → Option σ) (check : σ → α → Bool) : σ → List α → Bool
  | _, [] => true
  | s, a :: as => check s a && (step s a).all fun s' => checks step check s' as

/-- A run each of whose steps passes a check for `Q`. -/
theorem reachVia_of_checks {check : σ → α → Bool} (hcheck : ∀ s a, check s a = true → Q s a) :
    ∀ {as : List α} {s₀ s : σ}, run step s₀ as = some s → checks step check s₀ as = true →
      ReachVia step Q s₀ s
  | [], s₀, s, h, _ => by
    obtain rfl := Option.some.inj h
    exact .init
  | a :: as, s₀, s, h, hchecks => by
    obtain ⟨s₁, h₁, h₂⟩ := Option.bind_eq_some_iff.mp h
    rw [checks, Bool.and_eq_true_iff, h₁, Option.all_some] at hchecks
    exact ReachVia.trans (.next .init (hcheck s₀ a hchecks.1) h₁) (reachVia_of_checks hcheck h₂ hchecks.2)

theorem reach_of_run {as : List α} (h : run step s₀ as = some s) : Reach step s₀ s :=
  reachVia_of_run h fun _ _ _ => trivial

theorem run_append (step : σ → α → Option σ) (s : σ) (as bs : List α) :
    run step s (as ++ bs) = (run step s as).bind fun s' => run step s' bs := by
  induction as generalizing s with
  | nil => rfl
  | cons a as ih =>
    simp only [List.cons_append, run]
    cases step s a with
    | none => rfl
    | some s' => exact ih s'

end Machine
