import AgentHub.Lib.Machine
import Mathlib.Data.List.Basic

/-!
# Shadows of a machine

A view of the states and a label of the steps make one machine a shadow of another when each
labelled step is a step of the shadow under its label, and a step without a label leaves the
view alone (`Shadow`). The shadow knows nothing but the labels, so two runs with the same
labels, from states that look alike, end in states that look alike (`Shadow.view_eq`).
-/

namespace Machine

variable {σ α τ β : Type*}

/-- The labels of a run, in order. -/
def labels (step : σ → α → Option σ) (label : σ → α → Option β) : σ → List α → List β
  | _, [] => []
  | s, a :: as => (label s a).toList ++ (step s a).elim [] fun s' => labels step label s' as

/-- The machine `step'` is the shadow of `step`. -/
structure Shadow (step : σ → α → Option σ) (step' : τ → β → Option τ) (view : σ → τ)
    (label : σ → α → Option β) : Prop where
  /-- A step without a label leaves no shadow. -/
  silent : ∀ {s s' a}, step s a = some s' → label s a = none → view s' = view s
  visible : ∀ {s s' a b}, step s a = some s' → label s a = some b →
    step' (view s) b = some (view s')

namespace Shadow

variable {step : σ → α → Option σ} {step' : τ → β → Option τ} {view : σ → τ}
  {label : σ → α → Option β}

/-- The shadow of a run runs through its labels. -/
theorem run_eq_some (h : Shadow step step' view label) : ∀ {as : List α} {s s' : σ},
    run step s as = some s' → run step' (view s) (labels step label s as) = some (view s')
  | [], s, s', hrun => by
    rw [Option.some.inj hrun]
    rfl
  | a :: as, s, s', hrun => by
    obtain ⟨s₁, hstep, hrest⟩ := Option.bind_eq_some_iff.1 hrun
    have ih := h.run_eq_some hrest
    rw [labels, hstep, Option.elim_some]
    cases hlabel : label s a with
    | none => rwa [Option.toList_none, List.nil_append, ← h.silent hstep hlabel]
    | some b =>
      rw [Option.toList_some, List.singleton_append, run, h.visible hstep hlabel, Option.bind_some]
      exact ih

/-- Two runs with the same labels look alike at the end when they do at the start. -/
theorem view_eq (h : Shadow step step' view label) {as bs : List α} {s₀ t₀ s t : σ}
    (hs : run step s₀ as = some s) (ht : run step t₀ bs = some t) (hview : view s₀ = view t₀)
    (hlabels : labels step label s₀ as = labels step label t₀ bs) : view s = view t := by
  have hrun := h.run_eq_some hs
  rw [hview, hlabels, h.run_eq_some ht] at hrun
  exact (Option.some.inj hrun).symm

end Shadow

end Machine
