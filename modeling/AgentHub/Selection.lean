import AgentHub.Arbitration

/-!
# The specified waiter

The specification orders the waiters that match an envelope : by filter,
{reply_to, kind} > {reply_to} > {kind} > {}, and then by arrival. Here that order is spelled
out on waiters with their positions (`Before`), and `routeEnvelope` is shown to serve the first
live matching waiter in it. The dead waiters that leave with it are those before it in
that order, wherever they stand in the list.
-/

namespace AgentHub

open Function

/-- The place of a filter in the specification's order, the most specific one highest. -/
def AwaitFilter.tier : AwaitFilter → ℕ
  | ⟨some _, some _⟩ => 3
  | ⟨some _, none⟩ => 2
  | ⟨none, some _⟩ => 1
  | ⟨none, none⟩ => 0

/-- The source compares specificities as pairs, which is the specification's order. -/
theorem AwaitFilter.specificity_le {f g : AwaitFilter} :
    f.specificity ≤ g.specificity ↔ f.tier ≤ g.tier := by
  obtain ⟨_ | _, _ | _⟩ := f <;> obtain ⟨_ | _, _ | _⟩ := g <;>
    simp [AwaitFilter.specificity, AwaitFilter.tier, Prod.Lex.toLex_le_toLex]

theorem AwaitFilter.specificity_lt {f g : AwaitFilter} :
    f.specificity < g.specificity ↔ f.tier < g.tier := by
  rw [← not_le, ← not_le, AwaitFilter.specificity_le]

/-- `v` comes before `w` : it is more specific, or as specific and registered earlier. The
second component is the position in the list. -/
def Before (v w : Waiter × ℕ) : Prop :=
  w.1.filter.tier < v.1.filter.tier ∨ w.1.filter.tier = v.1.filter.tier ∧ v.2 < w.2

instance : DecidableRel Before :=
  fun _ _ => inferInstanceAs (Decidable (_ ∨ _ ∧ _))

theorem Before.asymm {v w : Waiter × ℕ} (h : Before v w) : ¬Before w v := by
  unfold Before at *
  omega

section Roles

variable (closed : ConnId → Bool) (e : Envelope)

/-- The waiter matches and its receiver is there. -/
def Waiter.Live (w : Waiter) : Prop :=
  w.filter.matches e = true ∧ closed w.tx = false

/-- The waiter matches and its receiver is dropped. -/
def Waiter.Dead (w : Waiter) : Prop :=
  w.filter.matches e = true ∧ closed w.tx = true

instance : DecidablePred (Waiter.Live closed e) :=
  fun _ => inferInstanceAs (Decidable (_ ∧ _))

instance : DecidablePred (Waiter.Dead closed e) :=
  fun _ => inferInstanceAs (Decidable (_ ∧ _))

/-- `w` is the first live matching waiter of the list. -/
structure FirstLive (ws : List Waiter) (w : Waiter × ℕ) : Prop where
  mem : w ∈ ws.zipIdx
  live : w.1.Live closed e
  before : ∀ v ∈ ws.zipIdx, v.1.Live closed e → v ≠ w → Before w v

/-- What a handoff to `w` leaves of the list : everyone but `w` and the dead matching waiters
before it. -/
def leftBy (ws : List Waiter) (w : Waiter × ℕ) : List Waiter :=
  (ws.zipIdx.filter fun v => v ≠ w ∧ ¬(v.1.Dead closed e ∧ Before v w)).map Prod.fst

end Roles

variable {closed : ConnId → Bool} {e : Envelope}

/-- There is one first live waiter at most. -/
theorem FirstLive.unique {ws : List Waiter} {v w : Waiter × ℕ} (hv : FirstLive closed e ws v)
    (hw : FirstLive closed e ws w) : v = w := by
  by_contra hne
  exact (hv.before w hw.mem hw.live (Ne.symm hne)).asymm (hw.before v hv.mem hv.live hne)

theorem liveRank_of_live {w : Waiter} (h : w.Live closed e) :
    liveRank closed e w = some w.filter.specificity := by
  rw [liveRank_eq_some, Waiter.rank, if_pos h.1]
  exact ⟨h.2, rfl⟩

theorem mem_zipIdx_append {pre post : List Waiter} {w : Waiter} {v : Waiter × ℕ} :
    v ∈ (pre ++ w :: post).zipIdx ↔
      v ∈ pre.zipIdx ∨ v = (w, pre.length) ∨ v ∈ post.zipIdx (pre.length + 1) := by
  simp [List.zipIdx_append]

/-- The leftmost maximum of the scan is the first live waiter of the specification. -/
theorem firstLive_of_leftmostMax {pre post : List Waiter} {w : Waiter} {b : Bool ×ₗ Bool}
    (h : LeftmostMax (liveRank closed e) pre w post b) :
    FirstLive closed e (pre ++ w :: post) (w, pre.length) := by
  obtain ⟨hopen, hrank⟩ := liveRank_eq_some.1 h.score_eq
  obtain ⟨hmatch, rfl⟩ := rank_eq_some hrank
  refine ⟨mem_zipIdx_append.2 (Or.inr (Or.inl rfl)), ⟨hmatch, hopen⟩, fun v hv hlive hne => ?_⟩
  rcases mem_zipIdx_append.1 hv with hv | rfl | hv
  · exact Or.inl (AwaitFilter.specificity_lt.1
      (h.lt_of_mem_pre v.1 (List.fst_mem_of_mem_zipIdx hv) _ (liveRank_of_live hlive)))
  · exact absurd rfl hne
  · have hle := AwaitFilter.specificity_le.1
      (h.le_of_mem_post v.1 (List.fst_mem_of_mem_zipIdx hv) _ (liveRank_of_live hlive))
    have hpos := List.le_snd_of_mem_zipIdx hv
    simp only [Before]
    omega

theorem map_fst_filter_zipIdx {α : Type} {l : List α} {k : ℕ} {f : α × ℕ → Bool} {g : α → Bool}
    (h : ∀ v ∈ l.zipIdx k, f v = g v.1) : ((l.zipIdx k).filter f).map Prod.fst = l.filter g := by
  have hmap : ((l.zipIdx k).map Prod.fst).filter g = l.filter g := by rw [List.zipIdx_map_fst]
  rw [← hmap, List.filter_map, List.filter_congr h]
  rfl

/-- What the loop keeps before and after the chosen waiter is what the order says. -/
theorem leftBy_eq {pre post : List Waiter} {w : Waiter} :
    leftBy closed e (pre ++ w :: post) (w, pre.length) =
      pre.filter (staysBefore closed e w.filter.specificity) ++
        post.filter (staysAfter closed e w.filter.specificity) := by
  unfold leftBy
  rw [List.zipIdx_append, List.zipIdx_cons, List.filter_append, List.map_append, Nat.zero_add,
    List.filter_cons_of_neg (by simp)]
  refine congrArg₂ _ (map_fst_filter_zipIdx fun v hv => ?_) (map_fst_filter_zipIdx fun v hv => ?_)
  · have hpos := List.snd_lt_of_mem_zipIdx hv
    have hne : v ≠ (w, pre.length) := fun h => by
      rw [h] at hpos
      simp at hpos
    have hbefore : Before v (w, pre.length) ↔ w.filter.tier ≤ v.1.filter.tier := by
      simp only [Before]
      omega
    rw [Bool.eq_iff_iff]
    by_cases hm : v.1.filter.matches e <;>
      simp [hbefore, Waiter.Dead, staysBefore, Waiter.rank, hm, hne, AwaitFilter.specificity_le]
  · have hpos := List.le_snd_of_mem_zipIdx hv
    have hne : v ≠ (w, pre.length) := fun h => by
      rw [h] at hpos
      exact absurd hpos (Nat.not_succ_le_self _)
    have hbefore : Before v (w, pre.length) ↔ w.filter.tier < v.1.filter.tier := by
      simp only [Before]
      omega
    rw [Bool.eq_iff_iff]
    by_cases hm : v.1.filter.matches e <;>
      simp [hbefore, Waiter.Dead, staysAfter, Waiter.rank, hm, hne, AwaitFilter.specificity_lt]

variable {ε : Type} [Carries ε]

theorem HandsTo.firstLive {state : HubState ε} {x : ε} {r : HubState ε × SendOutcome}
    {pre post : List Waiter} {w : Waiter} {b : Bool ×ₗ Bool}
    (h : HandsTo closed state x r pre w post b) :
    FirstLive closed (Carries.envelope x) (state.registered (Carries.envelope x).to)
      (w, pre.length) :=
  h.registered_eq ▸ firstLive_of_leftmostMax h.leftmost

theorem HandsTo.registered_eq_leftBy {state : HubState ε} {x : ε} {r : HubState ε × SendOutcome}
    {pre post : List Waiter} {w : Waiter} {b : Bool ×ₗ Bool}
    (h : HandsTo closed state x r pre w post b) :
    r.1.registered (Carries.envelope x).to =
      leftBy closed (Carries.envelope x) (state.registered (Carries.envelope x).to)
        (w, pre.length) := by
  obtain ⟨-, rfl⟩ := rank_eq_some (liveRank_eq_some.1 h.leftmost.score_eq).2
  rw [h.registered, h.registered_eq, leftBy_eq]

/-- Routing is the specification's selection. A live matching waiter means a first one, which
takes the envelope and leaves with the dead ones before it. With none the dead matching
waiters leave and the envelope queues. Nothing else of the state changes. -/
theorem routeEnvelope_selects (closed : ConnId → Bool) (state : HubState ε) (x : ε)
    (p : QueuePlacement) :
    let e := Carries.envelope x
    let ws := state.registered e.to
    let r := routeEnvelope closed state x p
    ((∃ v ∈ ws, v.Live closed e) → ∃ w, FirstLive closed e ws w ∧
        (∀ v, FirstLive closed e ws v → v = w) ∧ r.2 = .handedOff w.1.tx ∧
        r.1.registered e.to = leftBy closed e ws w ∧ r.1.queues = state.queues) ∧
      ((¬∃ v ∈ ws, v.Live closed e) →
        r.2 = .queued (r.1.queue e.to).length ∧
        r.1.registered e.to = ws.filter (fun v => ¬v.Dead closed e) ∧
        r.1.queues = update state.queues e.to
          (some (if p = .front then x :: state.queue e.to else state.queue e.to ++ [x]))) ∧
      r.1.nextWaiterId = state.nextWaiterId ∧
      ∀ n, n ≠ e.to → r.1.queues n = state.queues n ∧ r.1.waiters n = state.waiters n := by
  intro e ws r
  have hframe := routeEnvelope_frame closed state x p
  rcases routeEnvelope_spec closed state x p with ⟨pre, w, post, b, h⟩ | h
  · have hfirst := h.firstLive
    refine ⟨fun _ => ⟨(w, pre.length), hfirst, fun v hv => hv.unique hfirst, h.outcome,
      h.registered_eq_leftBy, h.queues⟩, fun hnone => ?_, hframe⟩
    exact absurd ⟨w, List.fst_mem_of_mem_zipIdx hfirst.mem, hfirst.live⟩ hnone
  · have hlive : ¬∃ v ∈ ws, v.Live closed e := by
      rintro ⟨v, hv, hm, hopen⟩
      rw [h.all_dead v hv hm] at hopen
      cases hopen
    have hqueues : r.1.queues = update state.queues e.to
        (some (if p = .front then x :: state.queue e.to else state.queue e.to ++ [x])) := by
      rw [h.queues]
      cases p <;> rfl
    refine ⟨fun hsome => absurd hsome hlive, fun _ => ⟨?_, ?_, hqueues⟩, hframe⟩
    · rw [h.outcome, HubState.queue, hqueues, update_self]
      cases p <;> rfl
    · -- every matching waiter is dead, so the dead ones are the matching ones
      rw [h.registered]
      refine List.filter_congr fun v hv => ?_
      by_cases hm : v.filter.matches (Carries.envelope x)
      · simp [Waiter.Dead, e, hm, h.all_dead v hv hm]
      · simp [Waiter.Dead, e, hm]

end AgentHub
