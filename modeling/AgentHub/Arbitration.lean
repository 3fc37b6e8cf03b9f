import AgentHub.Routing

/-!
# Waiter arbitration

What `routeEnvelope` does, in one statement (`routeEnvelope_spec`). Either it hands the
envelope to the live matching waiter that is first by rank and then by arrival
(`HandsTo`), or every matching waiter is dead and the envelope queues (`Queues`). The
loop meets the matching waiters in that order, so the dead ones it removes on its way are
those that stand before the chosen one in the order, not in the list.
-/

namespace AgentHub

variable {ε : Type} [Carries ε]

/-! ## Waiter selection -/

theorem rank_eq_none {e : Envelope} {w : Waiter} :
    w.rank e = none ↔ w.filter.matches e = false := by
  unfold Waiter.rank
  split_ifs with h <;> simp [h]

theorem rank_eq_some {e : Envelope} {w : Waiter} {b : Bool ×ₗ Bool} (h : w.rank e = some b) :
    w.filter.matches e = true ∧ w.filter.specificity = b := by
  unfold Waiter.rank at h
  split_ifs at h with hm
  exact ⟨hm, Option.some.inj h⟩

theorem best_eq_none {e : Envelope} {ws : List Waiter} (h : best e ws = none) :
    ∀ w ∈ ws, w.filter.matches e = false := by
  unfold best at h
  split at h
  · rename_i hscan
    exact fun w hw => rank_eq_none.1 (score_eq_none_of_scanMax hscan w hw)
  · cases h

theorem best_eq_some {e : Envelope} {ws : List Waiter} {i : Fin ws.length}
    (h : best e ws = some i) : ∃ pre post b, ws = pre ++ ws.get i :: post ∧
      ws.eraseIdx i = pre ++ post ∧ LeftmostMax (Waiter.rank e) pre (ws.get i) post b := by
  unfold best at h
  split at h
  · cases h
  rename_i b hscan
  obtain ⟨pre, a, post, hl, hlen, hmax⟩ := leftmostMax_of_scanMax (i := b.1) (b := b.2) hscan
  have hi : pre.length = i := by rw [hlen, ← Option.some.inj h]
  obtain ⟨hget, herase⟩ := eraseIdx_split hl hi
  exact ⟨pre, post, b.2, hget ▸ hl, herase, hget ▸ hmax⟩

/-- The rank of a waiter that can still take the envelope. -/
def liveRank (closed : ConnId → Bool) (e : Envelope) (w : Waiter) : Option (Bool ×ₗ Bool) :=
  if closed w.tx then none else w.rank e

/-- `v` stays registered, standing before a chosen waiter of rank `b` : it is not a dead
one the loop met first. -/
def staysBefore (closed : ConnId → Bool) (e : Envelope) (b : Bool ×ₗ Bool) (v : Waiter) : Bool :=
  !(closed v.tx && (v.rank e).any fun c => b ≤ c)

/-- `v` stays registered, standing after a chosen waiter of rank `b`. -/
def staysAfter (closed : ConnId → Bool) (e : Envelope) (b : Bool ×ₗ Bool) (v : Waiter) : Bool :=
  !(closed v.tx && (v.rank e).any fun c => b < c)

/-- Routing touches the maps at the envelope's destination only, and draws no id. -/
theorem routeEnvelope_frame (closed : ConnId → Bool) (state : HubState ε) (x : ε)
    (p : QueuePlacement) :
    (routeEnvelope closed state x p).1.nextWaiterId = state.nextWaiterId ∧
      ∀ n, n ≠ (Carries.envelope x).to →
        (routeEnvelope closed state x p).1.queues n = state.queues n ∧
        (routeEnvelope closed state x p).1.waiters n = state.waiters n := by
  fun_induction routeEnvelope closed state x p with
  | case1 state hws => exact ⟨rfl, fun n hn => ⟨by simp [HubState.enqueue, hn], rfl⟩⟩
  | case2 state ws hws hbest => exact ⟨rfl, fun n hn => ⟨by simp [HubState.enqueue, hn], rfl⟩⟩
  | case3 state ws hws i hbest hclosed ih =>
    refine ⟨ih.1, fun n hn => ⟨(ih.2 n hn).1, (ih.2 n hn).2.trans ?_⟩⟩
    simp [HubState.removeAt, hn]
  | case4 state ws hws i hbest hclosed =>
    exact ⟨rfl, fun n hn => ⟨rfl, by simp [HubState.removeAt, hn]⟩⟩

/-- A handoff : `w` is the leftmost maximum among the live matching waiters of the
destination, and what leaves the registry is `w` with the dead matching waiters the loop
met first. -/
structure HandsTo (closed : ConnId → Bool) (state : HubState ε) (x : ε)
    (r : HubState ε × SendOutcome) (pre : List Waiter) (w : Waiter) (post : List Waiter)
    (b : Bool ×ₗ Bool) : Prop where
  registered_eq : state.registered (Carries.envelope x).to = pre ++ w :: post
  leftmost : LeftmostMax (liveRank closed (Carries.envelope x)) pre w post b
  outcome : r.2 = .handedOff w.tx
  registered : r.1.registered (Carries.envelope x).to =
    pre.filter (staysBefore closed (Carries.envelope x) b) ++
      post.filter (staysAfter closed (Carries.envelope x) b)
  queues : r.1.queues = state.queues

/-- No handoff : every matching waiter is dead and leaves the registry. -/
structure Queues (closed : ConnId → Bool) (state : HubState ε) (x : ε) (p : QueuePlacement)
    (r : HubState ε × SendOutcome) : Prop where
  all_dead : ∀ w ∈ state.registered (Carries.envelope x).to,
    w.filter.matches (Carries.envelope x) = true → closed w.tx = true
  outcome : r.2 = (state.enqueue x p).2
  registered : r.1.registered (Carries.envelope x).to =
    (state.registered (Carries.envelope x).to).filter
      fun w => !w.filter.matches (Carries.envelope x)
  queues : r.1.queues = (state.enqueue x p).1.queues

theorem liveRank_eq_some {closed : ConnId → Bool} {e : Envelope} {w : Waiter} {b : Bool ×ₗ Bool} :
    liveRank closed e w = some b ↔ closed w.tx = false ∧ w.rank e = some b := by
  unfold liveRank
  split_ifs with h <;> simp [h]

theorem queues_of_no_match {closed : ConnId → Bool} {state : HubState ε} {x : ε}
    (p : QueuePlacement) (h : ∀ w ∈ state.registered (Carries.envelope x).to,
      w.filter.matches (Carries.envelope x) = false) :
    Queues closed state x p (state.enqueue x p) where
  all_dead w hw hm := by
    rw [h w hw] at hm
    cases hm
  outcome := rfl
  registered := by
    rw [registered_enqueue, List.filter_eq_self.2]
    intro w hw
    simp [h w hw]
  queues := rfl

/-- A dead waiter that the scan settled on can be left out of what stands before. -/
theorem HandsTo.insert_dead {closed : ConnId → Bool} {state state' : HubState ε} {x : ε}
    {r : HubState ε × SendOutcome} {pre post : List Waiter} {d : Waiter} {c : Bool ×ₗ Bool}
    (hreg : state.registered (Carries.envelope x).to = pre ++ d :: post)
    (hreg' : state'.registered (Carries.envelope x).to = pre ++ post)
    (hq : state'.queues = state.queues)
    (hd : LeftmostMax (Waiter.rank (Carries.envelope x)) pre d post c)
    (hclosed : closed d.tx = true) {pre' post' : List Waiter} {w : Waiter} {b : Bool ×ₗ Bool}
    (h : HandsTo closed state' x r pre' w post' b) :
    ∃ pre'' post'', HandsTo closed state x r pre'' w post'' b := by
  have hw := (liveRank_eq_some.1 h.leftmost.score_eq).2
  have hsplit : pre ++ post = pre' ++ w :: post' := hreg'.symm.trans h.registered_eq
  have hdead : liveRank closed (Carries.envelope x) d = none := by simp [liveRank, hclosed]
  rcases append_eq_append_cons hsplit with ⟨mid, hpre', hpost⟩ | ⟨mid, hpre, hpost'⟩
  · -- `w` stands after `d`, whose rank is no smaller
    have hwpost : w ∈ post := by rw [hpost]; simp
    have hbc : b ≤ c := hd.le_of_mem_post w hwpost b hw
    refine ⟨pre ++ d :: mid, post', ?_, ⟨h.leftmost.score_eq, ?_, h.leftmost.le_of_mem_post⟩,
      h.outcome, ?_, h.queues.trans hq⟩
    · rw [hreg, hpost]
      simp
    · intro v hv a ha
      rw [List.mem_append, List.mem_cons] at hv
      rcases hv with hv | rfl | hv
      · exact h.leftmost.lt_of_mem_pre v (by rw [hpre']; simp [hv]) a ha
      · rw [hdead] at ha
        cases ha
      · exact h.leftmost.lt_of_mem_pre v (by rw [hpre']; simp [hv]) a ha
    · have hgone : staysBefore closed (Carries.envelope x) b d = false := by
        simp [staysBefore, hclosed, hd.score_eq, hbc]
      rw [h.registered, hpre', List.filter_append, List.filter_append,
        List.filter_cons_of_neg (by simp [hgone])]
  · -- `w` stands before `d`, whose rank is greater
    have hbc : b < c := hd.lt_of_mem_pre w (by rw [hpre]; simp) b hw
    refine ⟨pre', mid ++ d :: post, ?_, ⟨h.leftmost.score_eq, h.leftmost.lt_of_mem_pre, ?_⟩,
      h.outcome, ?_, h.queues.trans hq⟩
    · rw [hreg, hpre]
      simp
    · intro v hv a ha
      rw [List.mem_append, List.mem_cons] at hv
      rcases hv with hv | rfl | hv
      · exact h.leftmost.le_of_mem_post v (by rw [hpost']; simp [hv]) a ha
      · rw [hdead] at ha
        cases ha
      · exact h.leftmost.le_of_mem_post v (by rw [hpost']; simp [hv]) a ha
    · have hgone : staysAfter closed (Carries.envelope x) b d = false := by
        simp [staysAfter, hclosed, hd.score_eq, hbc]
      rw [h.registered, hpost', List.filter_append, List.filter_append,
        List.filter_cons_of_neg (by simp [hgone])]

/-- Routing hands the envelope to the live matching waiter that is first by rank, then by
arrival, and queues it when there is none. -/
theorem routeEnvelope_spec (closed : ConnId → Bool) (state : HubState ε) (x : ε)
    (p : QueuePlacement) :
    (∃ pre w post b, HandsTo closed state x (routeEnvelope closed state x p) pre w post b) ∨
      Queues closed state x p (routeEnvelope closed state x p) := by
  fun_induction routeEnvelope closed state x p with
  | case1 state hws =>
    refine Or.inr (queues_of_no_match p fun w hw => ?_)
    simp [HubState.registered, hws] at hw
  | case2 state ws hws hbest =>
    refine Or.inr (queues_of_no_match p ?_)
    rw [registered_of_waiters _ _ hws]
    exact best_eq_none hbest
  | case3 state ws hws i hbest hclosed ih =>
    obtain ⟨pre, post, b, hl, herase, hmax⟩ := best_eq_some hbest
    have hreg : state.registered (Carries.envelope x).to = pre ++ ws.get i :: post :=
      (registered_of_waiters _ _ hws).trans hl
    have hreg' : (state.removeAt (Carries.envelope x).to ws i).registered
        (Carries.envelope x).to = pre ++ post := by
      rw [registered_removeAt, if_pos rfl, herase]
    rcases ih with ⟨pre', w, post', c, h⟩ | h
    · obtain ⟨pre'', post'', h'⟩ := h.insert_dead hreg hreg' rfl hmax hclosed
      exact Or.inl ⟨pre'', w, post'', c, h'⟩
    · refine Or.inr ⟨fun w hw hm => ?_, h.outcome, ?_, h.queues⟩
      · rw [hreg, List.mem_append, List.mem_cons] at hw
        rcases hw with hw | rfl | hw
        · exact h.all_dead w (by rw [hreg']; simp [hw]) hm
        · exact hclosed
        · exact h.all_dead w (by rw [hreg']; simp [hw]) hm
      · rw [h.registered, hreg', hreg, List.filter_append, List.filter_append,
          List.filter_cons_of_neg (by simpa using (rank_eq_some hmax.score_eq).1)]
  | case4 state ws hws i hbest hclosed =>
    obtain ⟨pre, post, b, hl, herase, hmax⟩ := best_eq_some hbest
    have hlive : closed (ws.get i).tx = false := by simpa using hclosed
    refine Or.inl ⟨pre, ws.get i, post, b, (registered_of_waiters _ _ hws).trans hl,
      ⟨liveRank_eq_some.2 ⟨hlive, hmax.score_eq⟩, fun v hv c hc =>
        hmax.lt_of_mem_pre v hv c (liveRank_eq_some.1 hc).2, fun v hv c hc =>
        hmax.le_of_mem_post v hv c (liveRank_eq_some.1 hc).2⟩, rfl, ?_, rfl⟩
    -- nothing before it has its rank, nothing after it a greater one : all others stay
    rw [registered_removeAt, if_pos rfl, herase, List.filter_eq_self.2, List.filter_eq_self.2]
    · intro v hv
      cases hr : v.rank (Carries.envelope x) with
      | none => simp [staysAfter, hr]
      | some c => simp [staysAfter, hr, hmax.le_of_mem_post v hv c hr]
    · intro v hv
      cases hr : v.rank (Carries.envelope x) with
      | none => simp [staysBefore, hr]
      | some c => simp [staysBefore, hr, hmax.lt_of_mem_pre v hv c hr]

/-! ## What routing leaves in the registry and the queues -/

section Consequences

variable (closed : ConnId → Bool) (state : HubState ε) (x : ε) (p : QueuePlacement)

theorem routeEnvelope_frame_registered {n : String} (hn : n ≠ (Carries.envelope x).to) :
    (routeEnvelope closed state x p).1.registered n = state.registered n := by
  simp only [HubState.registered, ((routeEnvelope_frame closed state x p).2 n hn).2]

/-- Routing only removes waiters. -/
theorem registered_sublist (n : String) :
    ((routeEnvelope closed state x p).1.registered n).Sublist (state.registered n) := by
  by_cases hn : n = (Carries.envelope x).to
  · subst hn
    rcases routeEnvelope_spec closed state x p with ⟨pre, w, post, b, h⟩ | h
    · rw [h.registered, h.registered_eq]
      exact (List.filter_sublist).append ((List.filter_sublist).trans (List.sublist_cons_self w post))
    · rw [h.registered]
      exact List.filter_sublist
  · rw [routeEnvelope_frame_registered closed state x p hn]

/-- The waiters routing removes are dead, but for the one it hands the envelope to. -/
theorem mem_registered_of_open {n : String} {w : Waiter} (hw : w ∈ state.registered n)
    (hopen : closed w.tx = false) (hne : (routeEnvelope closed state x p).2 ≠ .handedOff w.tx) :
    w ∈ (routeEnvelope closed state x p).1.registered n := by
  by_cases hn : n = (Carries.envelope x).to
  · subst hn
    rcases routeEnvelope_spec closed state x p with ⟨pre, v, post, b, h⟩ | h
    · rw [h.registered_eq, List.mem_append, List.mem_cons] at hw
      rw [h.registered, List.mem_append, List.mem_filter, List.mem_filter]
      rcases hw with hw | rfl | hw
      · exact Or.inl ⟨hw, by simp [staysBefore, hopen]⟩
      · exact absurd h.outcome hne
      · exact Or.inr ⟨hw, by simp [staysAfter, hopen]⟩
    · rw [h.registered, List.mem_filter]
      refine ⟨hw, ?_⟩
      by_contra hm
      have := h.all_dead w hw (by simpa using hm)
      rw [hopen] at this
      cases this
  · rwa [routeEnvelope_frame_registered closed state x p hn]

/-- A handoff goes to a live registered waiter that accepts the envelope. It leaves the
registry, and no queue changes. -/
theorem handedOff_spec {tx : ConnId} (h : (routeEnvelope closed state x p).2 = .handedOff tx) :
    ∃ pre w post, state.registered (Carries.envelope x).to = pre ++ w :: post ∧ w.tx = tx ∧
      closed tx = false ∧ w.filter.matches (Carries.envelope x) = true ∧
      ((routeEnvelope closed state x p).1.registered (Carries.envelope x).to).Sublist (pre ++ post) ∧
      (routeEnvelope closed state x p).1.queues = state.queues := by
  rcases routeEnvelope_spec closed state x p with ⟨pre, w, post, b, hw⟩ | hq
  · obtain ⟨hopen, hrank⟩ := liveRank_eq_some.1 hw.leftmost.score_eq
    obtain rfl := SendOutcome.handedOff.inj (hw.outcome.symm.trans h)
    exact ⟨pre, w, post, hw.registered_eq, rfl, hopen, (rank_eq_some hrank).1,
      hw.registered ▸ List.filter_sublist.append List.filter_sublist, hw.queues⟩
  · rw [hq.outcome] at h
    cases h

/-- An envelope is queued when every waiter that accepts it is dead. No waiter left in the
registry accepts it. -/
theorem queued_spec {depth : ℕ} (h : (routeEnvelope closed state x p).2 = .queued depth) :
    (∀ w ∈ state.registered (Carries.envelope x).to,
      w.filter.matches (Carries.envelope x) = true → closed w.tx = true) ∧
    (∀ w ∈ (routeEnvelope closed state x p).1.registered (Carries.envelope x).to,
      w.filter.matches (Carries.envelope x) = false) ∧
    (routeEnvelope closed state x p).1.queues = (state.enqueue x p).1.queues := by
  rcases routeEnvelope_spec closed state x p with ⟨pre, w, post, b, hw⟩ | hq
  · rw [hw.outcome] at h
    cases h
  · refine ⟨hq.all_dead, fun w hw => ?_, hq.queues⟩
    rw [hq.registered, List.mem_filter] at hw
    simpa using hw.2

/-- A live waiter at the head of its list takes what it accepts, when none behind it
outranks it. -/
theorem handedOff_head {w : Waiter} {post : List Waiter} {b : Bool ×ₗ Bool}
    (hreg : state.registered (Carries.envelope x).to = w :: post) (hopen : closed w.tx = false)
    (hrank : w.rank (Carries.envelope x) = some b)
    (hpost : ∀ v ∈ post, ∀ a, v.rank (Carries.envelope x) = some a → a ≤ b) :
    (routeEnvelope closed state x p).2 = .handedOff w.tx ∧
      (routeEnvelope closed state x p).1.registered (Carries.envelope x).to =
        post.filter (staysAfter closed (Carries.envelope x) b) := by
  have hlive : liveRank closed (Carries.envelope x) w = some b := liveRank_eq_some.2 ⟨hopen, hrank⟩
  rcases routeEnvelope_spec closed state x p with ⟨pre, v, post', c, h⟩ | h
  · have hsplit : w :: post = pre ++ v :: post' := hreg.symm.trans h.registered_eq
    cases pre with
    | nil =>
      obtain ⟨rfl, rfl⟩ := List.cons.inj hsplit
      obtain rfl : b = c := Option.some.inj (hlive.symm.trans h.leftmost.score_eq)
      exact ⟨h.outcome, h.registered⟩
    | cons u pre =>
      obtain ⟨rfl, rfl⟩ := List.cons.inj hsplit
      have hlt := h.leftmost.lt_of_mem_pre w List.mem_cons_self b hlive
      have hle := hpost v (by simp) c (liveRank_eq_some.1 h.leftmost.score_eq).2
      exact absurd (hlt.trans_le hle) (lt_irrefl b)
  · have := h.all_dead w (hreg ▸ List.mem_cons_self) (rank_eq_some hrank).1
    rw [hopen] at this
    cases this

end Consequences

end AgentHub
