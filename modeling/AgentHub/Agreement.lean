import AgentHub.Representation

/-!
# Live handoff and queued delivery agree

An envelope reaches an await on two paths : it is queued and then taken, or the await is
parked and then handed to. Where nobody else is interested, both deliver it and leave the
same maps, keys included, which are the ones there were before. Only the waiter id differs
that the parked await drew.
-/

namespace AgentHub

open Function

/-- Compact states that read the same are the same. -/
theorem HubState.Compact.eq {ε : Type} {state state' : HubState ε} (h : state.Compact)
    (h' : state'.Compact)
    (hqueue : ∀ n, state.queue n = state'.queue n)
    (hreg : ∀ n, state.registered n = state'.registered n)
    (hnext : state.nextWaiterId = state'.nextWaiterId) : state = state' := by
  have hqueues := h.queues.eq_of_lists h'.queues hqueue
  have hwaiters := h.waiters.eq_of_lists h'.waiters hreg
  cases state
  cases state'
  cases hqueues
  cases hwaiters
  cases hnext
  rfl

section State

variable {ε : Type} [Carries ε] {state state' : HubState ε} {filter : AwaitFilter} {x : ε}

/-- Where no waiter accepts the envelope, it queues and the registry stays as it is. -/
theorem route_of_unwanted (closed : ConnId → Bool)
    (hwaiters : ∀ w ∈ state.registered (Carries.envelope x).to,
      w.filter.matches (Carries.envelope x) = false) :
    (routeEnvelope closed state x .back).2 =
        .queued ((state.queue (Carries.envelope x).to).length + 1) ∧
      (∀ n, (routeEnvelope closed state x .back).1.registered n = state.registered n) ∧
      (routeEnvelope closed state x .back).1.queues = (state.enqueue x .back).1.queues := by
  rcases routeEnvelope_spec closed state x .back with ⟨pre, w, post, b, h⟩ | h
  · have hmatch := (rank_eq_some (liveRank_eq_some.1 h.leftmost.score_eq).2).1
    rw [hwaiters w (by rw [h.registered_eq]; simp)] at hmatch
    cases hmatch
  · refine ⟨h.outcome.trans (by simp [HubState.enqueue, HubState.queue]), fun n => ?_, h.queues⟩
    by_cases hn : n = (Carries.envelope x).to
    · rw [hn, h.registered, List.filter_eq_self.2]
      intro w hw
      simp [hwaiters w hw]
    · exact routeEnvelope_frame_registered closed state x .back hn

/-- Committed first, the envelope goes to the end of the queue, past the envelopes that the
await does not want, and is taken from there. -/
theorem take_after_route (hcompact : state.Compact) (closed : ConnId → Bool)
    (hpass : filter.matches (Carries.envelope x) = true)
    (hwaiters : ∀ w ∈ state.registered (Carries.envelope x).to,
      w.filter.matches (Carries.envelope x) = false)
    (hqueue : ∀ y ∈ state.queue (Carries.envelope x).to,
      filter.matches (Carries.envelope y) = false) :
    (routeEnvelope closed state x .back).2 =
        .queued ((state.queue (Carries.envelope x).to).length + 1) ∧
      takeQueued (routeEnvelope closed state x .back).1 (Carries.envelope x).to filter =
        some (x, state) := by
  obtain ⟨hout, hreg, hqueues⟩ := route_of_unwanted closed hwaiters
  refine ⟨hout, ?_⟩
  have hrouted : (routeEnvelope closed state x .back).1.queue = (state.enqueue x .back).1.queue := by
    funext n
    simp only [HubState.queue, hqueues]
  have hback : (routeEnvelope closed state x .back).1.queue (Carries.envelope x).to =
      state.queue (Carries.envelope x).to ++ [x] := by
    rw [hrouted, queue_enqueue, if_pos rfl]
  cases htake : takeQueued (routeEnvelope closed state x .back).1 (Carries.envelope x).to filter with
  | none =>
    have := takeQueued_eq_none htake x (by rw [hback]; simp)
    rw [hpass] at this
    cases this
  | some taken =>
    obtain ⟨y, state'⟩ := taken
    obtain ⟨pre, post, hsplit, hy, -, hqueue', hwaiters', hnext⟩ := takeQueued_eq_some htake
    obtain ⟨hpre, rfl, rfl⟩ := split_at_last (p := fun y => filter.matches (Carries.envelope y))
      (hback.symm.trans hsplit) hy hqueue
    have heq : state' = state := by
      refine ((hcompact.route x .back).take htake).eq hcompact (fun n => ?_) (fun n => ?_) ?_
      · rw [hqueue' n]
        split_ifs with hn
        · rw [hn, ← hpre, List.append_nil]
        · rw [hrouted, queue_enqueue, if_neg hn]
      · rw [← hreg n]
        simp only [HubState.registered, hwaiters']
      · exact hnext.trans (routeEnvelope_frame closed state x .back).1
    rw [heq]

/-- Parked first, the await is the one waiter that accepts the envelope, and leaves the
registry with it. -/
theorem route_after_park (hcompact : state.Compact) {closed : ConnId → Bool} {tx : ConnId}
    (hopen : closed tx = false) (hpass : filter.matches (Carries.envelope x) = true)
    (hwaiters : ∀ w ∈ state.registered (Carries.envelope x).to,
      w.filter.matches (Carries.envelope x) = false) :
    routeEnvelope closed (state.park (Carries.envelope x).to filter tx) x .back =
      ({ state with nextWaiterId := state.nextWaiterId + 1 }, .handedOff tx) := by
  have hparked := registered_park state (Carries.envelope x).to filter tx (Carries.envelope x).to
  rw [if_pos rfl] at hparked
  have hcompact' := hcompact.park (Carries.envelope x).to filter tx
  generalize hp : state.park (Carries.envelope x).to filter tx = parked at hparked hcompact'
  rcases routeEnvelope_spec closed parked x .back with ⟨pre, w, post, b, h⟩ | h
  · obtain ⟨hpre, rfl, rfl⟩ := split_at_last
      (p := fun w : Waiter => w.filter.matches (Carries.envelope x))
      (hparked.symm.trans h.registered_eq)
      (rank_eq_some (liveRank_eq_some.1 h.leftmost.score_eq).2).1 hwaiters
    have hstay : pre.filter (staysBefore closed (Carries.envelope x) b) = pre := by
      refine List.filter_eq_self.2 fun v hv => ?_
      have hrank : v.rank (Carries.envelope x) = none := rank_eq_none.2 (hwaiters v (hpre ▸ hv))
      simp [staysBefore, hrank]
    have heq : (routeEnvelope closed parked x .back).1 =
        { state with nextWaiterId := state.nextWaiterId + 1 } := by
      refine (hcompact'.route x .back).eq ⟨hcompact.queues, hcompact.waiters⟩ (fun n => ?_)
        (fun n => ?_) ?_
      · have hq : (routeEnvelope closed parked x .back).1.queue n = parked.queue n := by
          simp only [HubState.queue, h.queues]
        rw [hq, ← hp]
        rfl
      · by_cases hn : n = (Carries.envelope x).to
        · rw [hn, h.registered, hstay, List.filter_nil, List.append_nil, ← hpre]
          rfl
        · rw [routeEnvelope_frame_registered closed parked x .back hn, ← hp, registered_park,
            if_neg hn]
          rfl
      · rw [(routeEnvelope_frame closed parked x .back).1, ← hp]
        rfl
    exact Prod.ext heq h.outcome
  · have hdead := h.all_dead ⟨state.nextWaiterId, filter, tx⟩ (by rw [hparked]; simp) hpass
    rw [hopen] at hdead
    cases hdead

end State

namespace Hub

variable {L : Libs} {roster : Roster} {audit : AuditLog} {s : Hub}

/-- In every reachable state, an envelope `x` for `n` and an await of `n` that wants it and
nothing queued, while no registered waiter of `n` accepts `x` : committed first, `x` is queued
and taken; parked first, the await is handed `x`. Both orders end with the same queues and
waiters, keys included, and differ in the id counter at most. -/
theorem handoff_agrees (h : Reach L roster audit s) {n : String} {filter : AwaitFilter} {x : Stamped}
    (hto : x.envelope.to = n) (hpass : filter.matches x.envelope = true)
    (hwaiters : ∀ w ∈ s.state.registered n, w.filter.matches x.envelope = false)
    (hqueue : ∀ y ∈ s.state.queue n, filter.matches y.envelope = false)
    (closed closed' : ConnId → Bool) {tx : ConnId} (hopen : closed' tx = false) :
    ∃ committed taken routed, ∃ depth,
      routeEnvelope closed s.state x .back = (committed, .queued depth) ∧
      takeQueued committed n filter = some (x, taken) ∧
      takeQueued s.state n filter = none ∧
      routeEnvelope closed' (s.state.park n filter tx) x .back = (routed, .handedOff tx) ∧
      taken.queues = routed.queues ∧ taken.waiters = routed.waiters ∧
      taken.nextWaiterId = s.state.nextWaiterId ∧
      routed.nextWaiterId = s.state.nextWaiterId + 1 := by
  subst hto
  have hcompact := compact_of_reach h
  obtain ⟨hout, htake⟩ := take_after_route (x := x) hcompact closed hpass hwaiters hqueue
  have hroute := route_after_park (x := x) hcompact hopen hpass hwaiters
  refine ⟨_, s.state, _, _, Prod.ext rfl hout, htake, ?_, hroute, rfl, rfl, rfl, rfl⟩
  cases hnone : takeQueued s.state x.envelope.to filter with
  | none => rfl
  | some taken =>
    obtain ⟨pre, post, hsplit, hy, -⟩ := takeQueued_eq_some hnone
    cases (hqueue taken.1 (by rw [hsplit]; simp)).symm.trans hy

/-- `alice` wants a task while a result is queued for her. -/
theorem handoff_agrees_past_result : ∃ s, SampleReach s ∧ (s.state.queue "alice").length = 1 ∧
    ∃ committed taken routed, ∃ depth,
      routeEnvelope (fun _ => true) s.state ⟨sampleEnvelope "m3" "task", 2⟩ .back =
        (committed, .queued depth) ∧
      takeQueued committed "alice" ⟨none, some "task"⟩ =
        some (⟨sampleEnvelope "m3" "task", 2⟩, taken) ∧
      takeQueued s.state "alice" ⟨none, some "task"⟩ = none ∧
      routeEnvelope (fun _ => false) (s.state.park "alice" ⟨none, some "task"⟩ 7)
        ⟨sampleEnvelope "m3" "task", 2⟩ .back = (routed, .handedOff 7) ∧
      taken.queues = routed.queues ∧ taken.waiters = routed.waiters ∧
      taken.nextWaiterId = s.state.nextWaiterId ∧
      routed.nextWaiterId = s.state.nextWaiterId + 1 := by
  obtain ⟨s, h, hs⟩ := @exists_of_runSample exchange (fun s => (s.state.queue "alice").length = 1 ∧
    (∀ y ∈ s.state.queue "alice", (AwaitFilter.mk none (some "task")).matches y.envelope = false) ∧
    ∀ w ∈ s.state.registered "alice", w.filter.matches (sampleEnvelope "m3" "task") = false)
    (by decide +kernel)
  obtain ⟨hlen, hqueue, hwaiters⟩ := of_decide_eq_true hs
  exact ⟨s, h, hlen, handoff_agrees h rfl rfl hwaiters hqueue _ _ rfl⟩

end Hub

end AgentHub
