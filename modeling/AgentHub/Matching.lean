import AgentHub.Registry
import AgentHub.Sample

/-!
# No missed match

No queued envelope passes the filter of a registered waiter (`NoMissedMatch`). Routing
queues an envelope only when no waiter that accepts it is left, and an await registers only
when it finds nothing in the queue, both under the state lock; the other operations only
remove. So a task that waits on an open channel would accept nothing that is queued, and a
handoff bypasses nothing its waiter would have taken (`no_missed_match`).
-/

namespace AgentHub

section State

variable {ε : Type} [Carries ε] {closed : ConnId → Bool} {state state' : HubState ε}

/-- The operations on the routing state. -/
inductive HubState.Op (closed : ConnId → Bool) (state : HubState ε) : HubState ε → Prop
  | none : Op closed state state
  | route (x : ε) (p : QueuePlacement) : Op closed state (routeEnvelope closed state x p).1
  | take {name : String} {filter : AwaitFilter} {x : ε} {state' : HubState ε}
      (h : takeQueued state name filter = some (x, state')) : Op closed state state'
  | park {name : String} {filter : AwaitFilter} {tx : ConnId}
      (h : takeQueued state name filter = Option.none) : Op closed state (state.park name filter tx)
  | remove {name : String} {id : UInt64} {w : Waiter} {state' : HubState ε}
      (h : removeWaiter state name id = some (w, state')) : Op closed state state'

/-- No queued envelope passes the filter of a registered waiter. -/
def NoMissedMatch (state : HubState ε) : Prop :=
  ∀ n, ∀ w ∈ state.registered n, ∀ x ∈ state.queue n, w.filter.matches (Carries.envelope x) = false

theorem NoMissedMatch.mono (h : NoMissedMatch state)
    (hreg : ∀ n, state'.registered n ⊆ state.registered n)
    (hqueue : ∀ n, state'.queue n ⊆ state.queue n) : NoMissedMatch state' :=
  fun n w hw x hx => h n w (hreg n hw) x (hqueue n hx)

theorem NoMissedMatch.route (h : NoMissedMatch state) (x : ε) (p : QueuePlacement) :
    NoMissedMatch (routeEnvelope closed state x p).1 := by
  have hsub := registered_sublist closed state x p
  cases hout : (routeEnvelope closed state x p).2 with
  | handedOff tx =>
    obtain ⟨pre, w, post, -, -, -, -, -, hqueues⟩ := handedOff_spec closed state x p hout
    exact h.mono (fun n => (hsub n).subset) fun n => by simp [HubState.queue, hqueues]
  | queued depth =>
    obtain ⟨-, hnone, hqueues⟩ := queued_spec closed state x p hout
    intro n w hw y hy
    have hqueue : (routeEnvelope closed state x p).1.queue n = (state.enqueue x p).1.queue n := by
      simp only [HubState.queue, hqueues]
    rw [hqueue, queue_enqueue] at hy
    split_ifs at hy with hn
    · subst hn
      have hy' : y = x ∨ y ∈ state.queue (Carries.envelope x).to := by
        cases p <;> simpa [or_comm] using hy
      rcases hy' with rfl | hy
      · exact hnone w hw
      · exact h _ w ((hsub _).subset hw) y hy
    · exact h n w ((hsub n).subset hw) y hy

theorem NoMissedMatch.park (h : NoMissedMatch state) {name : String} {filter : AwaitFilter}
    {tx : ConnId} (htake : takeQueued state name filter = none) :
    NoMissedMatch (state.park name filter tx) := by
  intro n w hw x hx
  rw [queue_park] at hx
  rw [registered_park] at hw
  split_ifs at hw with hn
  · subst hn
    rcases List.mem_append.1 hw with hw | hw
    · exact h n w hw x hx
    · rw [List.mem_singleton.1 hw]
      exact takeQueued_eq_none htake x hx
  · exact h n w hw x hx

/-- Every operation on the routing state keeps the queues free of matches. -/
theorem NoMissedMatch.op (h : NoMissedMatch state) (hop : HubState.Op closed state state') :
    NoMissedMatch state' := by
  cases hop with
  | none => exact h
  | route x p => exact h.route x p
  | take htake =>
    obtain ⟨pre, post, hq, -, -, hqueue, hwaiters, -⟩ := takeQueued_eq_some htake
    refine h.mono (fun n => by simp [HubState.registered, hwaiters]) fun n => ?_
    rw [hqueue]
    split_ifs with hn
    · rw [hn, hq]
      intro y hy
      simp only [List.mem_append, List.mem_cons] at hy ⊢
      tauto
    · exact List.Subset.refl _
  | park htake => exact h.park htake
  | remove hremove =>
    obtain ⟨pre, post, hw, -, -, hreg, hqueues, -⟩ := removeWaiter_eq_some hremove
    refine h.mono (fun n => ?_) fun n => by simp [HubState.queue, hqueues]
    rw [hreg]
    split_ifs with hn
    · rw [hn, hw]
      intro y hy
      simp only [List.mem_append, List.mem_cons] at hy ⊢
      tauto
    · exact List.Subset.refl _

end State

namespace Hub

variable {L : Libs} {roster : Roster} {audit : AuditLog} {s s' : Hub}

/-- A step of the hub does at most one operation on the routing state. -/
theorem op_of_step {a : DateTime × Action} (h : Step L roster s a s') :
    HubState.Op s.closed s.state s'.state := by
  cases h with
  | accept | task | lockAudit | append | unlockAudit | loseRace => exact .none
  | route | requeue =>
    rw [routing_state]
    exact .route _ _
  | take hk hpc htake => exact .take htake
  | park hk hpc htake => exact .park htake
  | deregister hk hpc hremove =>
    rw [onChan_state]
    exact .remove hremove

theorem noMissedMatch_of_reach (h : Reach L roster audit s) : NoMissedMatch s.state :=
  Machine.Reach.invariant (P := fun s => NoMissedMatch s.state) h
    (fun n w hw => by simp [Hub.init] at hw) fun _ _ _ h hs => h.op (op_of_step (step_cases hs))

/-- In every reachable state, no queued envelope passes the filter of a waiter registered
for its agent. An await that waits on an open channel would accept nothing that is queued,
and neither would the waiter a handoff goes to. -/
theorem no_missed_match (h : Reach L roster audit s) :
    (∀ n, ∀ w ∈ s.state.registered n, ∀ x ∈ s.state.queue n,
      w.filter.matches x.envelope = false) ∧
    (∀ c k n replyTo kind timeoutSecs, s.conns c = some k → k.pc.waiting = some n →
      k.chan.txAlive = true → .verb c n (.await replyTo kind timeoutSecs) ∈ s.trace →
      ∀ x ∈ s.state.queue n, (AwaitFilter.mk replyTo kind).matches x.envelope = false) ∧
    ∀ x p tx, (routeEnvelope s.closed s.state x p).2 = .handedOff tx →
      ∃ w ∈ s.state.registered x.envelope.to, w.tx = tx ∧ w.filter.matches x.envelope = true ∧
        ∀ y ∈ s.state.queue x.envelope.to, w.filter.matches y.envelope = false := by
  have hmatch := noMissedMatch_of_reach h
  refine ⟨hmatch, fun c k n replyTo kind timeoutSecs hk hpc htx hverb => ?_, fun x p tx hout => ?_⟩
  · obtain ⟨w, hw, rfl⟩ := (registry_of_reach h).of_open c k n hk hpc htx
    obtain ⟨kw, hkw⟩ := (registry_of_reach h).registered n w hw
    obtain ⟨secs, hverb'⟩ := hkw.verb
    -- the waiter has the filter of the await that registered it
    have heq := (verb_unique h hverb hverb').2
    obtain ⟨rfl, rfl, rfl⟩ := ClientLine.await.inj heq
    exact hmatch n w hw
  · obtain ⟨pre, w, post, hw, htx, -, hm, -⟩ := handedOff_spec s.closed s.state x p hout
    have hmem : w ∈ s.state.registered x.envelope.to := by
      have : s.state.registered x.envelope.to = pre ++ w :: post := hw
      simp [this]
    exact ⟨w, hmem, htx, hm, hmatch _ w hmem⟩

/-- A task is queued past an await for results. -/
theorem no_missed_match_past_filter : ∃ s, SampleReach s ∧
    (s.state.queue "alice").length = 1 ∧ (s.state.registered "alice").length = 1 ∧
    ∀ w ∈ s.state.registered "alice", ∀ x ∈ s.state.queue "alice",
      w.filter.matches x.envelope = false := by
  obtain ⟨s, h, hs⟩ := @exists_of_runSample (opening 0 aliceHello.bytes awaitResult.bytes ++
    [.await 0] ++ opening 1 bobHello.bytes sendTask.bytes ++
    committing 1 (sampleEnvelope "m1" "task")) (fun s => (s.state.queue "alice").length = 1 ∧
      (s.state.registered "alice").length = 1) (by decide +kernel)
  obtain ⟨hqueue, hreg⟩ := of_decide_eq_true hs
  exact ⟨s, h, hqueue, hreg, (no_missed_match h).1 "alice"⟩

end Hub

end AgentHub
