import AgentHub.Custody
import AgentHub.Matching
import AgentHub.Sample
import Mathlib.Data.List.Sort

/-!
# The order of the queues

A requeue puts its envelope at the front of the queue, on the ground that it was already the
oldest deliverable traffic of its agent. That holds as long as no envelope accepted before
it has stayed queued (`Hub.RequeuesOldest`), and then every queue stands in the order of
acceptance (`fifo_of_oldest`). A filtered await takes from the middle of the queue, so its
failed delivery can bring an envelope before older ones (`exists_overtaken`).
-/

namespace AgentHub

/-- Whether the action is a requeue. -/
def Action.requeues : Action → Bool
  | .requeue _ => true
  | _ => false

namespace Hub

variable {L : Libs} {roster : Roster} {audit : AuditLog} {s s' : Hub}

/-- Every queue is in the order of acceptance. -/
def Fifo (s : Hub) : Prop :=
  ∀ n, (s.state.queue n).Pairwise fun x y => x.seq < y.seq

/-- No live waiter of its destination accepts the envelope. -/
def Unclaimed (s : Hub) (x : Stamped) : Prop :=
  ∀ w ∈ s.state.registered x.envelope.to, w.filter.matches x.envelope = true → s.closed w.tx = true

/-- An envelope that is requeued is claimed, or everything queued for its agent was accepted
after it. -/
def RequeuesOldest (s : Hub) (a : DateTime × Action) : Prop :=
  ∀ c name x source, a.2 = .requeue c → s.pc c = some (.requeueing name x source) → Unclaimed s x →
    ∀ y ∈ s.state.queue x.envelope.to, x.seq < y.seq

theorem Fifo.mono (h : Fifo s) (hsub : ∀ n, (s'.state.queue n).Sublist (s.state.queue n)) :
    Fifo s' :=
  fun n => (h n).sublist (hsub n)

/-- What is accepted later has a greater number. -/
theorem pairwise_seq_of_reach (h : Reach L roster audit s) :
    (acceptedOf s.trace).Pairwise fun x y => x.seq < y.seq := by
  rw [← List.pairwise_map, seq_of_reach h]
  exact List.pairwise_lt_range

/-- The envelope a commit routes was accepted after all that are queued. -/
theorem lt_of_unrouted (h : Reach L roster audit s) {c : ConnId} {k : Conn} {x : Stamped}
    (hk : s.conns c = some k) (hx : k.pc.unrouted = some x) {n : String} {y : Stamped}
    (hy : y ∈ s.state.queue n) : y.seq < x.seq := by
  have hpair := pairwise_seq_of_reach h
  rw [(auditOrder_of_reach h).pending c k x hk hx, List.pairwise_append] at hpair
  exact hpair.2.2 y ((custody_of_reach h).routed (.queue n) y hy) x (by simp)

section Routing

variable {c : ConnId} {k : Conn} {pc : Pc} {x : Stamped} {p : QueuePlacement}

/-- A claimed envelope changes no queue. -/
theorem queue_routing_of_claimed (h : ¬Unclaimed s x) (n : String) :
    (s.routing c k pc x p).state.queue n = s.state.queue n := by
  rw [routing_state]
  cases hout : (routeEnvelope s.closed s.state x p).2 with
  | handedOff tx =>
    obtain ⟨pre, w, post, -, -, -, -, -, hqueues⟩ := handedOff_spec s.closed s.state x p hout
    simp only [HubState.queue, hqueues]
  | queued depth => exact absurd (queued_spec s.closed s.state x p hout).1 h

/-- An unclaimed one queues. -/
theorem queue_routing_of_unclaimed (h : Unclaimed s x) (n : String) :
    (s.routing c k pc x p).state.queue n = (s.state.enqueue x p).1.queue n := by
  rw [routing_state]
  cases hout : (routeEnvelope s.closed s.state x p).2 with
  | handedOff tx =>
    obtain ⟨pre, w, post, hw, rfl, hopen, hm, -⟩ := handedOff_spec s.closed s.state x p hout
    have hw' : w ∈ s.state.registered x.envelope.to := by
      have : s.state.registered x.envelope.to = pre ++ w :: post := hw
      simp [this]
    have := h w hw' hm
    rw [hopen] at this
    cases this
  | queued depth =>
    simp only [HubState.queue, (queued_spec s.closed s.state x p hout).2.2]

/-- A commit keeps the order : its envelope goes to the back. -/
theorem Fifo.route {role : Role} {e : Envelope} (h : Fifo s) (hreach : Reach L roster audit s)
    (hk : s.conns c = some k) (hpc : k.pc = .committing (.appended x) role e) :
    Fifo (s.routing c k pc x .back) := by
  intro n
  by_cases hx : Unclaimed s x
  · rw [queue_routing_of_unclaimed hx, queue_enqueue]
    split_ifs with hn
    · refine List.pairwise_append.2 ⟨h n, List.pairwise_singleton _ _, fun y hy z hz => ?_⟩
      rw [List.mem_singleton.1 hz]
      exact lt_of_unrouted hreach hk (by rw [hpc]; rfl) hy
    · exact h n
  · rw [queue_routing_of_claimed hx]
    exact h n

/-- A requeue keeps the order exactly if its envelope is the oldest. -/
theorem fifo_requeue_iff (h : Fifo s) : Fifo (s.routing c k pc x .front) ↔
    (Unclaimed s x → ∀ y ∈ s.state.queue x.envelope.to, x.seq < y.seq) := by
  by_cases hx : Unclaimed s x
  · have hqueue : ∀ n, (s.routing c k pc x .front).state.queue n =
        if n = x.envelope.to then x :: s.state.queue n else s.state.queue n := fun n => by
      rw [queue_routing_of_unclaimed hx, queue_enqueue]
      rfl
    constructor
    · intro h' _
      have := h' x.envelope.to
      rw [hqueue, if_pos rfl, List.pairwise_cons] at this
      exact this.1
    · intro hold n
      rw [hqueue]
      split_ifs with hn
      · exact List.pairwise_cons.2 ⟨hn ▸ hold hx, h n⟩
      · exact h n
  · have hqueue := @queue_routing_of_claimed s c k pc x .front hx
    refine ⟨fun _ hu => absurd hu hx, fun _ => h.mono fun n => ?_⟩
    rw [hqueue]

end Routing

/-- The other steps only take from queues. -/
theorem Fifo.step {a : DateTime × Action} (h : Fifo s) (hreach : Reach L roster audit s)
    (hq : RequeuesOldest s a) (hstep : Step L roster s a s') : Fifo s' := by
  cases hstep with
  | accept | task | lockAudit | append | unlockAudit | loseRace | park => exact h.mono fun n => .refl _
  | route hk hpc => exact h.route hreach hk hpc
  | @requeue now c k name source x hk hpc =>
    refine (fifo_requeue_iff h).2 fun hx => hq c name x source rfl ?_ hx
    exact pc_eq_some.2 ⟨k, hk, hpc⟩
  | take hk hpc htake =>
    obtain ⟨pre, post, hqueue, -, -, hqueue', -⟩ := takeQueued_eq_some htake
    refine h.mono fun n => ?_
    rw [hqueue']
    split_ifs with hn
    · rw [hn, hqueue]
      exact (List.Sublist.refl pre).append (List.sublist_cons_self _ post)
    · exact .refl _
  | deregister hk hpc hremove =>
    obtain ⟨pre, post, -, -, -, -, hqueues, -⟩ := removeWaiter_eq_some hremove
    refine h.mono fun n => ?_
    rw [onChan_state]
    simp only [HubState.queue, hqueues]
    exact .refl _

theorem fifo_of_reachVia (h : Machine.ReachVia (step L roster) RequeuesOldest (Hub.init audit) s) :
    Fifo s :=
  Machine.ReachVia.invariant h (fun n => by simp [Hub.init]) fun _ _ _ hr hP hq hs =>
    hP.step hr.reach hq (step_cases hs)

/-- The numbers say where an envelope stands among the accepted ones. -/
theorem fifo_iff_sublist (hreach : Reach L roster audit s) :
    Fifo s ↔ ∀ n, (s.state.queue n).Sublist (acceptedOf s.trace) := by
  have hcustody := custody_of_reach hreach
  constructor
  · intro h n
    have : Std.Antisymm fun x y : Stamped => x.seq < y.seq := ⟨fun x y hxy hyx => by omega⟩
    refine List.sublist_of_subperm_of_pairwise (List.subperm_of_subset ?_ fun x hx => ?_) (h n)
      (pairwise_seq_of_reach hreach)
    · exact List.Nodup.of_map Stamped.seq (hcustody.exclusive.once (.queue n))
    · exact mem_acceptedOf_of_routed hreach (hcustody.routed (.queue n) x hx)
  · exact fun h n => (pairwise_seq_of_reach hreach).sublist (h n)

/-- In a run that requeues only what is the oldest of its queue, every queue stands in the
order of acceptance, and an unfiltered await that takes from it takes the envelope accepted
first. In such a run a requeue keeps the order exactly if it meets the condition too. -/
theorem fifo_of_oldest (h : Machine.ReachVia (step L roster) RequeuesOldest (Hub.init audit) s) :
    (∀ n, (s.state.queue n).Sublist (acceptedOf s.trace)) ∧
    (∀ n x state, takeQueued s.state n ⟨none, none⟩ = some (x, state) →
      ∀ y ∈ s.state.queue n, x.seq ≤ y.seq) ∧
    ∀ now c s', s.step L roster (now, .requeue c) = some s' →
      ((∀ n, (s'.state.queue n).Sublist (acceptedOf s'.trace)) ↔
        RequeuesOldest s (now, .requeue c)) := by
  have hreach : Reach L roster audit s := h.reach
  have hfifo := fifo_of_reachVia h
  refine ⟨(fifo_iff_sublist hreach).1 hfifo, fun n x state htake y hy => ?_, fun now c s' hs => ?_⟩
  · obtain ⟨pre, post, hqueue, -, hpre, -⟩ := takeQueued_eq_some htake
    have hnil : pre = [] := by
      cases pre with
      | nil => rfl
      | cons z pre =>
        have := hpre z List.mem_cons_self
        simp [AwaitFilter.matches] at this
    have hpair := hfifo n
    rw [hqueue, hnil, List.nil_append, List.pairwise_cons] at hpair
    rw [hqueue, hnil, List.nil_append, List.mem_cons] at hy
    rcases hy with rfl | hy
    · exact le_rfl
    · exact (hpair.1 y hy).le
  · rw [← fifo_iff_sublist (.next hreach trivial hs)]
    cases step_cases hs with
    | requeue hk hpc =>
      rw [fifo_requeue_iff hfifo]
      constructor
      · rintro hold c' name' x' source' ⟨⟩ hpc'
        rw [pc_eq_some.2 ⟨_, hk, hpc⟩] at hpc'
        cases hpc'
        exact hold
      · exact fun hq => hq _ _ _ _ rfl (pc_eq_some.2 ⟨_, hk, hpc⟩)

/-- `bob` has sent a task and then a result, and `alice` awaits on the connection `0` with
the line `line`. -/
def backlog (line : List UInt8) : List Action :=
  opening 1 bobHello.bytes sendTask.bytes ++ committing 1 (sampleEnvelope "m1" "task") ++
  opening 2 bobHello.bytes sendResult.bytes ++ committing 2 (sampleEnvelope "m2" "result") ++
  opening 0 aliceHello.bytes line ++ [.await 0, .task 0 (.wrote (.err (.other "Broken pipe")))]

/-- The delivery of the older envelope fails, and it is requeued before the younger one. -/
theorem fifo_of_oldest_backlog : ∃ s, Machine.ReachVia (step sampleLibs sampleRoster) RequeuesOldest
    (Hub.init sampleAudit) s ∧ (s.state.queue "alice").map Stamped.seq = [0, 1] ∧
    ∀ n, (s.state.queue n).Sublist (acceptedOf s.trace) := by
  have hrun : ((runSample (backlog awaitAny.bytes)).any fun s =>
      (s.state.queue "alice").map Stamped.seq = [1] ∧ (((s.pc 0).bind Pc.carried).any fun x =>
        x.seq = 0 ∧ x.envelope.to = "alice") ∧ (s.step sampleLibs sampleRoster (0, .requeue 0)).any fun s =>
      (s.state.queue "alice").map Stamped.seq = [0, 1]) = true := by decide +kernel
  obtain ⟨s₁, hs₁, hP⟩ := Option.any_eq_true _ _ |>.1 hrun
  obtain ⟨hqueue, hpc, hstep⟩ := of_decide_eq_true hP
  obtain ⟨s, hs, hqueue'⟩ := Option.any_eq_true _ _ |>.1 hstep
  have hprefix : Machine.ReachVia (step sampleLibs sampleRoster) RequeuesOldest
      (Hub.init sampleAudit) s₁ := by
    refine Machine.reachVia_of_run hs₁ fun s a ha => ?_
    have hnone : ∀ a ∈ backlog awaitAny.bytes, a.requeues = false := by decide +kernel
    obtain ⟨b, hb, rfl⟩ := List.mem_map.1 ha
    rintro c name x source rfl
    exact absurd (hnone _ hb) (by simp [Action.requeues])
  have holdest : RequeuesOldest s₁ (0, .requeue 0) := by
    rintro c name x source ⟨⟩ hx - y hy
    simp only [hx, Option.bind_some, Pc.carried, Option.any_some, decide_eq_true_eq] at hpc
    rw [hpc.2] at hy
    have : y.seq ∈ [1] := hqueue ▸ List.mem_map_of_mem hy
    rw [List.mem_singleton.1 this, hpc.1]
    decide
  have h := Machine.ReachVia.next hprefix holdest hs
  exact ⟨s, h, of_decide_eq_true hqueue', (fifo_of_oldest h).1⟩

/-- The delivery of a younger envelope fails, taken by an await for results : it is requeued
before the older one, and the next await takes it first. -/
theorem exists_overtaken : ∃ s, SampleReach s ∧ (s.state.queue "alice").map Stamped.seq = [1, 0] ∧
    (¬∀ n, (s.state.queue n).Sublist (acceptedOf s.trace)) ∧
    ∃ x state, takeQueued s.state "alice" ⟨none, none⟩ = some (x, state) ∧
      ∃ y ∈ s.state.queue "alice", y.seq < x.seq := by
  obtain ⟨s, h, hs⟩ := @exists_of_runSample (backlog awaitResult.bytes ++ [.requeue 0])
    (fun s => (s.state.queue "alice").map Stamped.seq = [1, 0] ∧
      (takeQueued s.state "alice" ⟨none, none⟩).any fun r => r.1.seq = 1) (by decide +kernel)
  obtain ⟨hseq, htake⟩ := of_decide_eq_true hs
  obtain ⟨r, hr, hr'⟩ := Option.any_eq_true _ _ |>.1 htake
  obtain ⟨y, hy, hy'⟩ : ∃ y ∈ s.state.queue "alice", y.seq = 0 :=
    List.mem_map.1 (hseq ▸ List.mem_cons_of_mem _ List.mem_cons_self)
  refine ⟨s, h, hseq, fun hsub => ?_, r.1, r.2, hr, y, hy, ?_⟩
  · have hpair := List.pairwise_map.2 ((fifo_iff_sublist h).2 hsub "alice")
    rw [hseq] at hpair
    exact absurd hpair (by decide)
  · rw [hy', of_decide_eq_true hr']
    decide

end Hub

end AgentHub
