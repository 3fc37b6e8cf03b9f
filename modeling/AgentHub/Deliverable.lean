import AgentHub.Conservation
import AgentHub.Progress

/-!
# No envelope is stuck

Whatever has happened, an accepted envelope that was not lost can still be delivered
(`still_deliverable`) : it is in its commit, in the queue of its destination, in the channel of
an await or with a task, and from each of these places the hub can go on until the envelope is
written to a client of its destination. No one else has to do anything for it (`StepFor`). From
the queue it takes an agent of the roster that awaits without a filter, as often as there are
envelopes before it.
-/

namespace AgentHub

open Function

/-- The lines with which an agent authenticates and awaits any envelope. -/
structure Addressee (L : Libs) (roster : Roster) (name : String) where
  token : String
  get : roster.get name = some token
  hello : (ClientLine.hello name token).Bytes L
  timeoutSecs : Option UInt64
  line : (ClientLine.await none none timeoutSecs).Bytes L

namespace Hub

variable {L : Libs} {roster : Roster} {audit : AuditLog} {s s' : Hub} {c : ConnId} {k : Conn} {x : Stamped}

/-- A step of the hub itself, or one at a connection that by `s'` has authenticated as `name`. -/
def StepFor (name : String) (s' : Hub) (_ : Hub) (a : DateTime × Action) : Prop :=
  a.2.internal = true ∨ .authenticated a.2.conn name ∈ s'.trace

theorem trans_for {name : String} {s₁ s₂ : Hub}
    (h₁ : Machine.ReachVia (step L roster) (StepFor name s₁) s s₁)
    (h₂ : Machine.ReachVia (step L roster) (StepFor name s₂) s₁ s₂) :
    Machine.ReachVia (step L roster) (StepFor name s₂) s s₂ :=
  .trans (h₁.mono fun _ _ => Or.imp_right fun hauth => (trace_prefix_of_reach h₂.reach).subset hauth) h₂

/-- From `s` the hub and the destination can go on until `x` is written. -/
def Deliverable (L : Libs) (roster : Roster) (s : Hub) (x : Stamped) : Prop :=
  ∃ s' c, Machine.ReachVia (step L roster) (StepFor x.envelope.to s') s s' ∧ .written c x ∈ s'.trace

theorem Deliverable.of_reach (h : Machine.ReachVia (step L roster) (StepFor x.envelope.to s') s s')
    (hs' : Deliverable L roster s' x) : Deliverable L roster s x := by
  obtain ⟨s₂, c, hreach, hwritten⟩ := hs'
  exact ⟨s₂, c, trans_for h hreach, hwritten⟩

theorem Deliverable.of_step {a : DateTime × Action} (h : s.step L roster a = some s')
    (ha : a.2.internal = true) (hs' : Deliverable L roster s' x) : Deliverable L roster s x :=
  .of_reach (.next .init (Or.inl ha) h) hs'

/-! ## At an await -/

/-- What is written is written to an await of its destination. -/
theorem authenticated_of_written (h : Reach L roster audit s) (hwritten : .written c x ∈ s.trace) :
    .authenticated c x.envelope.to ∈ s.trace := by
  obtain ⟨replyTo, kind, timeoutSecs, hverb⟩ :=
    (addressed_of_reach h).served c x (Or.inl (mem_writtenTo.2 hwritten))
  obtain ⟨pre, hpre, hauth⟩ := grounded_of_mem h hverb
  exact (mem_traceOf.1 (hpre hauth)).1

/-- One write can take all that is left of the line. -/
theorem deliverable_of_writing (hL : L.Serializes) (h : Reach L roster audit s)
    (hk : s.conns c = some k) {name source : String} {written : ℕ}
    (hpc : k.pc = .writing name x source written) : Deliverable L roster s x := by
  obtain ⟨text, htext⟩ := hL.server (.envelope x.envelope)
  have hline : toJsonl L.serverLineToString (.envelope x.envelope) = .ok (text ++ "\n") := by
    rw [toJsonl, htext]
  obtain ⟨r, hround⟩ :
      ∃ r, writeRound (asBytes (text ++ "\n")).length written r = some (.done .written) := by
    by_cases hle : (asBytes (text ++ "\n")).length ≤ written
    · exact ⟨.ok 0, by rw [writeRound, classifyWrite, if_pos hle]⟩
    · obtain ⟨n, hn⟩ : ∃ n, (asBytes (text ++ "\n")).length = written + (n + 1) :=
        ⟨(asBytes (text ++ "\n")).length - written - 1, by omega⟩
      refine ⟨.ok (n + 1), ?_⟩
      rw [hn]
      simp [writeRound, classifyWrite]
  obtain ⟨k', obs, hstep, hobs⟩ :
      ∃ k' obs, k.step L roster 0 c (.wrote r) = some (k', obs) ∧ .written c x ∈ obs := by
    refine ⟨_, _, by simp only [Conn.step, hpc, Conn.write, hline, hround]; rfl, ?_⟩
    simp [Conn.afterWrite]
  have hwritten : .written c x ∈ (s.put c k' obs).trace := List.mem_append_right _ hobs
  have hwrite := @step_task L roster s 0 c k (.wrote r) k' obs hk rfl hstep
  have hauth : .authenticated c x.envelope.to ∈ (s.put c k' obs).trace :=
    authenticated_of_written (.next h trivial hwrite) hwritten
  exact ⟨_, c, .next .init (Or.inr hauth) hwrite, hwritten⟩

/-- What a task finds in its handoff channel it can write. -/
theorem deliverable_of_polled (hL : L.Serializes) (h : Reach L roster audit s)
    (hk : s.conns c = some k) {name : String} (hwaits : k.pc.Waits name)
    (hvalue : k.chan.value = some x) : Deliverable L roster s x := by
  have hstep : k.step L roster 0 c .polled = some
      ({ k with pc := .writing name x "handoff" 0, chan := k.chan.dropRx }, []) := by
    generalize hpc : k.pc = pc at hwaits
    cases hwaits <;> simp only [Conn.step, hpc, hvalue]
  have hpolled := @step_task L roster s 0 c k .polled _ _ hk rfl hstep
  refine .of_step hpolled rfl ?_
  exact deliverable_of_writing hL (.next h trivial hpolled) (by rw [put_conns, if_pos rfl]) rfl

/-- So can one whose timer has fired meanwhile, since it finds its waiter gone. -/
theorem deliverable_of_value (hL : L.Serializes) (h : Reach L roster audit s)
    (hparks : parks s.trace ≤ 2 ^ 64) (hk : s.conns c = some k) (hvalue : k.chan.value = some x) :
    Deliverable L roster s x := by
  have hreg := registry_of_reach h
  obtain ⟨hwaiting, hclosed⟩ := hreg.of_value c k x hk hvalue
  cases hpc : k.pc with
  | parked name id timeoutSecs =>
    exact deliverable_of_polled hL h hk (by rw [hpc]; exact .parked id timeoutSecs) hvalue
  | lostRace name => exact deliverable_of_polled hL h hk (by rw [hpc]; exact .lostRace) hvalue
  | timerFired name id =>
    cases hremove : removeWaiter s.state name id with
    | some p =>
      obtain ⟨w, state⟩ := p
      have hown := (ids_of_reach h).own_waiter hparks hreg (allAlone_of_reach h) hk hpc hremove
      obtain ⟨pre, post, hw, -⟩ := removeWaiter_eq_some hremove
      obtain ⟨kw, hkw⟩ := hreg.registered name w (by simp [hw])
      obtain rfl := Option.some.inj (hk.symm.trans (hown ▸ hkw.conn))
      rw [hkw.empty] at hvalue
      cases hvalue
    | none =>
      have hstep : s.step L roster (0, .deregister c) =
          some (s.put c { k with pc := .lostRace name } []) := by
        simp [step, Hub.pc, hk, hpc, hremove, taskStep, Conn.step, put]
      refine .of_step hstep rfl ?_
      exact @deliverable_of_polled L roster audit _ c { k with pc := .lostRace name } x hL
        (.next h trivial hstep) (by rw [put_conns, if_pos rfl]) name .lostRace hvalue
  | _ =>
    rw [hpc] at hwaiting
    cases hwaiting

/-! ## In a queue -/

/-- Routing takes nothing out of a queue. -/
theorem mem_queue_routing {pc : Pc} {y : Stamped} {p : QueuePlacement} {n : String}
    (hx : x ∈ s.state.queue n) : x ∈ (s.routing c k pc y p).state.queue n := by
  rw [routing_state]
  cases hout : (routeEnvelope s.closed s.state y p).2 with
  | handedOff tx =>
    obtain ⟨pre, w, post, -, -, -, -, -, hqueues⟩ := handedOff_spec s.closed s.state y p hout
    rwa [HubState.queue, hqueues]
  | queued depth =>
    obtain ⟨-, -, hqueues⟩ := queued_spec s.closed s.state y p hout
    rw [HubState.queue, hqueues, ← HubState.queue, queue_enqueue]
    split_ifs with hn
    · cases p with
      | back => exact List.mem_append_left _ hx
      | front => exact List.mem_cons_of_mem _ hx
    · exact hx

/-- Who holds the audit lock takes nothing out of a queue. -/
theorem mem_queue_of_holder {a : DateTime × Action} (hheld : LockHeld s) (h : Step L roster s a s')
    (hlock : s.auditLock = some a.2.conn) {n : String} (hx : x ∈ s.state.queue n) :
    x ∈ s'.state.queue n := by
  obtain ⟨pc, hpc, hholds⟩ := hheld _ hlock
  obtain ⟨k, hk, rfl⟩ := pc_eq_some.1 hpc
  cases h with
  | accept | task | lockAudit | append | unlockAudit | loseRace => exact hx
  | route => exact mem_queue_routing hx
  | requeue => exact mem_queue_routing hx
  | take hk' hpc' | park hk' hpc' | deregister hk' hpc' =>
    obtain rfl := Option.some.inj (hk.symm.trans hk')
    rw [hpc'] at hholds
    cases hholds

/-- The hub can give the audit lock back, with all that is queued still there. -/
theorem exists_free (h : Reach L roster audit s) (name : String) :
    ∃ s', Machine.ReachVia (step L roster) (StepFor name s') s s' ∧ s'.auditLock = none ∧
      ∀ n, ∀ x ∈ s.state.queue n, x ∈ s'.state.queue n := by
  cases hlock : s.auditLock with
  | none => exact ⟨s, .init, hlock, fun n x hx => hx⟩
  | some c =>
    -- by induction on what its holder has left to do
    generalize hfuel : s.fuel L c = fuel
    induction fuel using WellFoundedLT.induction generalizing s with
    | ind fuel ih =>
      obtain ⟨now, a, s₁, rfl, ha, hstep, hmoves⟩ := move_of_lock h hlock
      have hqueue : ∀ n, ∀ x ∈ s.state.queue n, x ∈ s₁.state.queue n := fun n x hx =>
        mem_queue_of_holder (lockHeld_of_reach h) (step_cases hstep) hlock hx
      have hless := (fuel_of_step hstep a.conn).resolve_left hmoves
      rcases auditLock_of_step (step_cases hstep) hlock with hlock₁ | hfree
      · obtain ⟨s', hreach, hfree, hqueue'⟩ := ih _ (hfuel ▸ hless) (.next h trivial hstep) hlock₁ rfl
        exact ⟨s', .trans (.next .init (Or.inl ha) hstep) hreach, hfree,
          fun n x hx => hqueue' n x (hqueue n x hx)⟩
      · exact ⟨s₁, .next .init (Or.inl ha) hstep, hfree, hqueue⟩

/-- There is always room for one more connection. -/
theorem exists_new (h : Reach L roster audit s) : ∃ c, s.conns c = none := by
  have hbound : ∃ N, ∀ c, N ≤ c → s.pc c = none := by
    refine Machine.Reach.invariant (P := fun s => ∃ N, ∀ c, N ≤ c → s.pc c = none) h
      ⟨0, fun c _ => rfl⟩ fun s₁ a s₂ hN hstep => ?_
    obtain ⟨N, hN⟩ := hN
    refine ⟨max N (a.2.conn + 1), fun c hc => ?_⟩
    have hne : c ≠ a.2.conn := Nat.ne_of_gt (le_of_max_le_right hc)
    rw [pc_of_step (step_cases hstep) hne]
    exact hN c (le_of_max_le_left hc)
  obtain ⟨N, hN⟩ := hbound
  exact ⟨N, Option.map_eq_none_iff.1 (hN N le_rfl)⟩

/-- A new await without a filter takes what is first in the queue. -/
theorem exists_taken (hL : L.Serializes) {name : String} (addressee : Addressee L roster name)
    (h : Reach L roster audit s) (hfree : s.auditLock = none) {y : Stamped} {rest : List Stamped}
    (hqueue : s.state.queue name = y :: rest) :
    ∃ s' d k, Machine.ReachVia (step L roster) (StepFor name s') s s' ∧ s'.auditLock = none ∧
      s'.conns d = some k ∧ k.pc = .writing name y "queue" 0 ∧ s'.state.queue name = rest := by
  obtain ⟨d, hnew⟩ := exists_new h
  obtain ⟨s₁, hs₁⟩ := reach_verb hL hfree hnew addressee.hello addressee.get addressee.line ""
  have hverb : (onVerbLine L d name (.ok (some addressee.line.text))).1 =
      .awaiting name ⟨none, none⟩ addressee.timeoutSecs := by
    simp [onVerbLine, fromJsonl, addressee.line.decodes, handleAwait]
  rw [hverb] at hs₁
  obtain ⟨k, hk, hpc, -, -⟩ := hs₁.conn
  cases htake : takeQueued s₁.state name ⟨none, none⟩ with
  | none =>
    have hmatch := takeQueued_eq_none htake y (by rw [hs₁.state, hqueue]; exact List.mem_cons_self)
    simp [AwaitFilter.matches] at hmatch
  | some p =>
    obtain ⟨x, state⟩ := p
    obtain ⟨pre, post, hq, -, hpre, hqueue', -⟩ := takeQueued_eq_some htake
    have hnil : pre = [] := by
      refine List.eq_nil_iff_forall_not_mem.2 fun z hz => ?_
      have hmatch := hpre z hz
      simp [AwaitFilter.matches] at hmatch
    rw [hs₁.state, hqueue, hnil, List.nil_append] at hq
    obtain ⟨rfl, rfl⟩ := List.cons.inj hq
    have hstep : s₁.step L roster (0, .await d) = some
        { s₁.put d { k with pc := .writing name y "queue" 0 } [.took d y] with state } := by
      simp [step, Hub.pc, hk, hpc, htake, taskStep, Conn.step, put]
    have hauth : .authenticated d name ∈ s₁.trace := by
      rw [hs₁.trace]
      exact List.mem_append_right _ (List.mem_cons_of_mem _ List.mem_cons_self)
    have hverb : Machine.ReachVia (step L roster) (StepFor name s₁) s s₁ :=
      hs₁.reach.mono fun _ a ha => Or.inr (ha ▸ hauth)
    refine ⟨_, d, _, trans_for hverb (.next .init (Or.inl rfl) hstep), hs₁.auditLock.trans hfree,
      by rw [put_conns, if_pos rfl], rfl, ?_⟩
    rw [hqueue', if_pos rfl, hnil, List.nil_append]

/-- An agent that awaits again and again gets to every envelope of its queue. -/
theorem deliverable_of_queue (hL : L.Serializes) (addressee : Addressee L roster x.envelope.to)
    (h : Reach L roster audit s) (hx : x ∈ s.state.queue x.envelope.to) : Deliverable L roster s x := by
  obtain ⟨s₁, hreach, hfree, hqueue⟩ := exists_free h x.envelope.to
  refine .of_reach hreach ?_
  have h₁ : Reach L roster audit s₁ := h.trans hreach.reach
  obtain ⟨pre, post, hsplit⟩ := List.append_of_mem (hqueue _ x hx)
  clear hqueue hreach hx h
  -- by induction on the envelopes before it
  induction pre generalizing s₁ with
  | nil =>
    obtain ⟨s₂, d, k, hreach, -, hk, hpc, -⟩ := exists_taken hL addressee h₁ hfree hsplit
    exact .of_reach hreach (deliverable_of_writing hL (h₁.trans hreach.reach) hk hpc)
  | cons y pre ih =>
    obtain ⟨s₂, d, k, hreach, hfree₂, -, -, hqueue⟩ := exists_taken hL addressee h₁ hfree hsplit
    exact .of_reach hreach (ih s₂ hfree₂ (h₁.trans hreach.reach) hqueue)

/-! ## Everywhere -/

/-- A routed envelope is in its destination's queue or at one of its awaits. -/
theorem deliverable_of_routing (hL : L.Serializes) (addressee : Addressee L roster x.envelope.to)
    (h : Reach L roster audit s) (hparks : parks s.trace ≤ 2 ^ 64) {a : DateTime × Action} {pc : Pc}
    {p : QueuePlacement} (hstep : s.step L roster a = some (s.routing c k pc x p))
    (ha : a.2.internal = true) : Deliverable L roster s x := by
  refine .of_step hstep ha ?_
  have h' : Reach L roster audit (s.routing c k pc x p) := .next h trivial hstep
  have hheld : x ∈ (s.routing c k pc x p).held (destination x (routeEnvelope s.closed s.state x p).2) :=
    (held_routing_destination (registry_of_reach h)).mem_iff.2 List.mem_cons_self
  cases hout : (routeEnvelope s.closed s.state x p).2 with
  | queued depth =>
    rw [hout] at hheld
    exact deliverable_of_queue hL addressee h' hheld
  | handedOff tx =>
    rw [hout] at hheld
    simp only [destination, held, Option.mem_toList, Option.bind_eq_some_iff] at hheld
    obtain ⟨k', hk', hvalue⟩ := hheld
    refine deliverable_of_value hL h' ?_ hk' hvalue
    rw [routing_trace, parks_append]
    exact hparks

/-- Every accepted envelope for an agent that can authenticate and await is lost, or the hub and
clients of that agent can go on, with no step of anyone else, until it is written to an await of
the agent. -/
theorem still_deliverable (hL : L.Serializes) (h : Reach L roster audit s)
    (hparks : parks s.trace ≤ 2 ^ 64) (hx : x ∈ acceptedOf s.trace)
    (addressee : Addressee L roster x.envelope.to) :
    (∃ c, .lost c x ∈ s.trace) ∨
      ∃ s' c, Machine.ReachVia (step L roster) (StepFor x.envelope.to s') s s' ∧
        .written c x ∈ s'.trace ∧ .authenticated c x.envelope.to ∈ s'.trace := by
  have hdelivered : Deliverable L roster s x →
      ∃ s' c, Machine.ReachVia (step L roster) (StepFor x.envelope.to s') s s' ∧
        .written c x ∈ s'.trace ∧ .authenticated c x.envelope.to ∈ s'.trace := by
    rintro ⟨s', c, hreach, hwritten⟩
    exact ⟨s', c, hreach, hwritten, authenticated_of_written (h.trans hreach.reach) hwritten⟩
  by_cases hrouted : x ∈ routedOf s.trace
  · obtain ⟨place, hplace⟩ := kept_of_reach h hparks x hrouted
    cases place with
    | lost c => exact Or.inl ⟨c, mem_lostOn.1 hplace⟩
    | written c => exact Or.inr (hdelivered ⟨s, c, .init, mem_writtenTo.1 hplace⟩)
    | queue name =>
      obtain rfl : name = x.envelope.to := for_of_held h hplace
      exact Or.inr (hdelivered (deliverable_of_queue hL addressee h hplace))
    | channel c =>
      simp only [held, Option.mem_toList, Option.bind_eq_some_iff] at hplace
      obtain ⟨k, hk, hvalue⟩ := hplace
      exact Or.inr (hdelivered (deliverable_of_value hL h hparks hk hvalue))
    | task c =>
      simp only [held, Option.mem_toList, Option.bind_eq_some_iff] at hplace
      obtain ⟨k, hk, hcarried⟩ := hplace
      cases hpc : k.pc with
      | writing name y source written =>
        rw [hpc] at hcarried
        obtain rfl := Option.some.inj hcarried
        exact Or.inr (hdelivered (deliverable_of_writing hL h hk hpc))
      | requeueing name y source =>
        rw [hpc] at hcarried
        obtain rfl := Option.some.inj hcarried
        have hstep : s.step L roster (0, .requeue c) = some (s.routing c k .finished y .front) := by
          simp [step, Hub.pc, hk, hpc, taskStep, Conn.step, routing, put]
        exact Or.inr (hdelivered (deliverable_of_routing hL addressee h hparks hstep rfl))
      | _ =>
        rw [hpc] at hcarried
        cases hcarried
  · obtain ⟨c, k, hk, hun⟩ := exists_unrouted h hx hrouted
    cases hpc : k.pc with
    | committing phase role e =>
      cases phase with
      | appended y =>
        rw [hpc] at hun
        obtain rfl := Option.some.inj hun
        exact Or.inr (hdelivered (deliverable_of_routing hL addressee h hparks
          (@step_route L roster s 0 c k y role e hk hpc) rfl))
      | _ =>
        rw [hpc] at hun
        cases hun
    | _ =>
      rw [hpc] at hun
      cases hun

/-- `alice` of the sample hub. -/
def sampleAddressee : Addressee sampleLibs sampleRoster "alice" where
  token := "a-token"
  get := rfl
  hello := aliceHello
  timeoutSecs := some 1
  line := awaitAny

/-- One envelope is written and one is queued. -/
theorem still_deliverable_exchange : ∃ s, SampleReach s ∧ (acceptedOf s.trace).length = 2 ∧
    ∀ x ∈ acceptedOf s.trace, (∃ c, .lost c x ∈ s.trace) ∨
      ∃ s' c, Machine.ReachVia (step sampleLibs sampleRoster) (StepFor x.envelope.to s') s s' ∧
        .written c x ∈ s'.trace ∧ .authenticated c x.envelope.to ∈ s'.trace := by
  obtain ⟨s, h, hs⟩ := @exists_of_runSample exchange (fun s => (acceptedOf s.trace).length = 2 ∧
    (acceptedOf s.trace).all (fun x => x.envelope.to = "alice") ∧ parks s.trace = 1) (by decide +kernel)
  obtain ⟨haccepted, hto, hparks⟩ := of_decide_eq_true hs
  refine ⟨s, h, haccepted, fun x hx => ?_⟩
  have hto' : x.envelope.to = "alice" := by simpa using List.all_eq_true.1 hto x hx
  exact still_deliverable sampleLibs_serializes h (by rw [hparks]; exact Nat.one_le_two_pow) hx
    (hto' ▸ sampleAddressee)

end Hub

end AgentHub
