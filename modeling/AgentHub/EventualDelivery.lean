import AgentHub.Deliverable

/-!
# Every envelope is delivered or lost

That an envelope can still be delivered (`Deliverable`) does not say that it will be. On a run that is
fair to the steps of the hub and its peers it is, or is lost by a partial write, if awaits that accept
it look into its queue again and again and in the end no delivery to its agent fails cleanly and is
routed again (`eventually_delivered`). What is routed again may go to the front, and the rest of the
queue waits behind it, or to the next await for ever.

From its commit an envelope goes to a queue or to an await. With an await it stays, until the await
comes to its end. In the queue the envelopes before it become fewer with each await that would accept
it, and never more.
-/

namespace AgentHub

open Filter

/-- The steps of an envelope from one place to the next, but for those of a routing. -/
inductive Place.Next : Place → Place → Prop
  | taken (name : String) (c : ConnId) : Next (.queue name) (.task c)
  | received (c : ConnId) : Next (.channel c) (.task c)
  | written (c : ConnId) : Next (.task c) (.written c)
  | lost (c : ConnId) : Next (.task c) (.lost c)

namespace Hub

variable {L : Libs} {roster : Roster} {audit : AuditLog} {s s' : Hub} {c : ConnId} {k k' : Conn}
  {obs : List Obs} {x y : Stamped} {a : DateTime × Action} {p : Place}

/-- A timer branch takes out no waiter but its own. -/
def OwnTimer (s : Hub) (a : DateTime × Action) : Prop :=
  ∀ c name id w state, a.2 = .deregister c → s.pc c = some (.timerFired name id) →
    removeWaiter s.state name id = some (w, state) → w.tx = c

/-- An envelope for `name` is routed again, after a delivery that failed cleanly : it is handed to the
next waiter or goes to the front of the queue. -/
def RoutesAgain (name : String) (s : Hub) (a : DateTime × Action) : Prop :=
  ∃ c agent x source, a.2 = .requeue c ∧ s.pc c = some (.requeueing agent x source) ∧ x.envelope.to = name

/-- An await that accepts `x` looks into the queue of its destination. -/
def Asks (x : Stamped) (s : Hub) (a : DateTime × Action) : Prop :=
  ∃ c filter timeoutSecs, a.2 = .await c ∧ s.pc c = some (.awaiting x.envelope.to filter timeoutSecs) ∧
    filter.matches x.envelope = true

/-! ## From place to place -/

/-- What a task does on its own moves an envelope to the next place at most. -/
theorem held_of_put (hk : s.conns c = some k) (hobs : ∀ o ∈ obs, o.conn = c) (hmoves : k.Moves c k' obs)
    (hx : x ∈ s.held p) :
    x ∈ (s.put c k' obs).held p ∨ ∃ q, p.Next q ∧ x ∈ (s.put c k' obs).held q := by
  have hchan := held_channel hk
  have htask := held_task hk
  -- a place that gives up nothing
  have hstays : (p = .channel c → k'.chan.value = k.chan.value) →
      (p = .task c → k'.pc.carried = k.pc.carried) → x ∈ (s.put c k' obs).held p := by
    intro hvalue hpc
    rw [held_put hobs]
    split_ifs with h₁ h₂ h₃ h₄
    · rwa [hvalue h₁, ← hchan, ← h₁]
    · rwa [hpc h₂, ← htask, ← h₂]
    · exact List.mem_append_left _ hx
    · exact List.mem_append_left _ hx
    · exact hx
  cases hmoves with
  | same hvalue hpc => exact Or.inl (hstays (fun _ => hvalue) fun _ => hpc)
  | handed y hvalue hvalue' hpc hpc' =>
    by_cases hp : p = .channel c
    · subst hp
      rw [hchan, hvalue, Option.mem_toList] at hx
      obtain rfl := Option.some.inj hx
      exact Or.inr ⟨.task c, .received c, by simp [held_put hobs, hpc']⟩
    · refine Or.inl (hstays (fun h => absurd h hp) fun hp' => ?_)
      rw [hp', htask, hpc] at hx
      cases hx
  | written y hvalue hpc hpc' hwritten =>
    by_cases hp : p = .task c
    · subst hp
      rw [htask, hpc, Option.mem_toList] at hx
      obtain rfl := Option.some.inj hx
      exact Or.inr ⟨.written c, .written c, by simp [held_put hobs, hwritten]⟩
    · exact Or.inl (hstays (fun _ => hvalue) fun h => absurd h hp)
  | lost y hvalue hpc hpc' hwritten hlost =>
    by_cases hp : p = .task c
    · subst hp
      rw [htask, hpc, Option.mem_toList] at hx
      obtain rfl := Option.some.inj hx
      exact Or.inr ⟨.lost c, .lost c, by simp [held_put hobs, hlost]⟩
    · exact Or.inl (hstays (fun _ => hvalue) fun h => absurd h hp)

/-- Routing takes nothing out of a place, but what the routing task itself carries. -/
theorem held_of_routing (hreg : Registry s) (hk : s.conns c = some k) {pc : Pc} {place : QueuePlacement}
    (hp : p ≠ .task c) (hx : x ∈ s.held p) : x ∈ (s.routing c k pc y place).held p := by
  by_cases hdest : p = destination y (routeEnvelope s.closed s.state y place).2
  · rw [hdest] at hx ⊢
    exact (held_routing_destination hreg).mem_iff.2 (List.mem_cons_of_mem _ hx)
  · rwa [held_routing_other hk hdest hp]

/-- An await takes one envelope out of its queue. -/
theorem held_of_take {name : String} {filter : AwaitFilter} {timeoutSecs : Option UInt64}
    {state : HubState Stamped} (hk : s.conns c = some k) (hpc : k.pc = .awaiting name filter timeoutSecs)
    (htake : takeQueued s.state name filter = some (y, state)) (hx : x ∈ s.held p) :
    x ∈ ({ s.put c { k with pc := .writing name y "queue" 0 } [.took c y] with state } : Hub).held p ∨
      ∃ q, p.Next q ∧
        x ∈ ({ s.put c { k with pc := .writing name y "queue" 0 } [.took c y] with state } : Hub).held q := by
  obtain ⟨pre, post, hq, -, -, hqueue, -⟩ := takeQueued_eq_some htake
  cases p with
  | queue n =>
    by_cases hn : n = name
    · subst hn
      simp only [held, hq, List.mem_append, List.mem_cons] at hx
      rcases hx with hpre | rfl | hpost
      · exact Or.inl (by simp [held, hqueue, hpre])
      · exact Or.inr ⟨.task c, .taken n c, by simp [held, put_conns, Pc.carried]⟩
      · exact Or.inl (by simp [held, hqueue, hpost])
    · exact Or.inl (by simpa [held, hqueue, hn] using hx)
  | channel d =>
    refine Or.inl ?_
    by_cases hd : d = c
    · simpa [held, put_conns, hd, hk] using hx
    · simpa [held, put_conns, hd] using hx
  | task d =>
    refine Or.inl ?_
    by_cases hd : d = c
    · simp [held, hd, hk, hpc, Pc.carried] at hx
    · simpa [held, put_conns, hd] using hx
  | written d => exact Or.inl (by simpa [held, writtenTo] using hx)
  | lost d => exact Or.inl (by simpa [held, lostOn] using hx)

/-- What is held stays, goes on to the next place, or is routed again. -/
theorem held_of_step (hreg : Registry s) (hown : OwnTimer s a) (h : Step L roster s a s')
    (hx : x ∈ s.held p) :
    x ∈ s'.held p ∨ (∃ q, p.Next q ∧ x ∈ s'.held q) ∨ RoutesAgain x.envelope.to s a ∧ ∃ q, x ∈ s'.held q := by
  have hput : ∀ {k k' : Conn} {obs : List Obs}, s.conns a.2.conn = some k → (∀ o ∈ obs, o.conn = a.2.conn) →
      k.Moves a.2.conn k' obs → x ∈ (s.put a.2.conn k' obs).held p ∨
        (∃ q, p.Next q ∧ x ∈ (s.put a.2.conn k' obs).held q) ∨
          RoutesAgain x.envelope.to s a ∧ ∃ q, x ∈ (s.put a.2.conn k' obs).held q :=
    fun hk hobs hmoves => (held_of_put hk hobs hmoves hx).imp_right Or.inl
  cases h with
  | @accept now c peer hnew =>
    refine Or.inl ?_
    have hp : p ≠ .channel c ∧ p ≠ .task c := by
      constructor <;> rintro rfl <;> simp [held, hnew] at hx
    rw [held_put (by simp), if_neg hp.1, if_neg hp.2]
    split_ifs
    · exact List.mem_append_left _ hx
    · exact List.mem_append_left _ hx
    · exact hx
  | task hk hstep => exact hput hk (conn_of_localStep hstep) (moves_of_localStep hstep)
  | lockAudit hfree hk hstep =>
    exact hput hk (conn_of_sharedStep hstep) (moves_of_auditStep hstep (by simp))
  | append hlock hk hevent hwrite hstep =>
    exact hput hk (conn_of_sharedStep hstep) (moves_of_auditStep hstep (by simp))
  | @unlockAudit now c k pc hlock hk hpc =>
    have hstep := @Conn.SharedStep.unlocked now c k pc hpc
    exact hput hk (conn_of_sharedStep hstep) (moves_of_auditStep hstep (by simp))
  | @route now c k y role e hk hpc =>
    refine Or.inl (held_of_routing hreg hk ?_ hx)
    rintro rfl
    simp [held_task hk, hpc, Pc.carried] at hx
  | @requeue now c k name source y hk hpc =>
    by_cases hp : p = .task c
    · subst hp
      obtain rfl : x = y := by simpa [held_task hk, hpc, Pc.carried] using hx
      refine Or.inr (Or.inr ⟨⟨c, name, x, source, rfl, pc_eq_some.2 ⟨k, hk, hpc⟩, rfl⟩,
        destination x (routeEnvelope s.closed s.state x .front).2, ?_⟩)
      exact (held_routing_destination hreg).mem_iff.2 List.mem_cons_self
    · exact Or.inl (held_of_routing hreg hk hp hx)
  | take hk hpc htake => exact (held_of_take hk hpc htake hx).imp_right Or.inl
  | @park now c k name filter secs hk hpc htake =>
    have hnone : k.chan.value = none := by
      by_contra hne
      obtain ⟨y, hy⟩ := Option.ne_none_iff_exists'.1 hne
      have hwaits := (hreg.of_value c k y hk hy).1
      rw [hpc] at hwaits
      cases hwaits
    have hheld : ({ s.put c { k with pc := .parked name s.state.nextWaiterId secs, chan := .fresh }
        [.parked c name s.state.nextWaiterId] with state := s.state.park name filter c } : Hub).held =
        (s.put c { k with pc := .parked name s.state.nextWaiterId secs, chan := .fresh }
          [.parked c name s.state.nextWaiterId]).held := by
      funext r
      cases r <;> rfl
    rw [hheld]
    exact hput hk (by simp [Obs.conn, Action.conn]) (.same hnone.symm (by rw [hpc]; rfl) rfl rfl)
  | @deregister now c k name id w state hk hpc hremove =>
    refine Or.inl ?_
    have hp : p ≠ .channel c := by
      rintro rfl
      obtain rfl := hown c name id w state rfl (pc_eq_some.2 ⟨k, hk, hpc⟩) hremove
      obtain ⟨pre, post, hw, -⟩ := removeWaiter_eq_some hremove
      obtain ⟨kw, hkw⟩ := hreg.registered name w (by simp [hw])
      rw [held_channel hkw.conn, hkw.empty] at hx
      cases hx
    rwa [held_deregister hk hpc hremove, if_neg hp]
  | loseRace hk hpc => exact hput hk (by simp) (.same rfl (by rw [hpc]; rfl) rfl rfl)

/-! ## In its commit -/

/-- What is appended stays in its commit until it is routed. -/
theorem unrouted_of_step {pc : Pc} (h : Step L roster s a s') (hpc : s.pc c = some pc)
    (hx : pc.unrouted = some x) :
    x ∈ routedOf s'.trace ∨ ∃ pc', s'.pc c = some pc' ∧ pc'.unrouted = some x := by
  obtain ⟨k, hk, rfl⟩ := pc_eq_some.1 hpc
  by_cases hc : c = a.2.conn
  · subst hc
    have hconn : ∀ {k'}, s.conns a.2.conn = some k' → k = k' := fun hk' =>
      Option.some.inj (hk.symm.trans hk')
    cases h with
    | accept hnew =>
      rw [Action.conn, hnew] at hk
      cases hk
    | @task now d i k₁ k' obs hk' hstep =>
      obtain rfl := hconn hk'
      refine Or.inr ⟨k'.pc, by simp [Hub.pc, put_conns, Action.conn], ?_⟩
      rw [(audit_of_localStep hstep).2.1, hx]
    | lockAudit hfree hk' hstep =>
      obtain rfl := hconn hk'
      cases hstep <;> simp_all [Pc.unrouted]
    | append hlock hk' hevent hwrite hstep =>
      obtain rfl := hconn hk'
      rw [(audit_of_appended hstep).1] at hx
      cases hx
    | @route now d k₁ y role e hk' hat =>
      obtain rfl := hconn hk'
      rw [hat] at hx
      obtain rfl := Option.some.inj hx
      refine Or.inl ?_
      rw [routing_trace, routedOf_append]
      exact List.mem_append_right _ List.mem_cons_self
    | unlockAudit hlock hk' hunlock =>
      obtain rfl := hconn hk'
      rw [(audit_of_afterUnlock hunlock).2.2.1] at hx
      cases hx
    | take hk' hat | park hk' hat | deregister hk' hat | loseRace hk' hat | requeue hk' hat =>
      obtain rfl := hconn hk'
      rw [hat] at hx
      cases hx
  · exact Or.inr ⟨k.pc, (pc_of_step h hc).trans hpc, hx⟩

/-! ## In its queue -/

/-- The number of envelopes before `x` in its queue. -/
def ahead (x : Stamped) (s : Hub) : ℕ :=
  (s.state.queue x.envelope.to).findIdx fun y => y.seq = x.seq

/-- Another entry that is taken out brings it forward, if it stood before it. -/
theorem findIdx_le_of_removed {f : Stamped → Bool} {pre post : List Stamped} (hy : f y = false) :
    (pre ++ post).findIdx f ≤ (pre ++ y :: post).findIdx f ∧
      ((∀ z ∈ pre, f z = false) → (pre ++ post).findIdx f < (pre ++ y :: post).findIdx f) := by
  rw [List.findIdx_append, List.findIdx_append, List.findIdx_cons, hy]
  refine ⟨?_, fun hpre => ?_⟩
  · split_ifs <;> simp
  · have hlast : pre.findIdx f = pre.length := List.findIdx_eq_length.2 fun z hz => by simp [hpre z hz]
    simp [hlast]

/-- What a step does with a queue, if nothing is routed again : it stays, gets one more at its end, or loses
one to an await. -/
theorem queue_of_step {name : String} (h : Step L roster s a s') (hback : ¬ RoutesAgain name s a) :
    s'.state.queue name = s.state.queue name ∨
    (∃ y, s'.state.queue name = s.state.queue name ++ [y]) ∨
    ∃ pre y post, s.state.queue name = pre ++ y :: post ∧ s'.state.queue name = pre ++ post := by
  have hroute : ∀ {k : Conn} {pc : Pc} {y : Stamped} {place : QueuePlacement} {d : ConnId},
      (place = .front → y.envelope.to ≠ name) →
      (s.routing d k pc y place).state.queue name = s.state.queue name ∨
        ∃ z, (s.routing d k pc y place).state.queue name = s.state.queue name ++ [z] := by
    intro k pc y place d hplace
    rw [routing_state]
    cases hout : (routeEnvelope s.closed s.state y place).2 with
    | handedOff tx =>
      obtain ⟨pre, w, post, -, -, -, -, -, hqueues⟩ := handedOff_spec s.closed s.state y place hout
      exact Or.inl (by rw [HubState.queue, hqueues, HubState.queue])
    | queued depth =>
      obtain ⟨-, -, hqueues⟩ := queued_spec s.closed s.state y place hout
      rw [HubState.queue, hqueues, ← HubState.queue, queue_enqueue]
      split_ifs with hn
      · cases place with
        | back => exact Or.inr ⟨y, rfl⟩
        | front => exact absurd hn.symm (hplace rfl)
      · exact Or.inl rfl
  cases h with
  | accept | task | lockAudit | append | unlockAudit | loseRace | park => exact Or.inl rfl
  | route hk hpc => exact (hroute (fun h => by cases h)).imp_right Or.inl
  | @requeue now c k agent source y hk hpc =>
    refine (hroute fun _ hto => hback ?_).imp_right Or.inl
    exact ⟨c, agent, y, source, rfl, pc_eq_some.2 ⟨k, hk, hpc⟩, hto⟩
  | deregister hk hpc hremove =>
    obtain ⟨pre, post, -, -, -, -, hqueues, -⟩ := removeWaiter_eq_some hremove
    exact Or.inl (by simp [HubState.queue, hqueues])
  | @take now c k agent filter timeoutSecs y state hk hpc htake =>
    obtain ⟨pre, post, hq, -, -, hqueue, -⟩ := takeQueued_eq_some htake
    by_cases hn : name = agent
    · subst hn
      exact Or.inr (Or.inr ⟨pre, y, post, hq, by rw [hqueue, if_pos rfl]⟩)
    · exact Or.inl (by rw [hqueue, if_neg hn])

/-- What an await takes instead of `x` is another instance. -/
theorem seq_ne_of_left (hcustody : Custody s) {name : String} {pre post : List Stamped}
    (hq : s.state.queue name = pre ++ y :: post) (hx : x ∈ pre ++ post) : y.seq ≠ x.seq := by
  have honce := hcustody.exclusive.once (.queue name)
  simp only [held, hq, List.map_append, List.map_cons] at honce
  rw [List.nodup_middle, List.nodup_cons, ← List.map_append] at honce
  exact fun heq => honce.1 (heq ▸ List.mem_map_of_mem hx)

/-- As long as `x` is queued and nothing is routed again, it only moves forward. -/
theorem ahead_le_of_step (hcustody : Custody s) (h : Step L roster s a s')
    (hback : ¬ RoutesAgain x.envelope.to s a) (hx : x ∈ s.state.queue x.envelope.to)
    (hx' : x ∈ s'.state.queue x.envelope.to) : ahead x s' ≤ ahead x s := by
  unfold ahead
  rcases queue_of_step h hback with hsame | ⟨y, hlater⟩ | ⟨pre, y, post, hq, hq'⟩
  · rw [hsame]
  · have hfound : (s.state.queue x.envelope.to).findIdx (fun y => y.seq = x.seq) <
        (s.state.queue x.envelope.to).length :=
      List.findIdx_lt_length_of_exists ⟨x, hx, by simp⟩
    rw [hlater, List.findIdx_append, if_pos hfound]
  · rw [hq'] at hx'
    rw [hq, hq']
    exact (findIdx_le_of_removed (by simpa using seq_ne_of_left hcustody hq hx')).1

/-- It does so when an await that accepts it looks into the queue. -/
theorem ahead_lt_of_asks (hcustody : Custody s) (h : Step L roster s a s') (hasks : Asks x s a)
    (hx : x ∈ s.state.queue x.envelope.to) (hx' : x ∈ s'.state.queue x.envelope.to) :
    ahead x s' < ahead x s := by
  obtain ⟨c, filter, timeoutSecs, ha, hat, hmatch⟩ := hasks
  cases h with
  | @take now d k name filter' secs y state hk hpc htake =>
    obtain rfl := Action.await.inj ha
    rw [Hub.pc, hk, Option.map_some, hpc] at hat
    obtain ⟨rfl, rfl, rfl⟩ := Pc.awaiting.inj (Option.some.inj hat)
    obtain ⟨pre, post, hq, -, hpre, hqueue, -⟩ := takeQueued_eq_some htake
    have hq' : state.queue x.envelope.to = pre ++ post := by rw [hqueue, if_pos rfl]
    unfold ahead
    dsimp only at hx' ⊢
    rw [hq'] at hx'
    rw [hq, hq']
    refine (findIdx_le_of_removed (by simpa using seq_ne_of_left hcustody hq hx')).2 fun z hz => ?_
    have hz' : z ∈ s.held (.queue x.envelope.to) := by simp [held, hq, hz]
    refine decide_eq_false fun hseq => ?_
    obtain ⟨-, rfl⟩ := hcustody.exclusive.eq_of_mem hz'
        (show x ∈ s.held (.queue x.envelope.to) from hx) hseq
    have hnot := hpre z hz
    rw [show Carries.envelope z = z.envelope from rfl, hmatch] at hnot
    cases hnot
  | @park now d k name filter' secs hk hpc htake =>
    obtain rfl := Action.await.inj ha
    rw [Hub.pc, hk, Option.map_some, hpc] at hat
    obtain ⟨rfl, rfl, rfl⟩ := Pc.awaiting.inj (Option.some.inj hat)
    have hnot := takeQueued_eq_none htake x hx
    rw [show Carries.envelope x = x.envelope from rfl, hmatch] at hnot
    cases hnot
  | _ => cases ha

/-- As long as the timers take out their own waiters nothing that is routed is lost on the way. -/
theorem Kept.step_own (h : Kept s) (hreg : Registry s) (hown : OwnTimer s a)
    (hstep : Step L roster s a s') :
    Kept s' := by
  intro x hx
  by_cases hrouted : x ∈ routedOf s.trace
  · obtain ⟨p, hp⟩ := h x hrouted
    rcases held_of_step hreg hown hstep hp with hsame | ⟨q, -, hq⟩ | ⟨-, hq⟩
    · exact ⟨p, hsame⟩
    · exact ⟨q, hq⟩
    · exact hq
  · rcases transfer_of_step hreg hstep with ⟨new, ht, htrace, -⟩ | ⟨htrace, -⟩
    · rw [htrace, List.mem_append] at hx
      exact (ht.mem_iff x).2 (Or.inr (hx.resolve_left hrouted))
    · exact absurd (htrace ▸ hx) hrouted

/-- An await that has come to its end holds nothing. -/
theorem not_held_of_ended (h : Reach L roster audit s) (hended : Ended c s) :
    ¬ (x ∈ s.held (.channel c) ∨ x ∈ s.held (.task c)) := by
  rintro (hchan | htask)
  · simp only [held, Option.mem_toList, Option.bind_eq_some_iff] at hchan
    obtain ⟨k, hk, hvalue⟩ := hchan
    have hwaits := ((registry_of_reach h).of_value c k x hk hvalue).1
    have hover := hended k hk
    generalize hpc : k.pc = pc at hwaits
    cases pc with
    | parked name id secs => cases secs <;> simp [hpc, hvalue, Pc.isGone, Conn.unserved] at hover
    | timerFired | lostRace => simp [hpc, Pc.isGone, Conn.unserved] at hover
    | _ => cases hwaits
  · simp only [held, Option.mem_toList, Option.bind_eq_some_iff] at htask
    obtain ⟨k, hk, hcarried⟩ := htask
    have hover := hended k hk
    generalize hpc : k.pc = pc at hcarried
    cases pc with
    | writing | requeueing => simp [hpc, Pc.isGone, Conn.unserved] at hover
    | _ => cases hcarried

/-! ## Along a run -/

section Path

variable {r : Machine.Path (step L roster)}

/-- What an await holds is written, lost or routed again before it ends. -/
theorem settled_of_held (h : Reach L roster audit (r.state 0)) (hfair : Fair r Action.served)
    (hown : ∀ n, OwnTimer (r.state n) (r.action n)) {N : ℕ}
    (hback : ∀ n, N ≤ n → ¬ RoutesAgain x.envelope.to (r.state n) (r.action n))
    (hx : x ∈ (r.state N).held (.channel c) ∨ x ∈ (r.state N).held (.task c)) :
    ∃ n d, x ∈ (r.state n).held (.written d) ∨ x ∈ (r.state n).held (.lost d) := by
  have hreach : ∀ n, Reach L roster audit (r.state n) := fun n => h.trans (r.reach_of_le (Nat.zero_le n))
  by_contra hnever
  push Not at hnever
  have hstays : ∀ n, N ≤ n → x ∈ (r.state n).held (.channel c) ∨ x ∈ (r.state n).held (.task c) := by
    intro n hn
    induction n, hn using Nat.le_induction with
    | base => exact hx
    | succ n hn ih =>
      have hstep := step_cases (r.step_eq n)
      have hnext : ∀ {p : Place}, x ∈ (r.state n).held p → x ∈ (r.state (n + 1)).held p ∨
          ∃ q, p.Next q ∧ x ∈ (r.state (n + 1)).held q := by
        intro p hp
        rcases held_of_step (registry_of_reach (hreach n)) (hown n) hstep hp with hsame | hmoved | hputs
        · exact Or.inl hsame
        · exact Or.inr hmoved
        · exact absurd hputs.1 (hback n hn)
      rcases ih with hchan | htask
      · rcases hnext hchan with hsame | ⟨q, hq, hmoved⟩
        · exact Or.inl hsame
        · cases hq
          exact Or.inr hmoved
      · rcases hnext htask with hsame | ⟨q, hq, hmoved⟩
        · exact Or.inr hsame
        · cases hq with
          | written => exact absurd hmoved (hnever _ _).1
          | lost => exact absurd hmoved (hnever _ _).2
  obtain ⟨n, hended⟩ := eventually_atTop.1 ((comes_to_rest r h c).2 hfair)
  exact not_held_of_ended (hreach (max n N)) (hended _ (le_max_left _ _)) (hstays _ (le_max_right _ _))

/-- A commit that has appended its envelope routes it. -/
theorem routed_of_accepted (h : Reach L roster audit (r.state 0)) (hfair : Fair r Action.served) {N : ℕ}
    (hx : x ∈ acceptedOf (r.state N).trace) : ∃ n, N ≤ n ∧ x ∈ routedOf (r.state n).trace := by
  have hreach : ∀ n, Reach L roster audit (r.state n) := fun n => h.trans (r.reach_of_le (Nat.zero_le n))
  by_contra hnever
  push Not at hnever
  obtain ⟨c, k, hk, hun⟩ := exists_unrouted (hreach N) hx (hnever N le_rfl)
  have hstays : ∀ n, N ≤ n → ∃ pc, (r.state n).pc c = some pc ∧ pc.unrouted = some x := by
    intro n hn
    induction n, hn using Nat.le_induction with
    | base => exact ⟨k.pc, pc_eq_some.2 ⟨k, hk, rfl⟩, hun⟩
    | succ n hn ih =>
      obtain ⟨pc, hpc, hpc'⟩ := ih
      exact (unrouted_of_step (step_cases (r.step_eq n)) hpc hpc').resolve_left
        (hnever _ (Nat.le_succ_of_le hn))
  obtain ⟨n, hended⟩ := eventually_atTop.1 ((comes_to_rest r h c).2 hfair)
  obtain ⟨pc, hpc, hpc'⟩ := hstays (max n N) (le_max_right _ _)
  obtain ⟨k', hk', rfl⟩ := pc_eq_some.1 hpc
  have hover := hended _ (le_max_left _ _) k' hk'
  unfold Pc.unrouted at hpc'
  split at hpc'
  · rename_i hat
    simp [hat, Pc.isGone, Conn.unserved] at hover
  · cases hpc'

/-- What is routed is held from then on. -/
theorem held_of_routed (h : r.state 0 = .init audit) (hown : ∀ n, OwnTimer (r.state n) (r.action n))
    (n : ℕ) :
    Kept (r.state n) := by
  have hstart : Reach L roster audit (r.state 0) := h ▸ .init
  induction n with
  | zero =>
    rw [h]
    intro x hx
    cases hx
  | succ n ih =>
    have hreach : Reach L roster audit (r.state n) := hstart.trans (r.reach_of_le (Nat.zero_le n))
    exact ih.step_own (registry_of_reach hreach) (hown n) (step_cases (r.step_eq n))

/-- What waits in its queue is taken, if it is asked for again and again and nothing is routed
again. -/
theorem taken_of_queued (h : Reach L roster audit (r.state 0)) {N : ℕ}
    (hback : ∀ n, N ≤ n → ¬ RoutesAgain x.envelope.to (r.state n) (r.action n))
    (hasks : ∃ᶠ n in atTop, Asks x (r.state n) (r.action n)) :
    ∃ n, N ≤ n ∧ x ∉ (r.state n).state.queue x.envelope.to := by
  by_contra hnever
  push Not at hnever
  have hcustody : ∀ n, Custody (r.state n) := fun n =>
    custody_of_reach (h.trans (r.reach_of_le (Nat.zero_le n)))
  have hlater : ∀ n, N ≤ N + n := fun n => Nat.le_add_right N n
  have hend := (r.drop N).eventually_not (μ := ahead x) (Q := Asks x)
    (fun n => ahead_le_of_step (hcustody _) (step_cases ((r.drop N).step_eq n)) (hback _ (hlater n))
      (hnever _ (hlater n)) (hnever _ (hlater (n + 1))))
    (fun n hn => ahead_lt_of_asks (hcustody _) (step_cases ((r.drop N).step_eq n)) hn
      (hnever _ (hlater n)) (hnever _ (hlater (n + 1))))
  obtain ⟨M, hM⟩ := eventually_atTop.1 hend
  obtain ⟨n, hn, hasked⟩ := frequently_atTop.1 hasks (N + M)
  obtain ⟨m, rfl⟩ := Nat.exists_eq_add_of_le ((Nat.le_add_right N M).trans hn)
  exact hM m (by omega) hasked

/-- On a run that is fair to what the hub and its peers can do, every accepted envelope is lost by a
partial write, or written to an await of its destination, if awaits that accept it ask for it again and
again, and in the end no cleanly failed delivery to its destination is routed again. -/
theorem eventually_delivered (h : r.state 0 = .init audit) (hfair : Fair r Action.served)
    (hown : ∀ n, OwnTimer (r.state n) (r.action n)) {N : ℕ} (hx : x ∈ acceptedOf (r.state N).trace)
    (hasks : ∃ᶠ n in atTop, Asks x (r.state n) (r.action n))
    (hback : ∀ᶠ n in atTop, ¬ RoutesAgain x.envelope.to (r.state n) (r.action n)) :
    ∃ n c, .lost c x ∈ (r.state n).trace ∨
      .written c x ∈ (r.state n).trace ∧ .authenticated c x.envelope.to ∈ (r.state n).trace := by
  have hstart : Reach L roster audit (r.state 0) := h ▸ .init
  have hreach : ∀ n, Reach L roster audit (r.state n) := fun n =>
    hstart.trans (r.reach_of_le (Nat.zero_le n))
  suffices hsettled : ∃ n c, x ∈ (r.state n).held (.written c) ∨ x ∈ (r.state n).held (.lost c) by
    obtain ⟨n, c, hwritten | hlost⟩ := hsettled
    · have hmem := mem_writtenTo.1 hwritten
      exact ⟨n, c, Or.inr ⟨hmem, authenticated_of_written (hreach n) hmem⟩⟩
    · exact ⟨n, c, Or.inl (mem_lostOn.1 hlost)⟩
  obtain ⟨M, hM⟩ := eventually_atTop.1 hback
  obtain ⟨N₁, hN₁, hrouted⟩ := routed_of_accepted hstart hfair hx
  -- from `K` on it is held, and nothing is routed again
  let K := max M N₁
  have hheld : ∀ n, K ≤ n → ∃ p, x ∈ (r.state n).held p := by
    intro n hn
    obtain ⟨c, outcome, hmem⟩ := mem_routedOf.1 hrouted
    have hpre := trace_prefix_of_reach (r.reach_of_le ((le_max_right M N₁).trans hn))
    exact held_of_routed h hown n x (mem_routedOf.2 ⟨c, outcome, hpre.subset hmem⟩)
  have hlater : ∀ n m, K ≤ n → n ≤ m → ¬ RoutesAgain x.envelope.to (r.state m) (r.action m) :=
    fun n m hn hm => hM m ((le_max_left M N₁).trans (hn.trans hm))
  obtain ⟨n, hn, hout⟩ := taken_of_queued hstart (hlater K · le_rfl) hasks
  obtain ⟨p, hp⟩ := hheld n hn
  cases p with
  | queue name =>
    obtain rfl : name = x.envelope.to := for_of_held (hreach n) hp
    exact absurd hp hout
  | channel c => exact settled_of_held hstart hfair hown (hlater n · hn) (Or.inl hp)
  | task c => exact settled_of_held hstart hfair hown (hlater n · hn) (Or.inr hp)
  | written c => exact ⟨n, c, Or.inl hp⟩
  | lost c => exact ⟨n, c, Or.inr hp⟩

end Path

/-! ## An agent that awaits for ever -/

/-- The step takes out no waiter and routes nothing again. -/
def Calm (s : Hub) (a : DateTime × Action) : Prop :=
  OwnTimer s a ∧ ∀ name, ¬ RoutesAgain name s a

/-- The actions that cannot do either. -/
def isCalm : Action → Bool
  | .deregister _ | .requeue _ => false
  | _ => true

theorem calm_of_isCalm (h : isCalm a.2 = true) : Calm s a := by
  refine ⟨fun c _ _ _ _ ha => ?_, fun _ ⟨c, _, _, _, ha, _⟩ => ?_⟩
  · rw [ha] at h
    cases h
  · rw [ha] at h
    cases h

theorem fuel_le_of_reach (h : Machine.Reach (step L roster) s s') (c : ConnId) :
    s'.fuel L c ≤ s.fuel L c := by
  refine Machine.Reach.invariant (P := fun t => t.fuel L c ≤ s.fuel L c) h le_rfl fun t a t' hle hstep => ?_
  rcases fuel_of_step hstep c with hsame | hlt
  · rwa [Hub.fuel, hsame]
  · exact hlt.le.trans hle

theorem fuel_of_gone (hk : s.conns c = some k) (hgone : k.pc.isGone = true) :
    s.fuel L c = toLex (0, 0) := by
  unfold Pc.isGone at hgone
  split at hgone
  · rename_i hpc
    simp [Hub.fuel, Hub.pc, hk, hpc, Pc.fuel, Pc.stage, Pc.rounds]
  · rename_i hpc
    simp [Hub.fuel, Hub.pc, hk, hpc, Pc.fuel, Pc.stage, Pc.rounds]
  · cases hgone

/-- A run is calm if each task is over from the start, or at its end has not parked yet. -/
theorem calm_of_reach (h : Machine.Reach (step L roster) s s')
    (hfuel : ∀ d, s.fuel L d = toLex (0, 0) ∨ toLex (16, 0) ≤ s'.fuel L d) :
    Machine.ReachVia (step L roster) Calm s s' := by
  refine h.via fun t a t' ht hstep ht' => ?_
  -- a task that takes out a waiter, or routes again, is neither
  have hlate : ∀ d n, 0 < n → n < 16 → t.fuel L d ≠ toLex (n, 0) := by
    intro d n hpos hn heq
    have hle : t.fuel L d ≤ s.fuel L d := fuel_le_of_reach ht d
    have hge : s'.fuel L d ≤ t.fuel L d := fuel_le_of_reach (.trans (.next .init trivial hstep) ht') d
    rw [heq] at hle hge
    rcases hfuel d with hgone | hearly
    · rw [hgone, Prod.Lex.toLex_le_toLex] at hle
      simp at hle
      omega
    · have hle' := hearly.trans hge
      rw [Prod.Lex.toLex_le_toLex] at hle'
      simp at hle'
      omega
  refine ⟨fun d name id w state ha hpc => ?_, fun name ⟨d, agent, x, source, ha, hpc, hto⟩ => ?_⟩
  · exact absurd (by simp [Hub.fuel, hpc, Pc.fuel, Pc.stage, Pc.rounds]) (hlate d 14 (by omega) (by omega))
  · exact absurd (by simp [Hub.fuel, hpc, Pc.fuel, Pc.stage, Pc.rounds]) (hlate d 11 (by omega) (by omega))

/-- `alice` is about to look into her empty queue on the connection `c`. Those before are over. -/
structure AtQueue (s : Hub) (c : ConnId) : Prop where
  reach : SampleReach s
  auditLock : s.auditLock = none
  queue : s.state.queue "alice" = []
  pc : s.pc c = some (.awaiting "alice" ⟨none, none⟩ (some 1))
  before : ∀ d, d < c → ∃ k, s.conns d = some k ∧ k.pc.isGone = true
  after : ∀ d, c < d → s.conns d = none

/-- `alice` looks into her queue. -/
def Looks (s : Hub) (a : DateTime × Action) : Prop :=
  ∃ c, a.2 = .await c ∧ s.pc c = some (.awaiting "alice" ⟨none, none⟩ (some 1))

/-- She comes on a new connection. -/
theorem exists_atQueue (hreach : SampleReach s) (hfree : s.auditLock = none)
    (hqueue : s.state.queue "alice" = [])
    (hbefore : ∀ d, d < c → ∃ k, s.conns d = some k ∧ k.pc.isGone = true)
    (hafter : ∀ d, c ≤ d → s.conns d = none) :
    ∃ s', Machine.ReachVia (step sampleLibs sampleRoster) Calm s s' ∧ s'.AtQueue c ∧
      acceptedOf s'.trace = acceptedOf s.trace := by
  obtain ⟨s', hs'⟩ := @reach_verb sampleLibs sampleRoster s c sampleLibs_serializes
    hfree (hafter c le_rfl) _ _ _ aliceHello rfl awaitAny ""
  have hverb : onVerbLine sampleLibs c "alice" (.ok (some awaitAny.text)) =
      (.awaiting "alice" ⟨none, none⟩ (some 1), [.verb c "alice" (.await none none (some 1))]) := by
    simp [onVerbLine, fromJsonl, awaitAny.decodes, handleAwait]
  rw [hverb] at hs'
  obtain ⟨k, hk, hpc, -, -⟩ := hs'.conn
  refine ⟨s', calm_of_reach hs'.reach.reach fun d => ?_, ⟨hreach.trans hs'.reach.reach,
    hs'.auditLock.trans hfree, by rw [hs'.state, hqueue], pc_eq_some.2 ⟨k, hk, hpc⟩, fun d hd => ?_,
    fun d hd => ?_⟩, by rw [hs'.trace]; simp [acceptedOf]⟩
  · rcases Nat.lt_trichotomy d c with hd | rfl | hd
    · obtain ⟨kd, hkd, hgone⟩ := hbefore d hd
      exact Or.inl (fuel_of_gone hkd hgone)
    · refine Or.inr (le_of_eq ?_)
      simp [Hub.fuel, Hub.pc, hk, hpc, Pc.fuel, Pc.stage, Pc.rounds]
    · refine Or.inr ?_
      rw [Hub.fuel, Hub.pc, hs'.conns_of_ne hd.ne', hafter d hd.le, Option.map_none,
        Prod.Lex.toLex_le_toLex]
      simp
  · rw [hs'.conns_of_ne hd.ne]
    exact hbefore d hd
  · rw [hs'.conns_of_ne hd.ne']
    exact hafter d hd.le

/-- Her await parks, its client is gone, and she comes back on the next connection. -/
theorem AtQueue.next (h : s.AtQueue c) : ∃ a s₁ s', Looks s a ∧ s.step sampleLibs sampleRoster a = some s₁ ∧
    Machine.ReachVia (step sampleLibs sampleRoster) Calm s₁ s' ∧ s'.AtQueue (c + 1) := by
  obtain ⟨k, hk, hpc⟩ := pc_eq_some.1 h.pc
  have hnone : takeQueued s.state "alice" ⟨none, none⟩ = none := by
    cases htake : takeQueued s.state "alice" ⟨none, none⟩ with
    | none => rfl
    | some q =>
      obtain ⟨pre, post, hq, -⟩ := takeQueued_eq_some htake
      rw [h.queue] at hq
      simp at hq
  let parked : Conn := { k with pc := .parked "alice" s.state.nextWaiterId (some 1), chan := .fresh }
  let s₁ : Hub := { s.put c parked [.parked c "alice" s.state.nextWaiterId] with
    state := s.state.park "alice" ⟨none, none⟩ c }
  have hpark : s.step sampleLibs sampleRoster (0, .await c) = some s₁ := step_park hk hpc hnone
  let dead : Conn := { parked with pc := .dead, chan := parked.chan.dropRx }
  have hk₁ : s₁.conns c = some parked := by simp [s₁, put_conns]
  have hdied : s₁.step sampleLibs sampleRoster (0, .task c .died) = some (s₁.put c dead []) :=
    step_task hk₁ rfl rfl
  have hothers : ∀ d, d ≠ c → (s₁.put c dead []).conns d = s.conns d := by
    intro d hd
    simp [s₁, put_conns, hd]
  have hbefore : ∀ d, d < c + 1 → ∃ k, (s₁.put c dead []).conns d = some k ∧ k.pc.isGone = true := by
    intro d hd
    by_cases heq : d = c
    · exact ⟨dead, by simp [heq, put_conns], rfl⟩
    · rw [hothers d heq]
      exact h.before d (Nat.lt_of_le_of_ne (Nat.le_of_lt_succ hd) heq)
  have hafter : ∀ d, c + 1 ≤ d → (s₁.put c dead []).conns d = none := by
    intro d hd
    rw [hothers d (Nat.ne_of_gt hd)]
    exact h.after d hd
  obtain ⟨s', hs', hat, -⟩ := exists_atQueue (.next (.next h.reach trivial hpark) trivial hdied) h.auditLock
    h.queue hbefore hafter
  exact ⟨(0, .await c), s₁, s', ⟨c, rfl, h.pc⟩, hpark,
    .trans (.next .init (calm_of_isCalm rfl) hdied) hs', hat⟩

/-- A task that is over stays where it is. -/
theorem pc_of_gone (h : Machine.Reach (step L roster) s s') (hk : s.conns c = some k)
    (hgone : k.pc.isGone = true) : s'.pc c = some k.pc := by
  have hpc : s.pc c = some k.pc := pc_eq_some.2 ⟨k, hk, rfl⟩
  refine Machine.Reach.invariant (P := fun t => t.pc c = some k.pc) h hpc fun t a t' ht hstep => ?_
  rcases fuel_of_step hstep c with hsame | hlt
  · exact hsame.trans ht
  · obtain ⟨kt, hkt, hpct⟩ := pc_eq_some.1 ht
    rw [fuel_of_gone hkt (hpct ▸ hgone)] at hlt
    exact absurd hlt (by simp [Prod.Lex.lt_iff])

/-- `bob` sends a task, and `alice` awaits and is given it. -/
def sentAndTaken : List Action :=
  opening 0 bobHello.bytes sendTask.bytes ++ committing 0 (sampleEnvelope "m1" "task") ++
  [.task 0 (.replied (.ok ()))] ++ opening 1 aliceHello.bytes awaitAny.bytes ++
  [.await 1, delivering 1 (sampleEnvelope "m1" "task"), .lockAudit 1,
    .append 1 (whole (.delivery 0 "m1" "alice" "127.0.0.1:49152")), .unlockAudit 1]

/-- After it `alice` goes on to await for ever, and her clients are gone before they are answered. -/
theorem eventually_delivered_forever : ∃ r : Machine.Path (step sampleLibs sampleRoster),
    r.state 0 = .init sampleAudit ∧ (∃ᶠ n in atTop, Looks (r.state n) (r.action n)) ∧
      ∃ N, (acceptedOf (r.state N).trace).length = 1 ∧ ∀ x ∈ acceptedOf (r.state N).trace,
        ∃ n c, .lost c x ∈ (r.state n).trace ∨
          .written c x ∈ (r.state n).trace ∧ .authenticated c x.envelope.to ∈ (r.state n).trace := by
  have hends : (runSample sentAndTaken).any
      (fun s => s.auditLock = none && (s.state.queue "alice").isEmpty &&
      (s.pc 0).any Pc.isGone && (s.pc 1).any Pc.isGone && (acceptedOf s.trace).length = 1 &&
      (acceptedOf s.trace).all fun x => x.envelope.to = "alice") = true := by
    decide +kernel
  obtain ⟨s, hrun, hs⟩ := Option.any_eq_true _ _ |>.1 hends
  simp only [Bool.and_eq_true_iff, decide_eq_true_eq, List.isEmpty_iff] at hs
  obtain ⟨⟨⟨⟨⟨hfree, hqueue⟩, hgone₀⟩, hgone₁⟩, hlength⟩, hto⟩ := hs
  have hpark : Machine.ReachVia (step sampleLibs sampleRoster) (fun t a => Calm t a ∧ a.2.conn < 2)
      (.init sampleAudit) s := by
    have hcheck : ∀ a ∈ sentAndTaken, isCalm a = true ∧ a.conn < 2 := by decide +kernel
    refine Machine.reachVia_of_run hrun fun t a ha => ?_
    obtain ⟨b, hb, rfl⟩ := List.mem_map.1 ha
    exact ⟨calm_of_isCalm (hcheck b hb).1, (hcheck b hb).2⟩
  have hbefore : ∀ d, d < 2 → ∃ k, s.conns d = some k ∧ k.pc.isGone = true := by
    intro d hd
    have hgone : (s.pc d).any Pc.isGone = true := by
      obtain rfl | rfl : d = 0 ∨ d = 1 := Nat.le_one_iff_eq_zero_or_eq_one.1 (Nat.le_of_lt_succ hd)
      · exact hgone₀
      · exact hgone₁
    obtain ⟨pc, hpc, hat⟩ := Option.any_eq_true _ _ |>.1 hgone
    obtain ⟨k, hk, rfl⟩ := pc_eq_some.1 hpc
    exact ⟨k, hk, hat⟩
  have hafter : ∀ d, 2 ≤ d → s.conns d = none := by
    intro d hd
    refine Option.map_eq_none_iff.1 (show s.pc d = none from ?_)
    refine Machine.ReachVia.invariant (P := fun t => t.pc d = none) hpark rfl
      fun t a t' _ hnone hq hstep => ?_
    rw [pc_of_step (step_cases hstep) (Nat.ne_of_gt (hq.2.trans_le hd)), hnone]
  obtain ⟨s', hs', hat, haccepted⟩ := exists_atQueue hpark.reach hfree hqueue hbefore hafter
  obtain ⟨p, hp, hquiet, hrounds⟩ := Machine.Path.exists_of_rounds (P := fun i t => t.AtQueue (2 + i))
    (M := Looks) (Q := Calm) (fun i t ht => ht.next) hat
  obtain ⟨r, m, hstart, hlater, hfirst⟩ := Machine.Path.exists_of_reach
    ((hpark.mono fun _ _ h => h.1).trans hs') p hp
  have hcalm : ∀ n, Calm (r.state n) (r.action n) := by
    intro n
    rcases Nat.lt_or_ge n m with hn | hn
    · exact hfirst n hn
    · obtain ⟨j, rfl⟩ := Nat.exists_eq_add_of_le' hn
      rw [(hlater j).1, (hlater j).2]
      rcases hquiet j with ⟨c, ha, -⟩ | hq
      · exact calm_of_isCalm (by rw [ha]; rfl)
      · exact hq
  have hlooks : ∃ᶠ n in atTop, Looks (r.state n) (r.action n) := by
    refine frequently_atTop.2 fun N => ?_
    obtain ⟨n, hn, -, hat⟩ := hrounds N
    refine ⟨n + m, by omega, ?_⟩
    rwa [(hlater n).1, (hlater n).2]
  have hfair : Fair r Action.served := by
    -- no task is ready again and again, since each is over in the end
    intro c hready
    obtain ⟨n, -, hat, -⟩ := hrounds c
    obtain ⟨k, hk, hgone⟩ := hat.before c (Nat.lt_add_of_pos_left Nat.two_pos)
    obtain ⟨j, hj, hat'⟩ := frequently_atTop.1 hready (n + m)
    have hpc := pc_of_gone (r.reach_of_le hj) ((hlater n).1 ▸ hk) hgone
    obtain ⟨k', hk', hsame⟩ := pc_eq_some.1 hpc
    refine absurd hat' (not_ready_of_over fun k₂ hk₂ => ?_)
    obtain rfl := Option.some.inj (hk'.symm.trans hk₂)
    rw [hsame]
    exact hgone
  have hat : acceptedOf (r.state m).trace = acceptedOf s.trace := by
    rw [← haccepted, ← hp, ← (hlater 0).1, Nat.zero_add]
  refine ⟨r, hstart, hlooks, m, by rw [hat, hlength], fun x hx => ?_⟩
  have hname : x.envelope.to = "alice" := by simpa using List.all_eq_true.1 hto x (hat ▸ hx)
  refine eventually_delivered hstart hfair (fun n => (hcalm n).1) hx (hlooks.mono fun n hn => ?_)
    (Eventually.of_forall fun n => (hcalm n).2 _)
  obtain ⟨c, ha, hpc⟩ := hn
  exact ⟨c, ⟨none, none⟩, some 1, ha, hname ▸ hpc, by simp [AwaitFilter.matches]⟩

end Hub

end AgentHub
