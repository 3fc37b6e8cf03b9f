import AgentHub.AuditOrder
import AgentHub.Lib.Custody
import AgentHub.Registry

/-!
# Where the envelopes are

The places that hold a committed envelope (`Hub.held`) : the queues, the handoff channels,
the tasks that deliver, and what the trace records as written or as lost. Every step of
the hub is a transfer between them, which brings in the envelope a commit routes, but for
one : a timer branch that removes a waiter drops what is in its own channel
(`Hub.Moves`). So no instance is ever in two places (`exclusive_of_reach`), and none is
held that was not accepted (`mem_routedOf_of_held`).
-/

namespace AgentHub

/-- The places of an envelope. -/
inductive Place
  | queue (name : String)
  | channel (c : ConnId)
  | task (c : ConnId)
  | written (c : ConnId)
  | lost (c : ConnId)
  deriving DecidableEq

/-- The envelope a delivering task owns. -/
def Pc.carried : Pc → Option Stamped
  | .writing _ x _ _ | .requeueing _ x _ => some x
  | _ => none

/-- The envelopes fully written to a connection. -/
def writtenTo (c : ConnId) (trace : List Obs) : List Stamped :=
  trace.filterMap fun
    | .written d x => if d = c then some x else none
    | _ => none

/-- The envelopes lost by a partial write to a connection. -/
def lostOn (c : ConnId) (trace : List Obs) : List Stamped :=
  trace.filterMap fun
    | .lost d x => if d = c then some x else none
    | _ => none

@[simp] theorem writtenTo_append (c : ConnId) (t t' : List Obs) :
    writtenTo c (t ++ t') = writtenTo c t ++ writtenTo c t' :=
  List.filterMap_append

@[simp] theorem lostOn_append (c : ConnId) (t t' : List Obs) :
    lostOn c (t ++ t') = lostOn c t ++ lostOn c t' :=
  List.filterMap_append

theorem mem_writtenTo {c : ConnId} {trace : List Obs} {x : Stamped} :
    x ∈ writtenTo c trace ↔ .written c x ∈ trace := by
  unfold writtenTo
  rw [List.mem_filterMap]
  constructor
  · rintro ⟨o, ho, hx⟩
    cases o with
    | written d y =>
      simp only [Option.ite_none_right_eq_some, Option.some.injEq] at hx
      obtain ⟨rfl, rfl⟩ := hx
      exact ho
    | _ => cases hx
  · exact fun ho => ⟨_, ho, by simp⟩

theorem mem_lostOn {c : ConnId} {trace : List Obs} {x : Stamped} :
    x ∈ lostOn c trace ↔ .lost c x ∈ trace := by
  unfold lostOn
  rw [List.mem_filterMap]
  constructor
  · rintro ⟨o, ho, hx⟩
    cases o with
    | lost d y =>
      simp only [Option.ite_none_right_eq_some, Option.some.injEq] at hx
      obtain ⟨rfl, rfl⟩ := hx
      exact ho
    | _ => cases hx
  · exact fun ho => ⟨_, ho, by simp⟩

namespace Hub

/-- The envelopes a place holds. -/
def held (s : Hub) : Place → List Stamped
  | .queue name => s.state.queue name
  | .channel c => ((s.conns c).bind fun k => k.chan.value).toList
  | .task c => ((s.conns c).bind fun k => k.pc.carried).toList
  | .written c => writtenTo c s.trace
  | .lost c => lostOn c s.trace

end Hub

section Task

variable {L : Libs} {roster : Roster} {now : DateTime} {c : ConnId} {k k' : Conn} {obs : List Obs}

/-- What a step of a task does with the envelopes it holds in its channel and delivers. -/
inductive Conn.Moves (c : ConnId) (k k' : Conn) (obs : List Obs) : Prop
  | same (hvalue : k'.chan.value = k.chan.value) (hpc : k'.pc.carried = k.pc.carried)
      (hwritten : writtenTo c obs = []) (hlost : lostOn c obs = [])
  | handed (x : Stamped) (hvalue : k.chan.value = some x) (hvalue' : k'.chan.value = none)
      (hpc : k.pc.carried = none) (hpc' : k'.pc.carried = some x)
      (hwritten : writtenTo c obs = []) (hlost : lostOn c obs = [])
  | written (x : Stamped) (hvalue : k'.chan.value = k.chan.value) (hpc : k.pc.carried = some x)
      (hpc' : k'.pc.carried = none) (hwritten : writtenTo c obs = [x]) (hlost : lostOn c obs = [])
  | lost (x : Stamped) (hvalue : k'.chan.value = k.chan.value) (hpc : k.pc.carried = some x)
      (hpc' : k'.pc.carried = none) (hwritten : writtenTo c obs = []) (hlost : lostOn c obs = [x])

theorem moves_of_localStep (h : k.LocalStep L roster now c k' obs) : k.Moves c k' obs := by
  cases h with
  | helloRefused hpc hfill hrefuse | verbRefused hpc hfill hrefuse =>
    cases hrefuse <;> exact .same rfl (by rw [hpc]; rfl) rfl rfl
  | @handed x name hwaits hvalue =>
    refine .handed x hvalue rfl ?_ rfl rfl rfl
    generalize k.pc = pc at hwaits
    cases hwaits <;> rfl
  | @channelLost name hwaits hvalue htx =>
    refine .same hvalue.symm ?_ rfl rfl
    generalize k.pc = pc at hwaits
    cases hwaits <;> rfl
  | died hmortal hvalue =>
    refine .same hvalue.symm ?_ rfl rfl
    generalize k.pc = pc at hmortal
    cases hmortal <;> rfl
  | @wroteAll name source x written out obs hpc hobs =>
    refine .written x rfl (by rw [hpc]; rfl) rfl ?_ ?_
    · rcases hobs with rfl | rfl <;> simp [writtenTo]
    · rcases hobs with rfl | rfl <;> simp [lostOn]
  | @failedPartial name source x written out hpc hpos hfrom =>
    exact .lost x rfl (by rw [hpc]; rfl) rfl rfl (by simp [lostOn])
  | @bounceLost name source x written out hpc hpos hfrom =>
    exact .lost x rfl (by rw [hpc]; rfl) rfl rfl (by simp [lostOn])
  | peerClosed => exact .same rfl rfl rfl rfl
  | helloMore hpc | helloAccepted hpc | verbMore hpc | verbInvalid hpc | verbSend hpc | verbAwait hpc
  | repliedVerb hpc | replyLost hpc | answered hpc | timer hpc | wroteMore hpc | failedClean hpc
  | bounced hpc => exact .same rfl (by rw [hpc]; rfl) rfl rfl

theorem carried_of_afterUnlock {pc : Pc} (h : Conn.afterUnlock k.pc = some pc) :
    pc.carried = k.pc.carried := by
  generalize k.pc = p at h
  unfold Conn.afterUnlock at h
  split at h
  · rename_i next
    cases next <;> cases h <;> rfl
  · cases h
    rfl
  · cases h
    rfl
  · cases h
    rfl
  · cases h
    rfl
  · cases h

/-- What a task does with the audit lock moves no envelope. -/
theorem moves_of_auditStep {i : Input} (h : k.SharedStep now c i k' obs)
    (hi : i = .locked ∨ i = .unlocked ∨ ∃ r, i = .appended r) : k.Moves c k' obs := by
  cases h with
  | lockedAudit hpc | lockedCommit hpc | logged hpc | unlogged hpc | accepted hpc | refused hpc =>
    exact .same rfl (by rw [hpc]; rfl) rfl rfl
  | unlocked hpc => exact .same rfl (carried_of_afterUnlock hpc) rfl rfl
  | _ => simp at hi

end Task

namespace Hub

variable {L : Libs} {roster : Roster} {audit : AuditLog} {s s' : Hub} {c d : ConnId} {k k' : Conn}
  {obs : List Obs}

theorem writtenTo_of_ne (hobs : ∀ o ∈ obs, o.conn = c) (hd : d ≠ c) : writtenTo d obs = [] :=
  List.eq_nil_iff_forall_not_mem.2 fun _ hx => hd (hobs _ (mem_writtenTo.1 hx))

theorem lostOn_of_ne (hobs : ∀ o ∈ obs, o.conn = c) (hd : d ≠ c) : lostOn d obs = [] :=
  List.eq_nil_iff_forall_not_mem.2 fun _ hx => hd (hobs _ (mem_lostOn.1 hx))

theorem held_channel (hk : s.conns c = some k) : s.held (.channel c) = k.chan.value.toList := by
  simp [held, hk]

theorem held_task (hk : s.conns c = some k) : s.held (.task c) = k.pc.carried.toList := by
  simp [held, hk]

/-- The places of a task that takes a step; those of other tasks stay. -/
theorem held_put (hobs : ∀ o ∈ obs, o.conn = c) (r : Place) : (s.put c k obs).held r =
    if r = .channel c then k.chan.value.toList
    else if r = .task c then k.pc.carried.toList
    else if r = .written c then s.held r ++ writtenTo c obs
    else if r = .lost c then s.held r ++ lostOn c obs
    else s.held r := by
  cases r with
  | queue name => simp [held]
  | channel d => by_cases hd : d = c <;> simp [held, put_conns, hd]
  | task d => by_cases hd : d = c <;> simp [held, put_conns, hd]
  | written d =>
    by_cases hd : d = c
    · simp [held, hd]
    · simp [held, hd, writtenTo_of_ne hobs hd]
  | lost d =>
    by_cases hd : d = c
    · simp [held, hd]
    · simp [held, hd, lostOn_of_ne hobs hd]

/-- A step of a task on its own moves at most what it holds. -/
theorem transfer_put (hk : s.conns c = some k) (hobs : ∀ o ∈ obs, o.conn = c)
    (hmoves : k.Moves c k' obs) : Transfer s.held (s.put c k' obs).held [] := by
  have hchan := held_channel hk
  have htask := held_task hk
  cases hmoves with
  | same hvalue hpc hwritten hlost =>
    refine .same fun r => ?_
    rw [held_put hobs, hvalue, hpc, hwritten, hlost, ← hchan, ← htask]
    split_ifs <;> simp [*]
  | handed x hvalue hvalue' hpc hpc' hwritten hlost =>
    refine .move (.channel c) (.task c) x (by simp) ?_ ?_ fun r hr hr' => ?_
    · simp [held_put hobs, hchan, hvalue, hvalue']
    · simp [held_put hobs, htask, hpc, hpc']
    · simp [held_put hobs, hr, hr', hwritten, hlost]
  | written x hvalue hpc hpc' hwritten hlost =>
    refine .move (.task c) (.written c) x (by simp) ?_ ?_ fun r hr hr' => ?_
    · simp [held_put hobs, htask, hpc, hpc']
    · simp [held_put hobs, hwritten]
    · rw [held_put hobs, hvalue, ← hchan, if_neg hr, if_neg hr', hlost]
      split_ifs <;> simp [*]
  | lost x hvalue hpc hpc' hwritten hlost =>
    refine .move (.task c) (.lost c) x (by simp) ?_ ?_ fun r hr hr' => ?_
    · simp [held_put hobs, htask, hpc, hpc']
    · simp [held_put hobs, hlost]
    · rw [held_put hobs, hvalue, ← hchan, if_neg hr, if_neg hr', hwritten]
      split_ifs <;> simp [*]

/-- Where a routed envelope goes. -/
def destination (x : Stamped) : SendOutcome → Place
  | .handedOff tx => .channel tx
  | .queued _ => .queue x.envelope.to

variable {x : Stamped} {p : QueuePlacement} {pc : Pc}

/-- Routing brings the envelope to its destination. -/
theorem held_routing_destination (hreg : Registry s) :
    ((s.routing c k pc x p).held (destination x (routeEnvelope s.closed s.state x p).2)).Perm
      (x :: s.held (destination x (routeEnvelope s.closed s.state x p).2)) := by
  cases hout : (routeEnvelope s.closed s.state x p).2 with
  | handedOff tx =>
    obtain ⟨pre, w, post, hw, rfl, hopen, -⟩ := handedOff_spec s.closed s.state x p hout
    obtain ⟨kw, hkw⟩ := hreg.registered _ w (by rw [hw]; simp)
    have hempty : s.held (.channel w.tx) = [] := by rw [held_channel hkw.conn, hkw.empty]; rfl
    have hfull : (s.routing c k pc x p).held (.channel w.tx) = [x] := by
      simp only [held, routing_conns, hout, if_true]
      by_cases hc : w.tx = c
      · simp [hc, Oneshot.send]
      · simp [hc, hkw.conn, Oneshot.send]
    simp only [destination, hempty, hfull]
    exact List.Perm.refl _
  | queued depth =>
    obtain ⟨-, -, hqueues⟩ := queued_spec s.closed s.state x p hout
    have hqueue : (s.routing c k pc x p).held (.queue x.envelope.to) =
        (s.state.enqueue x p).1.queue x.envelope.to := by
      simp only [held, routing_state, HubState.queue, hqueues]
    have hdest : x.envelope.to = (Carries.envelope x).to := rfl
    simp only [destination, hqueue, queue_enqueue, if_pos hdest]
    cases p with
    | back => exact List.perm_append_singleton x _
    | front => exact List.Perm.refl _

/-- Routing leaves the other places alone, but for the task that routes. -/
theorem held_routing_other (hk : s.conns c = some k) {r : Place}
    (hr : r ≠ destination x (routeEnvelope s.closed s.state x p).2) (hrc : r ≠ .task c) :
    (s.routing c k pc x p).held r = s.held r := by
  cases r with
  | queue name =>
    simp only [held, routing_state]
    cases hout : (routeEnvelope s.closed s.state x p).2 with
    | handedOff tx =>
      obtain ⟨pre, w, post, -, -, -, -, -, hqueues⟩ := handedOff_spec s.closed s.state x p hout
      simp only [HubState.queue, hqueues]
    | queued depth =>
      obtain ⟨-, -, hqueues⟩ := queued_spec s.closed s.state x p hout
      have hne : name ≠ (Carries.envelope x).to := fun heq => hr (by rw [hout, heq]; rfl)
      have := queue_enqueue s.state x p name
      rw [if_neg hne] at this
      simpa only [HubState.queue, hqueues] using this
  | channel d =>
    have hne : (routeEnvelope s.closed s.state x p).2 ≠ .handedOff d := fun hout =>
      hr (by rw [hout]; rfl)
    simp only [held, routing_conns, if_neg hne]
    by_cases hd : d = c
    · simp [hd, hk]
    · simp [hd]
  | task d =>
    have hd : d ≠ c := fun heq => hrc (by rw [heq])
    simp only [held, routing_conns, if_neg hd]
    cases s.conns d with
    | none => rfl
    | some kd =>
      simp only [Option.map_some, Option.bind_some]
      split_ifs <;> rfl
  | written d => simp [held, writtenTo]
  | lost d => simp [held, lostOn]

theorem held_routing_task : (s.routing c k pc x p).held (.task c) = pc.carried.toList := by
  simp only [held, routing_conns, if_true, Option.map_some, Option.bind_some]
  split_ifs <;> rfl

/-- A commit brings its envelope in. -/
theorem transfer_route {role : Role} {e : Envelope} (hreg : Registry s)
    (hk : s.conns c = some k) (hpc : k.pc = .committing (.appended x) role e) :
    Transfer s.held (s.routing c k (.committing (.routed x) role e) x .back).held [x] := by
  refine .enter _ x (held_routing_destination hreg) fun r hr => ?_
  by_cases hrc : r = .task c
  · rw [hrc, held_routing_task, held_task hk, hpc]
    exact List.Perm.refl _
  · rw [held_routing_other hk hr hrc]

/-- A requeue moves its envelope on. -/
theorem transfer_requeue {name source : String} (hreg : Registry s)
    (hk : s.conns c = some k) (hpc : k.pc = .requeueing name x source) :
    Transfer s.held (s.routing c k .finished x .front).held [] := by
  refine .move (.task c) _ x ?_ ?_ (held_routing_destination hreg) fun r hrc hr => ?_
  · cases (routeEnvelope s.closed s.state x .front).2 <;> simp [destination]
  · rw [held_routing_task, held_task hk, hpc]
    exact List.Perm.refl _
  · rw [held_routing_other hk hr hrc]

/-- An await takes an envelope out of its queue. -/
theorem transfer_take {name : String} {filter : AwaitFilter} {timeoutSecs : Option UInt64}
    {state : HubState Stamped} (hk : s.conns c = some k) (hpc : k.pc = .awaiting name filter timeoutSecs)
    (htake : takeQueued s.state name filter = some (x, state)) :
    Transfer s.held { s.put c { k with pc := .writing name x "queue" 0 } [.took c x] with state }.held
      [] := by
  obtain ⟨pre, post, hq, -, -, hqueue, -⟩ := takeQueued_eq_some htake
  refine .move (.queue name) (.task c) x (by simp) ?_ ?_ fun r hr hrc => ?_
  · simp only [held, hqueue, if_true, hq]
    exact List.perm_middle
  · simp [held, hk, hpc, put_conns, Pc.carried]
  · cases r with
    | queue n =>
      have hn : n ≠ name := fun heq => hr (by rw [heq])
      simp [held, hqueue, hn]
    | channel d =>
      by_cases hd : d = c
      · simp [held, put_conns, hd, hk]
      · simp [held, put_conns, hd]
    | task d =>
      have hd : d ≠ c := fun heq => hrc (by rw [heq])
      simp [held, put_conns, hd]
    | written d => simp [held, writtenTo]
    | lost d => simp [held, lostOn]

/-- A timer branch drops what is in its own channel. -/
theorem held_deregister {name : String} {id : UInt64} {w : Waiter} {state : HubState Stamped}
    (hk : s.conns c = some k) (hpc : k.pc = .timerFired name id)
    (hremove : removeWaiter s.state name id = some (w, state)) (r : Place) :
    ({ s.put c { k with pc := .replying .timeout .finish, chan := k.chan.dropRx }
      [.deregistered c] with state }.onChan w.tx Oneshot.dropTx).held r =
      if r = .channel c then [] else s.held r := by
  obtain ⟨pre, post, -, -, -, -, hqueues, -⟩ := removeWaiter_eq_some hremove
  cases r with
  | queue n => simp [held, HubState.queue, hqueues]
  | channel d =>
    simp only [held, onChan_conns, put_conns, Place.channel.injEq]
    by_cases hd : d = c
    · simp only [hd, if_true, Option.map_some, Option.bind_some]
      split_ifs <;> rfl
    · simp only [hd, if_false]
      cases s.conns d with
      | none => rfl
      | some kd =>
        simp only [Option.map_some, Option.bind_some]
        split_ifs <;> rfl
  | task d =>
    simp only [held, onChan_conns, put_conns]
    by_cases hd : d = c
    · rw [hd, hk, if_pos rfl, Option.map_some, Option.bind_some, Option.bind_some, hpc]
      split_ifs <;> simp_all [Pc.carried]
    · rw [if_neg hd]
      cases s.conns d with
      | none => simp
      | some kd =>
        simp only [Option.map_some, Option.bind_some]
        split_ifs <;> simp_all
  | written d => simp [held, writtenTo]
  | lost d => simp [held, lostOn]

/-- What a step does with the committed envelopes : a transfer that brings in the one a
commit routes, or the loss of what is in the channel of a task that times out. -/
theorem transfer_of_step {a : DateTime × Action} (hreg : Registry s) (h : Step L roster s a s') :
    (∃ new, Transfer s.held s'.held new ∧ routedOf s'.trace = routedOf s.trace ++ new ∧
      ∀ x ∈ new, ∃ c k, s.conns c = some k ∧ k.pc.unrouted = some x) ∨
    (routedOf s'.trace = routedOf s.trace ∧ ∃ c k name id w state, s.conns c = some k ∧
      k.pc = .timerFired name id ∧ removeWaiter s.state name id = some (w, state) ∧
      ∀ r, s'.held r = if r = .channel c then [] else s.held r) := by
  cases h with
  | @accept now c peer hnew =>
    refine Or.inl ⟨[], .same fun r => ?_, by simp [routedOf], by simp⟩
    have hchan : s.held (.channel c) = [] := by simp [held, hnew]
    have htask : s.held (.task c) = [] := by simp [held, hnew]
    rw [held_put (by simp)]
    split_ifs with h₁ h₂ h₃ h₄
    · rw [h₁, hchan]
      exact List.Perm.refl _
    · rw [h₂, htask]
      exact List.Perm.refl _
    · simp [writtenTo]
    · simp [lostOn]
    · exact List.Perm.refl _
  | task hk hstep =>
    obtain ⟨-, -, -, hr⟩ := audit_of_localStep hstep
    refine Or.inl ⟨[], transfer_put hk (conn_of_localStep hstep) (moves_of_localStep hstep), ?_, by simp⟩
    rw [put_trace, routedOf_append, hr]
  | lockAudit hfree hk hstep =>
    refine Or.inl ⟨[], transfer_put hk (conn_of_sharedStep hstep) (moves_of_auditStep hstep (by simp)),
      ?_, by simp⟩
    cases hstep <;> simp [routedOf]
  | append hlock hk hevent hwrite hstep =>
    obtain ⟨-, hr, -⟩ := audit_of_appended hstep
    refine Or.inl ⟨[], transfer_put hk (conn_of_sharedStep hstep) (moves_of_auditStep hstep (by simp)),
      ?_, by simp⟩
    rw [put_trace, routedOf_append, hr]
  | @route now c k x role e hk hpc =>
    refine Or.inl ⟨[x], transfer_route hreg hk hpc, ?_, fun y hy => ?_⟩
    · rw [routing_trace, routedOf_append]
      rfl
    · rw [List.mem_singleton.1 hy]
      exact ⟨c, k, hk, by rw [hpc]; rfl⟩
  | @unlockAudit now c k pc hlock hk hpc =>
    have hstep := @Conn.SharedStep.unlocked now c k pc hpc
    exact Or.inl ⟨[], transfer_put hk (conn_of_sharedStep hstep) (moves_of_auditStep hstep (by simp)),
      by simp [routedOf], by simp⟩
  | take hk hpc htake =>
    exact Or.inl ⟨[], transfer_take hk hpc htake, by simp [routedOf], by simp⟩
  | @park now c k name filter secs hk hpc htake =>
    have hnone : k.chan.value = none := by
      by_contra hne
      obtain ⟨x, hx⟩ := Option.ne_none_iff_exists'.1 hne
      have := (hreg.of_value c k x hk hx).1
      rw [hpc] at this
      cases this
    have hput := @transfer_put s c k
      { k with pc := .parked name s.state.nextWaiterId secs, chan := .fresh }
      [.parked c name s.state.nextWaiterId] hk (by simp [Obs.conn])
      (.same hnone.symm (by rw [hpc]; rfl) rfl rfl)
    have hheld : ({ s.put c { k with pc := .parked name s.state.nextWaiterId secs, chan := .fresh }
        [.parked c name s.state.nextWaiterId] with state := s.state.park name filter c } : Hub).held =
        (s.put c { k with pc := .parked name s.state.nextWaiterId secs, chan := .fresh }
          [.parked c name s.state.nextWaiterId]).held := by
      funext r
      cases r <;> rfl
    exact Or.inl ⟨[], hheld ▸ hput, by simp [routedOf], by simp⟩
  | deregister hk hpc hremove =>
    exact Or.inr ⟨by simp [routedOf], _, _, _, _, _, _, hk, hpc, hremove, held_deregister hk hpc hremove⟩
  | @loseRace now c k name id hk hpc hremove =>
    exact Or.inl ⟨[], transfer_put hk (by simp) (.same rfl (by rw [hpc]; rfl) rfl rfl),
      by simp [routedOf], by simp⟩
  | requeue hk hpc =>
    exact Or.inl ⟨[], transfer_requeue hreg hk hpc, by simp [routedOf], by simp⟩

/-- No instance is in two places, and only routed ones are in any. -/
structure Custody (s : Hub) : Prop where
  exclusive : Exclusive Stamped.seq s.held
  routed : ∀ p, ∀ x ∈ s.held p, x ∈ routedOf s.trace

theorem nodup_of_reach (h : Reach L roster audit s) : ((acceptedOf s.trace).map Stamped.seq).Nodup := by
  rw [seq_of_reach h]
  exact List.nodup_range

/-- An envelope that is appended and not routed is new to all places. -/
theorem fresh_of_unrouted (hreach : Reach L roster audit s) (h : Custody s) (hk : s.conns c = some k)
    (hx : k.pc.unrouted = some x) : ∀ p, ∀ y ∈ s.held p, y.seq ≠ x.seq := by
  have hnodup := nodup_of_reach hreach
  rw [(auditOrder_of_reach hreach).pending c k x hk hx, List.map_append, List.nodup_append] at hnodup
  exact fun p y hy => hnodup.2.2 _ (List.mem_map_of_mem (h.routed p y hy)) _ (by simp)

theorem Custody.step {a : DateTime × Action} (h : Custody s) (hreach : Reach L roster audit s)
    (hstep : Step L roster s a s') : Custody s' := by
  rcases transfer_of_step (registry_of_reach hreach) hstep with
    ⟨new, ht, hrouted, hnew⟩ | ⟨hrouted, c, k, name, id, w, state, hk, hpc, hremove, hheld⟩
  · refine ⟨h.exclusive.transfer ht fun x hx => ?_, fun p x hx => ?_⟩
    · obtain ⟨c, k, hk, hun⟩ := hnew x hx
      exact fresh_of_unrouted hreach h hk hun
    · rw [hrouted, List.mem_append]
      rcases (ht.mem_iff x).1 ⟨p, hx⟩ with ⟨q, hq⟩ | hx
      · exact Or.inl (h.routed q x hq)
      · exact Or.inr hx
  · have hsub : ∀ r, (s'.held r).Sublist (s.held r) := by
      intro r
      rw [hheld]
      split_ifs
      · exact List.nil_sublist _
      · exact List.Sublist.refl _
    refine ⟨h.exclusive.sublist hsub, fun p x hx => ?_⟩
    rw [hrouted]
    exact h.routed p x ((hsub p).subset hx)

theorem custody_of_reach (h : Reach L roster audit s) : Custody s :=
  Machine.ReachVia.invariant h
    ⟨⟨fun p => by cases p <;> simp [held, Hub.init, writtenTo, lostOn],
      fun p q x y hx => by cases p <;> simp [held, Hub.init, writtenTo, lostOn] at hx⟩,
      fun p x hx => by cases p <;> simp [held, Hub.init, writtenTo, lostOn] at hx⟩
    fun _ _ _ hr hP _ hs => hP.step hr (step_cases hs)

/-- What is held was routed, and what was routed was accepted. -/
theorem mem_acceptedOf_of_routed (h : Reach L roster audit s) {x : Stamped}
    (hx : x ∈ routedOf s.trace) : x ∈ acceptedOf s.trace := by
  obtain ⟨c, outcome, hr⟩ := mem_routedOf.1 hx
  obtain ⟨pre, post, hsplit, role, ts, ha⟩ := (justified_of_reach h c).of_mem (mem_traceOf.2 ⟨hr, rfl⟩)
  have hmem : .accepted c role ts x ∈ s.traceOf c := by
    rw [hsplit]
    exact List.mem_append_left _ ha
  exact mem_acceptedOf.2 ⟨c, role, ts, (mem_traceOf.1 hmem).1⟩

end Hub

end AgentHub
