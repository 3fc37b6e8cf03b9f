import AgentHub.Handoff
import AgentHub.Interference
import AgentHub.Lib.Shadow

/-!
# The hub as mailboxes

What the hub is for, without its tasks, locks, channels and ids : each agent has a mailbox, and
sends and awaits act on one mailbox at a time (`Mailbox.run`). An action of the hub is one such
operation or none (`Hub.routingOp`), and takes effect at once and as a whole
(`mailboxes_of_step`). So the operations of a run, in the order in which the hub comes to them, give
every mailbox and every outcome (`refines_mailboxes`), however the connections interleave.

The order is that of the trace, where the operation of a verb stands behind the verb, and before
what its client is told.
-/

namespace AgentHub

open Function

/-- What the trace tells of an operation. -/
inductive RoutingEffect
  | routed (x : Stamped) (placement : QueuePlacement) (outcome : SendOutcome)
  | took (c : ConnId) (x : Stamped)
  | parked (c : ConnId) (name : String)
  | deregistered (c : ConnId)
  deriving Repr

def Obs.effect : Obs → Option RoutingEffect
  | .routed _ x placement outcome => some (.routed x placement outcome)
  | .took c x => some (.took c x)
  | .parked c name _ => some (.parked c name)
  | .deregistered c => some (.deregistered c)
  | _ => none

/-- The same, told of an operation and its outcome. -/
def RoutingEffect.of : RoutingOp Stamped × RoutingOutcome Stamped → Option RoutingEffect
  | (.route x placement, .routed outcome) => some (.routed x placement outcome)
  | (.await _ _ c, .taken x) => some (.took c x)
  | (.await name _ c, .parked) => some (.parked c name)
  | (.expire _ c, .expired true) => some (.deregistered c)
  | _ => none

section Task

variable {L : Libs} {roster : Roster} {now : DateTime} {c : ConnId} {k k' : Conn} {obs : List Obs}

/-- No operation is a step of a task on its own. -/
theorem effect_of_localStep (h : k.LocalStep L roster now c k' obs) : obs.filterMap Obs.effect = [] := by
  cases h with
  | helloRefused hpc hfill hrefuse | verbRefused hpc hfill hrefuse => cases hrefuse <;> rfl
  | wroteAll hpc hobs => rcases hobs with rfl | rfl <;> rfl
  | _ => rfl

theorem effect_of_auditStep {i : Input} (h : k.SharedStep now c i k' obs)
    (hi : i = .locked ∨ i = .unlocked ∨ ∃ r, i = .appended r) : obs.filterMap Obs.effect = [] := by
  cases h with
  | lockedAudit | lockedCommit | logged | unlogged | accepted | refused | unlocked => rfl
  | _ => simp at hi

/-- A task that does not die drops its receiver as it finds the channel filled or lost. -/
theorem rxAlive_of_task {i : Input} (hi : i.isLocal = true) (hdied : i ≠ .died)
    (h : k.step L roster now c i = some (k', obs)) :
    k'.chan.rxAlive = k.chan.rxAlive ∨ k.chan.value ≠ none ∨ k.chan.txAlive = false := by
  have hlocal := localStep_of_step hi h
  cases hlocal with
  | handed hwaits hvalue => exact Or.inr (Or.inl (by simp [hvalue]))
  | channelLost hwaits hvalue htx => exact Or.inr (Or.inr htx)
  | died hmortal hvalue =>
    -- no other input lets a task that waits end
    exfalso
    generalize hpc : k.pc = pc at hmortal
    cases i with
    | died => exact hdied rfl
    | polled =>
      obtain ⟨-, name, -, ⟨x, -, hk⟩ | ⟨-, -, hk⟩⟩ := polled_cases h <;> cases congrArg Conn.pc hk
    | timer =>
      simp only [Conn.step] at h
      split at h
      · cases congrArg (fun r => r.map fun r => r.1.pc) h
      · cases h
    | locked | appended | routed | unlocked | took | parked | deregistered | requeued => cases hi
    | _ => cases hmortal <;> simp [Conn.step, Conn.readRound, hpc] at h
  | _ => exact Or.inl rfl

end Task

namespace Hub

variable {L : Libs} {roster : Roster} {audit : AuditLog} {s s' : Hub} {c : ConnId} {k k' : Conn}
  {obs : List Obs} {a : DateTime × Action} {name : String}

/-- The mailbox of an agent. -/
def mailbox (s : Hub) (name : String) : Mailbox Stamped :=
  s.state.mailbox s.closed name

/-- The operation that an action is. -/
def routingOp (s : Hub) : Action → Option (RoutingOp Stamped)
  | .route c =>
    match s.pc c with
    | some (.committing (.appended x) _ _) => some (.route x .back)
    | _ => none
  | .requeue c =>
    match s.pc c with
    | some (.requeueing _ x _) => some (.route x .front)
    | _ => none
  | .await c =>
    match s.pc c with
    | some (.awaiting name filter _) => some (.await name filter c)
    | _ => none
  | .deregister c =>
    match s.pc c with
    | some (.timerFired name _) => some (.expire name c)
    | _ => none
  | .task c .died => ((s.pc c).bind Pc.waiting).map fun name => .die name c
  | _ => none

/-- The operations of a run. -/
def routingOps (L : Libs) (roster : Roster) (s : Hub) (as : List (DateTime × Action)) :
    List (RoutingOp Stamped) :=
  Machine.labels (step L roster) (fun s a => s.routingOp a.2) s as

/-! ## What one step does to the mailboxes -/

/-- A mailbox is what the queue, the waiters and their receivers are. -/
theorem mailbox_congr (hqueue : s'.state.queue name = s.state.queue name)
    (hreg : s'.state.registered name = s.state.registered name)
    (hclosed : ∀ w ∈ s.state.registered name, s'.closed w.tx = s.closed w.tx) :
    s'.mailbox name = s.mailbox name := by
  rw [mailbox, mailbox, HubState.mailbox, HubState.mailbox, hqueue, hreg]
  refine congrArg _ (List.map_congr_left fun w hw => ?_)
  rw [Waiter.seat, Waiter.seat, hclosed w hw]

/-- A receiver is dropped by its own task only. -/
theorem closed_put_of_ne {d : ConnId} (hd : d ≠ c) : (s.put c k obs).closed d = s.closed d := by
  rw [closed, closed, put_conns, if_neg hd]

/-- The mailboxes do not see a task that is not registered. -/
theorem mailbox_put (hk : s.conns c = some k)
    (h : k'.chan.rxAlive = k.chan.rxAlive ∨ ∀ n, ∀ w ∈ s.state.registered n, w.tx ≠ c) (name : String) :
    (s.put c k' obs).mailbox name = s.mailbox name := by
  refine mailbox_congr rfl rfl fun w hw => ?_
  rcases h with hrx | hnot
  · rw [closed_put hk hrx]
  · exact closed_put_of_ne (hnot name w hw)

/-- An operation with its outcome is what the step from `s` to `s'` does, to one mailbox. -/
structure Does (s s' : Hub) (op : RoutingOp Stamped) (o : RoutingOutcome Stamped) : Prop where
  step : (s.mailbox op.agent).step op = (s'.mailbox op.agent, o)
  others : ∀ name, name ≠ op.agent → s'.mailbox name = s.mailbox name
  trace : s'.trace.filterMap Obs.effect = s.trace.filterMap Obs.effect ++ (RoutingEffect.of (op, o)).toList

/-- Routing drops no receiver. -/
theorem closed_routing (hk : s.conns c = some k) (pc : Pc) (x : Stamped) (p : QueuePlacement) :
    (s.routing c k pc x p).closed = s.closed := by
  funext d
  unfold closed
  rw [routing_conns]
  by_cases hd : d = c
  · rw [if_pos hd, hd, hk, Option.map_some]
    dsimp only
    split_ifs <;> rfl
  · rw [if_neg hd]
    cases s.conns d with
    | none => rfl
    | some kd =>
      rw [Option.map_some]
      dsimp only
      split_ifs <;> rfl

/-- Routing is an operation on the mailbox of the destination. -/
theorem does_routing (hk : s.conns c = some k) (pc : Pc) (x : Stamped) (p : QueuePlacement) :
    Does s (s.routing c k pc x p) (.route x p) (.routed (routeEnvelope s.closed s.state x p).2) where
  step := by
    rw [mailbox, mailbox, closed_routing hk, routing_state, RoutingOp.agent, Mailbox.step, mailbox_route]
  others name hname := by
    obtain ⟨hqueues, hwaiters⟩ := (routeEnvelope_frame s.closed s.state x p).2 name hname
    refine mailbox_congr ?_ ?_ fun w hw => by rw [closed_routing hk]
    · rw [routing_state, HubState.queue, hqueues, HubState.queue]
    · rw [routing_state, HubState.registered, hwaiters, HubState.registered]
  trace := by
    rw [routing_trace, List.filterMap_append]
    rfl

/-- An await that finds an envelope. -/
theorem does_take {filter : AwaitFilter} {x : Stamped} {state : HubState Stamped}
    (hk : s.conns c = some k) (htake : takeQueued s.state name filter = some (x, state)) :
    Does s { s.put c { k with pc := .writing name x "queue" 0 } [.took c x] with state }
      (.await name filter c) (.taken x) := by
  obtain ⟨pre, post, hq, hmatches, hpre, hqueue, hwaiters, -⟩ := takeQueued_eq_some htake
  have hmailbox : ∀ n,
      ({ s.put c { k with pc := .writing name x "queue" 0 } [.took c x] with state } : Hub).mailbox n =
      ⟨if n = name then pre ++ post else s.state.queue n, (s.mailbox n).seats⟩ := by
    intro n
    have hclosed := @closed_put s c k { k with pc := .writing name x "queue" 0 } [.took c x] hk rfl
    rw [← hqueue, mailbox, mailbox, HubState.mailbox, HubState.mailbox, ← hclosed, HubState.registered,
      hwaiters]
    rfl
  refine ⟨?_, fun n hn => ?_, by simp [Obs.effect, RoutingEffect.of]⟩
  · obtain ⟨hfind, herase⟩ := find?_eraseP_split (p := fun x => filter.matches (Carries.envelope x))
      post hmatches hpre
    rw [RoutingOp.agent, hmailbox, if_pos rfl, Mailbox.step, mailbox, HubState.mailbox]
    simp only [hq, hfind, herase]
  · have hne : n ≠ name := hn
    rw [hmailbox, if_neg hne]
    rfl

/-- An await that takes a seat. -/
theorem does_park {filter : AwaitFilter} {timeoutSecs : Option UInt64} (hreg : Registry s)
    (halone : AllAlone L roster s) (hk : s.conns c = some k)
    (hpc : k.pc = .awaiting name filter timeoutSecs)
    (htake : takeQueued s.state name filter = none) :
    Does s { s.put c { k with pc := .parked name s.state.nextWaiterId timeoutSecs, chan := .fresh }
        [.parked c name s.state.nextWaiterId] with state := s.state.park name filter c }
      (.await name filter c) .parked := by
  have hnot : ∀ n, ∀ w ∈ s.state.registered n, w.tx ≠ c := by
    intro n w hw heq
    obtain ⟨kw, hkw⟩ := hreg.registered n w hw
    exact halone.not_parked hk (by simp [hpc, Pc.stage]) (heq ▸ hkw.parked)
  have hmailbox : ∀ n, ({ s.put c
      { k with pc := .parked name s.state.nextWaiterId timeoutSecs, chan := .fresh } [.parked c name s.state.nextWaiterId] with state := s.state.park name filter c } : Hub).mailbox n =
      ⟨s.state.queue n, (s.mailbox n).seats ++ if n = name then [⟨filter, c, false⟩] else []⟩ := by
    intro n
    have hseats : (s.state.registered n).map (Waiter.seat (s.put c
        { k with pc := .parked name s.state.nextWaiterId timeoutSecs, chan := .fresh }
          [.parked c name s.state.nextWaiterId]).closed) =
        (s.state.registered n).map (Waiter.seat s.closed) :=
      List.map_congr_left fun w hw => by rw [Waiter.seat, Waiter.seat, closed_put_of_ne (hnot n w hw)]
    rw [mailbox, mailbox, HubState.mailbox, HubState.mailbox, ← hseats, registered_park, queue_park]
    split_ifs
    · rw [List.map_append]
      simp [Waiter.seat, closed, put_conns, Oneshot.fresh]
    · rw [List.append_nil]
      rfl
  refine ⟨?_, fun n hn => ?_, by simp [Obs.effect, RoutingEffect.of]⟩
  · have hfind : (s.state.queue name).find? (fun x => filter.matches (Carries.envelope x)) = none := by
      rw [List.find?_eq_none]
      simpa using takeQueued_eq_none htake
    rw [RoutingOp.agent, hmailbox, if_pos rfl, Mailbox.step, mailbox, HubState.mailbox]
    simp only [hfind]
  · have hne : n ≠ name := hn
    rw [hmailbox, if_neg hne, List.append_nil]
    rfl

/-- A waiter of the connection `c` is registered for the agent that awaits there. -/
theorem agent_of_registered (hreg : Registry s) (halone : AllAlone L roster s) (hk : s.conns c = some k)
    (hwaits : k.pc.waiting = some name) {n : String} {w : Waiter} (hw : w ∈ s.state.registered n)
    (htx : w.tx = c) : n = name := by
  obtain ⟨kw, hkw⟩ := hreg.registered n w hw
  obtain ⟨id, hparked⟩ := halone.parked_of_waiting hk hwaits
  exact (halone.parked_unique (htx ▸ hkw.parked) hparked).1

/-- The death of a task that waits. -/
theorem does_die (hreg : Registry s) (halone : AllAlone L roster s) (hk : s.conns c = some k)
    (hwaits : k.pc.waiting = some name) :
    Does s (s.put c { k with pc := .dead, chan := k.chan.dropRx } []) (.die name c) .died := by
  have hclosed : (s.put c { k with pc := .dead, chan := k.chan.dropRx } []).closed c = true := by
    simp [closed, put_conns, Oneshot.dropRx]
  refine ⟨?_, fun n hn => ?_, by simp [RoutingEffect.of]⟩
  · rw [RoutingOp.agent, Mailbox.step, mailbox, mailbox, HubState.mailbox, HubState.mailbox, List.map_map]
    refine congrArg (fun seats => (Mailbox.mk _ seats, RoutingOutcome.died))
      (List.map_congr_left fun w hw => ?_)
    by_cases htx : w.tx = c
    · simp [Waiter.seat, htx, hclosed]
    · simp [Waiter.seat, htx, closed_put_of_ne htx]
  · refine mailbox_congr rfl rfl fun w hw => closed_put_of_ne fun htx => hn ?_
    exact agent_of_registered hreg halone hk hwaits hw htx

/-- The timer branch of an await that still has its seat. -/
theorem does_expire {id : UInt64} {w : Waiter} {state : HubState Stamped} (hreg : Registry s)
    (halone : AllAlone L roster s) (hk : s.conns c = some k) (hpc : k.pc = .timerFired name id)
    (hremove : removeWaiter s.state name id = some (w, state)) (hown : w.tx = c) :
    Does s ({ s.put c { k with pc := .replying .timeout .finish, chan := k.chan.dropRx }
        [.deregistered c] with state }.onChan w.tx Oneshot.dropTx) (.expire name c) (.expired true) := by
  obtain ⟨pre, post, hw, -, -, hregistered, hqueues, -⟩ := removeWaiter_eq_some hremove
  -- no other seat of the agent is this await's
  have hnodup := hreg.nodup name
  rw [hw, List.map_append, List.map_cons, List.nodup_append, List.nodup_cons] at hnodup
  obtain ⟨-, ⟨hnotPost, -⟩, hnotPre⟩ := hnodup
  have hpre : ∀ v ∈ pre, v.tx ≠ c := fun v hv =>
    hown ▸ hnotPre _ (List.mem_map_of_mem hv) _ List.mem_cons_self
  have hpost : ∀ v ∈ post, v.tx ≠ c := fun v hv heq =>
    hnotPost (hown ▸ heq ▸ List.mem_map_of_mem hv)
  have hclosed : ∀ d, d ≠ c →
      ({ s.put c { k with pc := .replying .timeout .finish, chan := k.chan.dropRx }
        [.deregistered c] with state }.onChan w.tx Oneshot.dropTx).closed d = s.closed d := by
    intro d hd
    have hdw : d ≠ w.tx := hown ▸ hd
    simp [closed, onChan_conns, put_conns, hd, hdw]
  refine ⟨?_, fun n hn => ?_, ?_⟩
  · have hseat : ∀ v ∈ pre.map (Waiter.seat s.closed), decide (v.tx = c) = false := by
      simpa [Waiter.seat] using hpre
    obtain ⟨-, herase⟩ := find?_eraseP_split (p := fun v : Seat => v.tx = c)
      (a := w.seat s.closed) (post.map (Waiter.seat s.closed)) (decide_eq_true hown) hseat
    have hany : (pre.map (Waiter.seat s.closed) ++ w.seat s.closed :: post.map (Waiter.seat s.closed)).any
        (fun v => v.tx = c) = true := by
      simp [Waiter.seat, hown]
    have hrest : ∀ v ∈ pre ++ post, v.tx ≠ c := fun v hv =>
      (List.mem_append.1 hv).elim (hpre v) (hpost v)
    simp only [RoutingOp.agent, mailbox, Mailbox.step, HubState.mailbox, hw, List.map_append,
      List.map_cons, herase, hany, onChan_state, hregistered, if_true]
    rw [← List.map_append, ← List.map_append]
    refine congrArg (·, RoutingOutcome.expired true) ?_
    rw [Mailbox.mk.injEq]
    refine ⟨by simp only [HubState.queue, hqueues], List.map_congr_left fun v hv => ?_⟩
    rw [Waiter.seat, Waiter.seat, hclosed v.tx (hrest v hv)]
  · have hne : n ≠ name := hn
    refine mailbox_congr ?_ ?_ fun v hv => hclosed v.tx fun htx => hn ?_
    · simp only [onChan_state, HubState.queue, hqueues]
    · simp only [onChan_state, hregistered, if_neg hne]
    · exact agent_of_registered hreg halone hk (by rw [hpc]; rfl) hv htx
  · simp [Obs.effect, RoutingEffect.of]

/-- The timer branch of an await that has been handed an envelope. -/
theorem does_late {id : UInt64} (hreg : Registry s) (halone : AllAlone L roster s) (hk : s.conns c = some k)
    (hpc : k.pc = .timerFired name id) (hremove : removeWaiter s.state name id = none) :
    Does s (s.put c { k with pc := .lostRace name } []) (.expire name c) (.expired false) := by
  have hknown := (known_of_run (halone.run hk)).1
  rw [hpc] at hknown
  have hnot : ∀ w ∈ s.state.registered name, ¬ w.tx = c := by
    intro w hw htx
    obtain ⟨kw, hkw⟩ := hreg.registered name w hw
    have hid := (halone.parked_unique (htx ▸ hkw.parked) (mem_traceOf.1 hknown.2).1).2
    exact removeWaiter_eq_none hremove w hw hid
  have hsame : ∀ n, (s.put c { k with pc := .lostRace name } []).mailbox n = s.mailbox n :=
    mailbox_put hk (Or.inl rfl)
  refine ⟨?_, fun n _ => hsame n, by simp [RoutingEffect.of]⟩
  have hseats : ∀ v ∈ (s.mailbox name).seats, ¬ v.tx = c := by
    intro v hv
    obtain ⟨w, hw, rfl⟩ := List.mem_map.1 hv
    exact hnot w hw
  have hany : ((s.mailbox name).seats.any fun v => v.tx = c) = false := by simpa using hseats
  rw [RoutingOp.agent, hsame, Mailbox.step, hany, List.eraseP_of_forall_not (by simpa using hseats)]

/-! ## Runs -/

/-- Nothing of the mailboxes changes in the step from `s` to `s'`. -/
structure Idles (s s' : Hub) : Prop where
  mailboxes : ∀ name, s'.mailbox name = s.mailbox name
  trace : s'.trace.filterMap Obs.effect = s.trace.filterMap Obs.effect

/-- A step of a task that touches nothing shared. -/
theorem idles_of_task {now : DateTime} {i : Input} (hreg : Registry s) (hi : i.isLocal = true)
    (hdied : i ≠ .died) (hk : s.conns c = some k) (h : k.step L roster now c i = some (k', obs)) :
    Idles s (s.put c k' obs) where
  mailboxes := by
    refine mailbox_put hk ((rxAlive_of_task hi hdied h).imp_right fun hchan n w hw htx => ?_)
    obtain ⟨kw, hkw⟩ := hreg.registered n w hw
    obtain rfl : k = kw := Option.some.inj (hk.symm.trans (htx ▸ hkw.conn))
    rcases hchan with hvalue | htxAlive
    · exact hvalue hkw.empty
    · rw [hkw.txAlive] at htxAlive
      cases htxAlive
  trace := by
    rw [put_trace, List.filterMap_append, effect_of_localStep (localStep_of_step hi h), List.append_nil]

/-- An action is one operation or none, and does to the mailboxes what the operation does. -/
theorem mailboxes_of_step (h : Reach L roster audit s) (hparks : parks s.trace ≤ 2 ^ 64)
    (hs : s.step L roster a = some s') :
    (s.routingOp a.2 = none ∧ Idles s s') ∨ ∃ op o, s.routingOp a.2 = some op ∧ Does s s' op o := by
  have hreg := registry_of_reach h
  have halone := allAlone_of_reach h
  have hpcOf : ∀ {c : ConnId} {k : Conn} {pc : Pc}, s.conns c = some k → k.pc = pc → s.pc c = some pc :=
    fun hk hpc => pc_eq_some.2 ⟨_, hk, hpc⟩
  have hstep := step_cases hs
  cases hstep with
  | @accept now c peer hnew =>
    refine Or.inl ⟨rfl, fun name => mailbox_congr rfl rfl fun w hw => closed_put_of_ne ?_, by simp⟩
    rintro rfl
    obtain ⟨kw, hkw⟩ := hreg.registered _ w hw
    rw [hkw.conn] at hnew
    cases hnew
  | @task now c i k k' obs hk hlocal =>
    simp only [step] at hs
    split_ifs at hs with hi
    obtain ⟨k₁, k₂, obs₂, hk₁, htask, heq⟩ := taskStep_eq_some hs
    obtain rfl : k = k₁ := Option.some.inj (hk.symm.trans hk₁)
    rw [heq]
    by_cases hdied : i = .died
    · subst hdied
      obtain ⟨hmortal, rfl, rfl⟩ := mortal_of_died htask
      obtain ⟨name, hwaits⟩ := hmortal.waiting
      refine Or.inr ⟨.die name c, .died, ?_, does_die hreg halone hk hwaits⟩
      simp [routingOp, hpcOf hk rfl, hwaits]
    · refine Or.inl ⟨?_, idles_of_task hreg hi hdied hk htask⟩
      cases i with
      | died => exact absurd rfl hdied
      | _ => rfl
  | @lockAudit now c k k' obs hfree hk hshared =>
    have hchan := (sameWait_of_sharedStep hshared (by simp) (by simp)).chan
    refine Or.inl ⟨rfl, fun name => @mailbox_put s c k k' obs hk (Or.inl (by rw [hchan])) name, ?_⟩
    rw [put_trace, List.filterMap_append, effect_of_auditStep hshared (by simp), List.append_nil]
  | @append now c os k k' obs event audit r hlock hk hevent hwrite hshared =>
    have hchan := (sameWait_of_sharedStep hshared (by simp) (by simp)).chan
    refine Or.inl ⟨rfl, fun name => @mailbox_put s c k k' obs hk (Or.inl (by rw [hchan])) name, ?_⟩
    rw [put_trace, List.filterMap_append, effect_of_auditStep hshared (by simp), List.append_nil]
  | @unlockAudit now c k pc hlock hk hpc =>
    exact Or.inl ⟨rfl, @mailbox_put s c k { k with pc } [] hk (Or.inl rfl), by simp⟩
  | @route now c k x role e hk hpc =>
    exact Or.inr ⟨_, _, by simp only [routingOp, hpcOf hk hpc], does_routing hk _ x .back⟩
  | @requeue now c k name source x hk hpc =>
    exact Or.inr ⟨_, _, by simp only [routingOp, hpcOf hk hpc], does_routing hk _ x .front⟩
  | @take now c k name filter timeoutSecs x state hk hpc htake =>
    exact Or.inr ⟨_, _, by simp only [routingOp, hpcOf hk hpc], does_take hk htake⟩
  | @park now c k name filter timeoutSecs hk hpc htake =>
    exact Or.inr ⟨_, _, by simp only [routingOp, hpcOf hk hpc], does_park hreg halone hk hpc htake⟩
  | @deregister now c k name id w state hk hpc hremove =>
    have hown := (ids_of_reach h).own_waiter hparks hreg halone hk hpc hremove
    exact Or.inr ⟨_, _, by simp only [routingOp, hpcOf hk hpc], does_expire hreg halone hk hpc hremove hown⟩
  | @loseRace now c k name id hk hpc hremove =>
    exact Or.inr ⟨_, _, by simp only [routingOp, hpcOf hk hpc], does_late hreg halone hk hpc hremove⟩

/-- What an operation does to a mailbox, in front of the operations after it. -/
theorem Does.run {op : RoutingOp Stamped} {o : RoutingOutcome Stamped} {ops : List (RoutingOp Stamped)}
    {history : RoutingHistory Stamped} {m : Mailbox Stamped} (h : Does s s' op o)
    (hrun : (s'.mailbox name).run (ops.filter fun op => op.agent = name) =
      (m, history.filter fun r => r.1.agent = name)) :
    (s.mailbox name).run ((op :: ops).filter fun op => op.agent = name) =
      (m, ((op, o) :: history).filter fun r => r.1.agent = name) := by
  by_cases hname : op.agent = name
  · rw [List.filter_cons_of_pos (by simpa using hname), List.filter_cons_of_pos (by simpa using hname)]
    subst hname
    rw [Mailbox.run, h.step, hrun]
  · rw [List.filter_cons_of_neg (by simpa using hname), List.filter_cons_of_neg (by simpa using hname),
      ← h.others name (Ne.symm hname), hrun]

/-- From any reached state on, the mailboxes run through the operations. -/
theorem history_of_run : ∀ {as : List (DateTime × Action)} {s₀ : Hub}, Reach L roster audit s₀ →
    Machine.run (step L roster) s₀ as = some s → parks s.trace ≤ 2 ^ 64 →
    ∃ history : RoutingHistory Stamped, history.map Prod.fst = routingOps L roster s₀ as ∧
      s.trace.filterMap Obs.effect = s₀.trace.filterMap Obs.effect ++ history.filterMap RoutingEffect.of ∧
      ∀ name, (s₀.mailbox name).run ((routingOps L roster s₀ as).filter fun op => op.agent = name) =
        (s.mailbox name, history.filter fun r => r.1.agent = name)
  | [], s₀, _, hrun, _ => by
    obtain rfl := Option.some.inj hrun
    exact ⟨[], rfl, (List.append_nil _).symm, fun name => rfl⟩
  | a :: as, s₀, h, hrun, hparks => by
    obtain ⟨s₁, hs, hrest⟩ := Option.bind_eq_some_iff.1 hrun
    have h₁ : Reach L roster audit s₁ := .next h trivial hs
    have hle : parks s₀.trace ≤ 2 ^ 64 := by
      obtain ⟨t, ht⟩ := trace_prefix_of_reach (.trans (.next .init trivial hs) (Machine.reach_of_run hrest))
      rw [← ht, parks_append] at hparks
      omega
    obtain ⟨history, hops, htrace, hboxes⟩ := history_of_run h₁ hrest hparks
    have hlabels : routingOps L roster s₀ (a :: as) =
        (s₀.routingOp a.2).toList ++ routingOps L roster s₁ as := by
      rw [routingOps, Machine.labels, hs]
      rfl
    rcases mailboxes_of_step h hle hs with ⟨hop, hidles⟩ | ⟨op, o, hop, hdoes⟩
    · rw [hop, Option.toList_none, List.nil_append] at hlabels
      refine ⟨history, by rw [hops, hlabels], by rw [htrace, hidles.trace], fun name => ?_⟩
      rw [hlabels, ← hidles.mailboxes name, hboxes name]
    · rw [hop, Option.toList_some, List.singleton_append] at hlabels
      refine ⟨(op, o) :: history, by rw [List.map_cons, hops, hlabels], ?_, fun name => ?_⟩
      · rw [htrace, hdoes.trace, List.append_assoc, List.filterMap_cons]
        cases RoutingEffect.of (op, o) <;> rfl
      · rw [hlabels]
        exact hdoes.run (hboxes name)

/-- However the connections interleave, the operations of a run give every mailbox and every
outcome that the trace tells of, each agent's operations on their own. -/
theorem refines_mailboxes {as : List (DateTime × Action)}
    (h : Machine.run (step L roster) (init audit) as = some s) (hparks : parks s.trace ≤ 2 ^ 64) :
    ∃ history : RoutingHistory Stamped, history.map Prod.fst = routingOps L roster (init audit) as ∧
      history.filterMap RoutingEffect.of = s.trace.filterMap Obs.effect ∧
      ∀ name, (Mailbox.empty Stamped).run
          ((routingOps L roster (init audit) as).filter fun op => op.agent = name) =
        (s.mailbox name, history.filter fun r => r.1.agent = name) := by
  obtain ⟨history, hops, htrace, hboxes⟩ := history_of_run .init h hparks
  exact ⟨history, hops, htrace.symm, hboxes⟩

/-- An envelope is handed over, one is queued. -/
theorem refines_mailboxes_exchange : ∃ s, runSample exchange = some s ∧ parks s.trace = 1 ∧
    ∃ history : RoutingHistory Stamped, history.map Prod.fst =
        routingOps sampleLibs sampleRoster (init sampleAudit) (exchange.map fun a => (0, a)) ∧
      history.filterMap RoutingEffect.of = s.trace.filterMap Obs.effect ∧
      ∀ name, (Mailbox.empty Stamped).run ((routingOps sampleLibs sampleRoster (init sampleAudit)
          (exchange.map fun a => (0, a))).filter fun op => op.agent = name) =
        (s.mailbox name, history.filter fun r => r.1.agent = name) := by
  have hsome : (runSample exchange).any (fun s => parks s.trace = 1) = true := by decide +kernel
  obtain ⟨s, hs, hone⟩ := (Option.any_eq_true _ _).1 hsome
  have hparks := of_decide_eq_true hone
  exact ⟨s, hs, hparks, refines_mailboxes hs (by rw [hparks]; exact Nat.one_le_two_pow)⟩

end Hub

end AgentHub
