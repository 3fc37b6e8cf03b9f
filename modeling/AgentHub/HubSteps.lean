import AgentHub.Hub
import AgentHub.Lib.Split
import AgentHub.TaskRuns

/-!
# What one step of the hub can do

The steps of the hub as rules (`Hub.Step`, `step_cases`), one for each critical section and
each way it can go, and what they leave alone. Seen from one connection, a run of the hub
is a run of its task (`run_of_reach`) : all that is known of a task alone holds in the hub.
-/

namespace AgentHub

open Function

namespace Hub

/-- The task of `c` has taken a step to `k` and emitted `obs`. -/
def put (s : Hub) (c : ConnId) (k : Conn) (obs : List Obs) : Hub :=
  { s with conns := update s.conns c (some k), trace := s.trace ++ obs }

/-- Routing `x` in a step of `c` that leaves its task at `pc`. -/
def routing (s : Hub) (c : ConnId) (k : Conn) (pc : Pc) (x : Stamped) (p : QueuePlacement) : Hub :=
  { s.put c { k with pc } [.routed c x p (routeEnvelope s.closed s.state x p).2] with
    state := (routeEnvelope s.closed s.state x p).1 }.handOff x
      (routeEnvelope s.closed s.state x p).2

section Rules

variable (L : Libs) (roster : Roster)

/-- The steps of the hub. -/
inductive Step (s : Hub) : DateTime × Action → Hub → Prop
  | accept {now : DateTime} {c : ConnId} {peer : String} (hnew : s.conns c = none) :
      Step s (now, .accept c peer) (s.put c (.accepted now peer) [])
  | task {now : DateTime} {c : ConnId} {i : Input} {k k' : Conn} {obs : List Obs}
      (hk : s.conns c = some k) (hstep : k.LocalStep L roster now c k' obs) :
      Step s (now, .task c i) (s.put c k' obs)
  | lockAudit {now : DateTime} {c : ConnId} {k k' : Conn} {obs : List Obs}
      (hfree : s.auditLock = none) (hk : s.conns c = some k)
      (hstep : k.SharedStep now c .locked k' obs) :
      Step s (now, .lockAudit c) { s.put c k' obs with auditLock := some c }
  | append {now : DateTime} {c : ConnId} {os : List WriteResult} {k k' : Conn} {obs : List Obs}
      {event : AuditEvent} {audit : AuditLog} {r : Except AuditError Unit}
      (hlock : s.auditLock = some c) (hk : s.conns c = some k)
      (hevent : pendingEvent now k.pc = some event)
      (hwrite : s.audit.write L.auditEventToString event os = some (audit, r))
      (hstep : k.SharedStep now c (.appended (r.map fun _ => (acceptedOf s.trace).length)) k' obs) :
      Step s (now, .append c os) { s.put c k' obs with audit }
  | route {now : DateTime} {c : ConnId} {k : Conn} {x : Stamped} {role : Role} {e : Envelope}
      (hk : s.conns c = some k) (hpc : k.pc = .committing (.appended x) role e) :
      Step s (now, .route c) (s.routing c k (.committing (.routed x) role e) x .back)
  | unlockAudit {now : DateTime} {c : ConnId} {k : Conn} {pc : Pc} (hlock : s.auditLock = some c)
      (hk : s.conns c = some k) (hpc : Conn.afterUnlock k.pc = some pc) :
      Step s (now, .unlockAudit c) { s.put c { k with pc } [] with auditLock := none }
  | take {now : DateTime} {c : ConnId} {k : Conn} {name : String} {filter : AwaitFilter}
      {timeoutSecs : Option UInt64} {x : Stamped} {state : HubState Stamped}
      (hk : s.conns c = some k) (hpc : k.pc = .awaiting name filter timeoutSecs)
      (htake : takeQueued s.state name filter = some (x, state)) :
      Step s (now, .await c)
        { s.put c { k with pc := .writing name x "queue" 0 } [.took c x] with state }
  | park {now : DateTime} {c : ConnId} {k : Conn} {name : String} {filter : AwaitFilter}
      {timeoutSecs : Option UInt64} (hk : s.conns c = some k)
      (hpc : k.pc = .awaiting name filter timeoutSecs)
      (htake : takeQueued s.state name filter = none) :
      Step s (now, .await c)
        { s.put c { k with pc := .parked name s.state.nextWaiterId timeoutSecs, chan := .fresh }
            [.parked c name s.state.nextWaiterId] with
          state := s.state.park name filter c }
  | deregister {now : DateTime} {c : ConnId} {k : Conn} {name : String} {waiterId : UInt64}
      {w : Waiter} {state : HubState Stamped} (hk : s.conns c = some k)
      (hpc : k.pc = .timerFired name waiterId)
      (hremove : removeWaiter s.state name waiterId = some (w, state)) :
      Step s (now, .deregister c)
        ({ s.put c { k with pc := .replying .timeout .finish, chan := k.chan.dropRx }
            [.deregistered c] with state }.onChan w.tx Oneshot.dropTx)
  | loseRace {now : DateTime} {c : ConnId} {k : Conn} {name : String} {waiterId : UInt64}
      (hk : s.conns c = some k) (hpc : k.pc = .timerFired name waiterId)
      (hremove : removeWaiter s.state name waiterId = none) :
      Step s (now, .deregister c) (s.put c { k with pc := .lostRace name } [])
  | requeue {now : DateTime} {c : ConnId} {k : Conn} {name source : String} {x : Stamped}
      (hk : s.conns c = some k) (hpc : k.pc = .requeueing name x source) :
      Step s (now, .requeue c) (s.routing c k .finished x .front)

end Rules

section Inversion

variable {L : Libs} {roster : Roster} {s s' : Hub} {now : DateTime}

theorem taskStep_eq_some {c : ConnId} {i : Input} (h : s.taskStep L roster now c i = some s') :
    ∃ k k' obs, s.conns c = some k ∧ k.step L roster now c i = some (k', obs) ∧
      s' = s.put c k' obs := by
  unfold taskStep at h
  split at h
  · cases h
  rename_i k hk
  split at h
  · cases h
  rename_i k' obs hstep
  exact ⟨k, k', obs, hk, hstep, (Option.some.inj h).symm⟩

theorem sharedStep_of_taskStep {c : ConnId} {i : Input} (hi : i.isLocal = false)
    (h : s.taskStep L roster now c i = some s') :
    ∃ k k' obs, s.conns c = some k ∧ k.SharedStep now c i k' obs ∧ s' = s.put c k' obs := by
  obtain ⟨k, k', obs, hk, hstep, rfl⟩ := taskStep_eq_some h
  exact ⟨k, k', obs, hk, sharedStep_of_step hi hstep, rfl⟩

theorem pc_eq_some {c : ConnId} {pc : Pc} : s.pc c = some pc ↔ ∃ k, s.conns c = some k ∧ k.pc = pc := by
  simp [Hub.pc]

/-- The steps of the hub are those of the rules. -/
theorem step_cases {a : DateTime × Action} (h : s.step L roster a = some s') :
    Step L roster s a s' := by
  obtain ⟨now, a⟩ := a
  cases a with
  | accept c peer =>
    simp only [step] at h
    split at h
    · cases h
    · rename_i hnew
      cases h
      simpa only [put, List.append_nil] using
        @Step.accept L roster s now c peer hnew
  | task c i =>
    simp only [step] at h
    split_ifs at h with hi
    obtain ⟨k, k', obs, hk, hstep, rfl⟩ := taskStep_eq_some h
    exact .task hk (localStep_of_step hi hstep)
  | lockAudit c =>
    simp only [step] at h
    split at h
    · cases h
    rename_i hfree
    obtain ⟨s₁, h₁, rfl⟩ := Option.map_eq_some_iff.1 h
    obtain ⟨k, k', obs, hk, hstep, rfl⟩ := sharedStep_of_taskStep rfl h₁
    exact .lockAudit hfree hk hstep
  | append c os =>
    simp only [step] at h
    split_ifs at h with hlock
    split at h
    · cases h
    rename_i event hevent
    split at h
    · cases h
    rename_i audit r hwrite
    obtain ⟨s₁, h₁, rfl⟩ := Option.map_eq_some_iff.1 h
    obtain ⟨k, k', obs, hk, hstep, rfl⟩ := sharedStep_of_taskStep rfl h₁
    simp only [Hub.pc, hk, Option.map_some, Option.bind_some] at hevent
    exact .append hlock hk hevent hwrite hstep
  | route c =>
    simp only [step] at h
    split at h
    · rename_i hpc
      obtain ⟨k, hk, hpc⟩ := pc_eq_some.1 hpc
      obtain ⟨s₁, h₁, rfl⟩ := Option.map_eq_some_iff.1 h
      obtain ⟨k₁, k', obs, hk₁, hstep, rfl⟩ := sharedStep_of_taskStep rfl h₁
      obtain rfl : k = k₁ := Option.some.inj (hk.symm.trans hk₁)
      cases hstep with
      | routed hpc' =>
        rw [hpc] at hpc'
        cases hpc'
        exact .route hk hpc
    · cases h
  | unlockAudit c =>
    simp only [step] at h
    split_ifs at h with hlock
    obtain ⟨s₁, h₁, rfl⟩ := Option.map_eq_some_iff.1 h
    obtain ⟨k, k', obs, hk, hstep, rfl⟩ := sharedStep_of_taskStep rfl h₁
    cases hstep with
    | unlocked hpc => exact .unlockAudit hlock hk hpc
  | await c =>
    simp only [step] at h
    split at h
    · rename_i hpc
      obtain ⟨k, hk, hpc⟩ := pc_eq_some.1 hpc
      split at h
      · rename_i x state htake
        obtain ⟨s₁, h₁, rfl⟩ := Option.map_eq_some_iff.1 h
        obtain ⟨k₁, k', obs, hk₁, hstep, rfl⟩ := sharedStep_of_taskStep rfl h₁
        obtain rfl : k = k₁ := Option.some.inj (hk.symm.trans hk₁)
        cases hstep with
        | took hpc' =>
          rw [hpc] at hpc'
          cases hpc'
          exact .take hk hpc htake
      · rename_i htake
        obtain ⟨s₁, h₁, rfl⟩ := Option.map_eq_some_iff.1 h
        obtain ⟨k₁, k', obs, hk₁, hstep, rfl⟩ := sharedStep_of_taskStep rfl h₁
        obtain rfl : k = k₁ := Option.some.inj (hk.symm.trans hk₁)
        cases hstep with
        | parked hpc' =>
          rw [hpc] at hpc'
          cases hpc'
          exact .park hk hpc htake
    · cases h
  | deregister c =>
    simp only [step] at h
    split at h
    · rename_i hpc
      obtain ⟨k, hk, hpc⟩ := pc_eq_some.1 hpc
      split at h
      · rename_i w state hremove
        obtain ⟨s₁, h₁, rfl⟩ := Option.map_eq_some_iff.1 h
        obtain ⟨k₁, k', obs, hk₁, hstep, rfl⟩ := sharedStep_of_taskStep rfl h₁
        obtain rfl : k = k₁ := Option.some.inj (hk.symm.trans hk₁)
        cases hstep with
        | deregistered hpc' => exact .deregister hk hpc hremove
      · rename_i hremove
        obtain ⟨k₁, k', obs, hk₁, hstep, rfl⟩ := sharedStep_of_taskStep rfl h
        obtain rfl : k = k₁ := Option.some.inj (hk.symm.trans hk₁)
        cases hstep with
        | raceLost hpc' =>
          rw [hpc] at hpc'
          cases hpc'
          exact .loseRace hk hpc hremove
    · cases h
  | requeue c =>
    simp only [step] at h
    split at h
    · rename_i hpc
      obtain ⟨k, hk, hpc⟩ := pc_eq_some.1 hpc
      obtain ⟨s₁, h₁, rfl⟩ := Option.map_eq_some_iff.1 h
      obtain ⟨k₁, k', obs, hk₁, hstep, rfl⟩ := sharedStep_of_taskStep rfl h₁
      obtain rfl : k = k₁ := Option.some.inj (hk.symm.trans hk₁)
      cases hstep with
      | requeued hpc' =>
        rw [hpc] at hpc'
        cases hpc'
        exact .requeue hk hpc
    · cases h

end Inversion

/-! ## What a step leaves alone -/

section Frame

variable (s : Hub) (c d tx : ConnId) (k : Conn) (obs : List Obs)

@[simp] theorem put_audit : (s.put c k obs).audit = s.audit :=
  rfl

@[simp] theorem put_auditLock : (s.put c k obs).auditLock = s.auditLock :=
  rfl

@[simp] theorem put_state : (s.put c k obs).state = s.state :=
  rfl

@[simp] theorem put_trace : (s.put c k obs).trace = s.trace ++ obs :=
  rfl

theorem put_conns : (s.put c k obs).conns d = if d = c then some k else s.conns d := by
  by_cases h : d = c <;> simp [put, h]

variable (f : Oneshot Stamped → Oneshot Stamped)

@[simp] theorem onChan_audit : (s.onChan tx f).audit = s.audit := by
  unfold onChan
  split <;> rfl

@[simp] theorem onChan_auditLock : (s.onChan tx f).auditLock = s.auditLock := by
  unfold onChan
  split <;> rfl

@[simp] theorem onChan_state : (s.onChan tx f).state = s.state := by
  unfold onChan
  split <;> rfl

@[simp] theorem onChan_trace : (s.onChan tx f).trace = s.trace := by
  unfold onChan
  split <;> rfl

theorem onChan_conns : (s.onChan tx f).conns d =
    (s.conns d).map fun k => if d = tx then { k with chan := f k.chan } else k := by
  unfold onChan
  by_cases hd : d = tx
  · subst hd
    cases hs : s.conns d <;> simp [hs]
  · cases hs : s.conns tx <;> simp [hd]

variable (x : Stamped) (o : SendOutcome) (pc : Pc) (p : QueuePlacement)

@[simp] theorem handOff_audit : (s.handOff x o).audit = s.audit := by
  cases o <;> simp [handOff]

@[simp] theorem handOff_auditLock : (s.handOff x o).auditLock = s.auditLock := by
  cases o <;> simp [handOff]

@[simp] theorem handOff_state : (s.handOff x o).state = s.state := by
  cases o <;> simp [handOff]

@[simp] theorem handOff_trace : (s.handOff x o).trace = s.trace := by
  cases o <;> simp [handOff]

theorem handOff_conns : (s.handOff x o).conns d = (s.conns d).map fun k =>
    if o = .handedOff d then { k with chan := k.chan.send x } else k := by
  cases o with
  | queued depth => simp [handOff]
  | handedOff tx => simp only [handOff, onChan_conns, SendOutcome.handedOff.injEq, eq_comm]

@[simp] theorem routing_audit : (s.routing c k pc x p).audit = s.audit := by
  simp [routing]

@[simp] theorem routing_auditLock : (s.routing c k pc x p).auditLock = s.auditLock := by
  simp [routing]

@[simp] theorem routing_state : (s.routing c k pc x p).state =
    (routeEnvelope s.closed s.state x p).1 := by
  simp [routing]

@[simp] theorem routing_trace : (s.routing c k pc x p).trace =
    s.trace ++ [.routed c x p (routeEnvelope s.closed s.state x p).2] := by
  simp [routing]

theorem routing_conns : (s.routing c k pc x p).conns d =
    (if d = c then some { k with pc } else s.conns d).map fun k =>
      if (routeEnvelope s.closed s.state x p).2 = .handedOff d then { k with chan := k.chan.send x }
      else k := by
  unfold routing
  rw [handOff_conns]
  simp only [put_conns]

/-- Routing `x` on its own. -/
def route (s : Hub) (x : Stamped) (p : QueuePlacement) : Hub :=
  { s with state := (routeEnvelope s.closed s.state x p).1 }.handOff x
    (routeEnvelope s.closed s.state x p).2

theorem closed_put {s : Hub} {c : ConnId} {k k' : Conn} {obs : List Obs} (hk : s.conns c = some k)
    (hrx : k'.chan.rxAlive = k.chan.rxAlive) : (s.put c k' obs).closed = s.closed := by
  funext d
  unfold closed
  rw [put_conns]
  split_ifs with hd
  · rw [hd, hk]
    simp only [hrx]
  · rfl

/-- A routing step is a step of the task and then routing on its own. -/
theorem routing_eq {s : Hub} {c : ConnId} {k : Conn} (hk : s.conns c = some k) (pc : Pc) (x : Stamped)
    (p : QueuePlacement) : s.routing c k pc x p =
      (s.put c { k with pc } [.routed c x p (routeEnvelope s.closed s.state x p).2]).route x p := by
  have hclosed : (s.put c { k with pc }
      [.routed c x p (routeEnvelope s.closed s.state x p).2]).closed = s.closed :=
    closed_put hk rfl
  rw [route, hclosed]
  rfl

theorem onChan_pc : ((s.onChan tx f).conns d).map Conn.pc = (s.conns d).map Conn.pc := by
  rw [onChan_conns, Option.map_map]
  congr 1
  funext k
  simp only [Function.comp]
  split_ifs <;> rfl

theorem routing_pc : ((s.routing c k pc x p).conns d).map Conn.pc =
    ((s.put c { k with pc } obs).conns d).map Conn.pc := by
  rw [routing_conns, put_conns, Option.map_map]
  congr 1
  funext k
  simp only [Function.comp]
  split_ifs <;> rfl

end Frame

/-! ## One connection -/

/-- What the connection `c` has emitted. -/
def traceOf (s : Hub) (c : ConnId) : List Obs :=
  s.trace.filter fun o => o.conn = c

section Projection

variable {L : Libs} {roster : Roster} {audit : AuditLog} {s s' : Hub}

/-- A step of the hub is a step of one task, which takes the audit lock only when it is
free. -/
theorem task_of_step {a : DateTime × Action} (h : Step L roster s a s') :
    (s.conns a.2.conn = none ∧ s'.trace = s.trace ∧
      ∃ event, s'.pc a.2.conn = some (.auditing .waiting event .readHello)) ∨
      ∃ k k' obs, s.conns a.2.conn = some k ∧ s'.pc a.2.conn = some k'.pc ∧ s'.trace = s.trace ++ obs ∧
        (k.LocalStep L roster a.1 a.2.conn k' obs ∨ ∃ i, k.SharedStep a.1 a.2.conn i k' obs ∧
          (i = .locked → a.2 = .lockAudit a.2.conn ∧ s.auditLock = none)) := by
  have hput : ∀ {s' : Hub} {c : ConnId} {k : Conn}, s'.conns = update s.conns c (some k) →
      s'.pc c = some k.pc := by
    intro s' c k hconns
    simp [Hub.pc, hconns]
  have hrouting : ∀ {c : ConnId} {k : Conn} {pc : Pc} {x : Stamped} {p : QueuePlacement},
      (s.routing c k pc x p).pc c = some pc := by
    intro c k pc x p
    rw [Hub.pc, @routing_pc s c c k [] x pc p]
    exact @hput (s.put c { k with pc } []) c { k with pc } rfl
  cases h with
  | @accept now c peer hnew =>
    exact Or.inl ⟨hnew, by simp, .connection now peer, @hput _ c (.accepted now peer) rfl⟩
  | task hk hstep => exact Or.inr ⟨_, _, _, hk, hput rfl, rfl, Or.inl hstep⟩
  | lockAudit hfree hk hstep =>
    exact Or.inr ⟨_, _, _, hk, hput rfl, rfl, Or.inr ⟨_, hstep, fun _ => ⟨rfl, hfree⟩⟩⟩
  | append hlock hk hevent hwrite hstep =>
    exact Or.inr ⟨_, _, _, hk, hput rfl, rfl, Or.inr ⟨_, hstep, by simp⟩⟩
  | @route now c k x role e hk hpc =>
    exact Or.inr ⟨_, { k with pc := .committing (.routed x) role e }, _, hk, hrouting,
      routing_trace _ _ _ _ _ _, Or.inr ⟨_, .routed hpc, by simp⟩⟩
  | @unlockAudit now c k pc hlock hk hpc =>
    exact Or.inr ⟨_, { k with pc }, _, hk, hput rfl, rfl, Or.inr ⟨_, .unlocked hpc, by simp⟩⟩
  | take hk hpc htake => exact Or.inr ⟨_, _, _, hk, hput rfl, rfl, Or.inr ⟨_, .took hpc, by simp⟩⟩
  | park hk hpc htake => exact Or.inr ⟨_, _, _, hk, hput rfl, rfl, Or.inr ⟨_, .parked hpc, by simp⟩⟩
  | deregister hk hpc hremove =>
    refine Or.inr ⟨_, _, _, hk, ?_, onChan_trace _ _ _, Or.inr ⟨_, .deregistered hpc, by simp⟩⟩
    rw [Hub.pc, onChan_pc]
    exact hput rfl
  | loseRace hk hpc hremove =>
    exact Or.inr ⟨_, _, _, hk, hput rfl, rfl, Or.inr ⟨_, .raceLost hpc, by simp⟩⟩
  | @requeue now c k name source x hk hpc =>
    exact Or.inr ⟨_, { k with pc := .finished }, _, hk, hrouting, routing_trace _ _ _ _ _ _,
      Or.inr ⟨_, .requeued hpc, by simp⟩⟩

/-- What a step adds to the trace, the task emits that takes it. -/
theorem emits_of_step {a : DateTime × Action} (h : Step L roster s a s') :
    ∃ obs, s'.trace = s.trace ++ obs ∧ ∀ o ∈ obs, o.conn = a.2.conn := by
  rcases task_of_step h with ⟨-, htrace, -⟩ | ⟨k, k', obs, -, -, htrace, hlocal | ⟨i, hshared, -⟩⟩
  · exact ⟨[], by simpa using htrace, by simp⟩
  · exact ⟨obs, htrace, conn_of_localStep hlocal⟩
  · exact ⟨obs, htrace, conn_of_sharedStep hshared⟩

/-- The program points of the other tasks stay. -/
theorem pc_of_step {a : DateTime × Action} (h : Step L roster s a s') {d : ConnId}
    (hd : d ≠ a.2.conn) : s'.pc d = s.pc d := by
  have hput : ∀ {s' : Hub} {k : Conn}, s'.conns = update s.conns a.2.conn (some k) →
      s'.pc d = s.pc d := by
    intro s' k hconns
    simp [Hub.pc, hconns, hd]
  cases h with
  | accept | task | lockAudit | append | unlockAudit | take | park | loseRace => exact hput rfl
  | @route now c k x role e hk hpc =>
    rw [Hub.pc, @routing_pc s c d k [] x _ .back]
    exact hput rfl
  | @requeue now c k name source x hk hpc =>
    rw [Hub.pc, @routing_pc s c d k [] x _ .front]
    exact hput rfl
  | deregister hk hpc hremove =>
    rw [Hub.pc, onChan_pc]
    exact hput rfl

/-- The trace only grows. -/
theorem trace_prefix_of_step {a : DateTime × Action} (h : Step L roster s a s') :
    s.trace <+: s'.trace := by
  cases h <;> simp

theorem trace_prefix_of_reach (h : Machine.Reach (step L roster) s s') : s.trace <+: s'.trace :=
  Machine.Reach.invariant (P := fun s' => s.trace <+: s'.trace) h List.prefix_rfl
    fun _ _ _ hP hs => hP.trans (trace_prefix_of_step (step_cases hs))

theorem mem_traceOf {c : ConnId} {o : Obs} : o ∈ s.traceOf c ↔ o ∈ s.trace ∧ o.conn = c := by
  simp [traceOf]

/-- What a connection looks like in a run : untouched, or in a run of its task. -/
def Alone (L : Libs) (roster : Roster) (c : ConnId) (trace : List Obs) : Option Conn → Prop
  | none => trace.filter (fun o => o.conn = c) = []
  | some k => Conn.Run L roster c (trace.filter fun o => o.conn = c) k

theorem Alone.of_eq {c : ConnId} {t t' : List Obs} {k : Option Conn} (h : Alone L roster c t k)
    (ht : t'.filter (fun o => o.conn = c) = t.filter fun o => o.conn = c) :
    Alone L roster c t' k := by
  cases k <;> simpa only [Alone, ht] using h

theorem Alone.channel {c : ConnId} {t : List Obs} {k : Option Conn} (h : Alone L roster c t k)
    (f : Oneshot Stamped → Oneshot Stamped) (hf : ∀ ch, (f ch).rxAlive = ch.rxAlive) (b : Prop)
    [Decidable b] :
    Alone L roster c t (k.map fun k => if b then { k with chan := f k.chan } else k) := by
  cases k with
  | none => exact h
  | some k =>
    simp only [Option.map_some]
    split_ifs
    · exact Conn.Run.channel h (hf _)
    · exact h

/-- Every connection of the hub looks like one in a run of its task. -/
def AllAlone (L : Libs) (roster : Roster) (s : Hub) : Prop :=
  ∀ c, Alone L roster c s.trace (s.conns c)

theorem AllAlone.put {c : ConnId} {k : Conn} {obs : List Obs} (h : AllAlone L roster s)
    (hk : Conn.Run L roster c (s.traceOf c ++ obs) k) (hobs : ∀ o ∈ obs, o.conn = c) :
    AllAlone L roster (s.put c k obs) := by
  intro d
  rw [put_conns, put_trace]
  split_ifs with hd
  · subst hd
    have hself : obs.filter (fun o => o.conn = d) = obs := List.filter_eq_self.2 (by simpa using hobs)
    simpa only [Alone, List.filter_append, hself, traceOf] using hk
  · refine (h d).of_eq ?_
    have hnone : obs.filter (fun o => o.conn = d) = [] :=
      List.filter_eq_nil_iff.2 fun o ho => by simp [hobs o ho, Ne.symm hd]
    rw [List.filter_append, hnone, List.append_nil]

theorem AllAlone.run {c : ConnId} {k : Conn} (h : AllAlone L roster s) (hk : s.conns c = some k) :
    Conn.Run L roster c (s.traceOf c) k := by
  simpa only [Alone, hk, traceOf] using h c

theorem AllAlone.local {now : DateTime} {c : ConnId} {k k' : Conn} {obs : List Obs}
    (h : AllAlone L roster s) (hk : s.conns c = some k)
    (hstep : k.LocalStep L roster now c k' obs) : AllAlone L roster (s.put c k' obs) :=
  h.put (.local (h.run hk) hstep) (conn_of_localStep hstep)

theorem AllAlone.shared (now : DateTime) {c : ConnId} {k k' : Conn} {i : Input} {obs : List Obs}
    (h : AllAlone L roster s) (hk : s.conns c = some k)
    (hstep : k.SharedStep now c i k' obs) : AllAlone L roster (s.put c k' obs) :=
  h.put (.shared (h.run hk) hstep) (conn_of_sharedStep hstep)

theorem AllAlone.routing {c : ConnId} {k : Conn} {pc : Pc} {x : Stamped} {p : QueuePlacement}
    (h : AllAlone L roster (s.put c { k with pc }
      [.routed c x p (routeEnvelope s.closed s.state x p).2])) :
    AllAlone L roster (s.routing c k pc x p) := by
  intro d
  rw [routing_conns, routing_trace]
  have hd := h d
  rw [put_conns] at hd
  exact Alone.channel hd (fun ch => ch.send x) (fun ch => rfl) _

theorem AllAlone.step {a : DateTime × Action} (h : AllAlone L roster s)
    (hstep : Step L roster s a s') : AllAlone L roster s' := by
  cases hstep with
  | @accept now c peer hnew =>
    have hnil := h c
    simp only [Alone, hnew] at hnil
    refine h.put ?_ (by simp)
    rw [traceOf, hnil]
    exact .accepted now peer
  | task hk hstep => exact h.local hk hstep
  | @lockAudit now c k k' obs hfree hk hstep => exact h.shared now hk hstep
  | @append now c os k k' obs event audit r hlock hk hevent hwrite hstep =>
    exact h.shared now hk hstep
  | route hk hpc => exact (h.shared 0 hk (.routed hpc)).routing
  | unlockAudit hlock hk hpc => exact h.shared 0 hk (.unlocked hpc)
  | take hk hpc htake => exact h.shared 0 hk (.took hpc)
  | park hk hpc htake => exact h.shared 0 hk (.parked hpc)
  | deregister hk hpc hremove =>
    intro d
    rw [onChan_conns, onChan_trace]
    exact Alone.channel (h.shared 0 hk (.deregistered hpc) d) Oneshot.dropTx (fun ch => rfl) _
  | loseRace hk hpc hremove => exact h.shared 0 hk (.raceLost hpc)
  | requeue hk hpc => exact (h.shared 0 hk (.requeued hpc)).routing

theorem allAlone_of_reach (h : Reach L roster audit s) : AllAlone L roster s :=
  Machine.Reach.invariant h (fun _ => rfl) fun _ _ _ h hs => h.step (step_cases hs)

/-- Seen from one connection, a run of the hub is a run of its task. -/
theorem run_of_reach (h : Reach L roster audit s) {c : ConnId} {k : Conn}
    (hk : s.conns c = some k) : Conn.Run L roster c (s.traceOf c) k :=
  (allAlone_of_reach h).run hk

/-- Who emitted something is connected. -/
theorem exists_conn_of_mem (h : Reach L roster audit s) {o : Obs} (ho : o ∈ s.trace) :
    ∃ k, s.conns o.conn = some k := by
  have halone := allAlone_of_reach h o.conn
  cases hk : s.conns o.conn with
  | some k => exact ⟨k, rfl⟩
  | none =>
    rw [hk] at halone
    have := List.filter_eq_nil_iff.1 halone o ho
    simp at this

/-- Every observation of a run is grounded in earlier ones of its connection. -/
theorem justified_of_reach (h : Reach L roster audit s) (c : ConnId) :
    Justified (Obs.Grounded L) (s.traceOf c) := by
  have halone := allAlone_of_reach h c
  cases hk : s.conns c with
  | some k => exact (known_of_run (run_of_reach h hk)).2
  | none =>
    rw [hk] at halone
    rw [traceOf, halone]
    exact .nil

/-- What an observation is grounded in stands before it in the trace. -/
theorem grounded_of_split (h : Reach L roster audit s) {pre post : List Obs} {o : Obs}
    (hsplit : s.trace = pre ++ o :: post) :
    o.Grounded L (pre.filter fun o' => o'.conn = o.conn) := by
  refine justified_of_reach h o.conn _ o (post.filter fun o' => o'.conn = o.conn) ?_
  rw [traceOf, hsplit, List.filter_append, List.filter_cons_of_pos (by simp)]

theorem grounded_of_mem (h : Reach L roster audit s) {o : Obs} (ho : o ∈ s.trace) :
    ∃ pre, pre ⊆ s.traceOf o.conn ∧ o.Grounded L pre := by
  obtain ⟨pre, post, hsplit⟩ := List.append_of_mem ho
  refine ⟨_, fun o' ho' => ?_, grounded_of_split h hsplit⟩
  rw [traceOf, hsplit, List.filter_append]
  exact List.mem_append_left _ ho'

theorem marked_of_reach (h : Reach L roster audit s) (c : ConnId) :
    ∃ n, MarkedUpTo Obs.stage (s.traceOf c) n := by
  have halone := allAlone_of_reach h c
  cases hk : s.conns c with
  | some k => exact ⟨_, marked_of_run (run_of_reach h hk)⟩
  | none =>
    rw [hk] at halone
    rw [traceOf, halone]
    exact ⟨0, .nil⟩

/-- A connection dispatches one verb. -/
theorem verb_unique (h : Reach L roster audit s) {c : ConnId} {name name' : String}
    {line line' : ClientLine} (hverb : .verb c name line ∈ s.trace)
    (hverb' : .verb c name' line' ∈ s.trace) : name = name' ∧ line = line' := by
  obtain ⟨n, hmarks⟩ := marked_of_reach h c
  have heq := hmarks.eq_of_mem (mem_traceOf.2 ⟨hverb, rfl⟩) (mem_traceOf.2 ⟨hverb', rfl⟩) rfl rfl
  exact ⟨(Obs.verb.inj heq).2.1, (Obs.verb.inj heq).2.2⟩

/-- Two observations of one connection come in the order of their stages. -/
theorem increasing_of_reach (h : Reach L roster audit s) :
    s.trace.Pairwise fun o o' => o.conn = o'.conn →
      ∀ i, o.stage = some i → ∀ j, o'.stage = some j → i < j := by
  rw [List.pairwise_iff_getElem]
  intro i j hi hj hij hconn
  obtain ⟨n, hmarks⟩ := marked_of_reach h s.trace[j].conn
  have hpair := List.pairwise_filter.1 hmarks.increasing
  exact List.pairwise_iff_getElem.1 hpair i j hi hj hij (by simpa using hconn) (by simp)

/-- A marked observation of a connection has one place in the trace. -/
theorem split_unique (h : Reach L roster audit s) {pre post pre' post' : List Obs} {o o' : Obs}
    (hsplit : s.trace = pre ++ o :: post) (hsplit' : s.trace = pre' ++ o' :: post')
    (hconn : o.conn = o'.conn) {i : ℕ} (ho : o.stage = some i) (ho' : o'.stage = some i) :
    pre = pre' := by
  have hpair := increasing_of_reach h
  rcases append_eq_append_cons (hsplit.symm.trans hsplit') with ⟨mid, rfl, hmid⟩ | ⟨mid, rfl, -⟩
  · cases mid with
    | nil => simp
    | cons b mid =>
      obtain ⟨rfl, rfl⟩ := List.cons.inj hmid
      rw [hsplit, List.pairwise_append] at hpair
      have := (List.pairwise_cons.1 hpair.2.1).1 o' (by simp) hconn i ho i ho'
      omega
  · rw [hsplit, List.append_assoc, List.pairwise_append] at hpair
    have := (List.pairwise_cons.1 hpair.2.1).1 o (by simp) hconn.symm i ho' i ho
    omega

theorem traceOf_subset (s : Hub) (c : ConnId) : s.traceOf c ⊆ s.trace :=
  List.filter_sublist.subset

end Projection

end Hub

end AgentHub
