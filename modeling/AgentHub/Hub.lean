import AgentHub.Connection
import AgentHub.Lib.Machine

/-!
# The hub

All connections over the shared state : the audit log behind its lock, the routing state
behind its own. A step is one action at a reading `now` of the wall clock. What a task
does under the state lock is one step, since the critical sections of `handle_await`,
`remove_waiter` and the requeue do no I/O and nothing else sees their inside. A commit
takes the audit lock, appends, routes under the state lock, and releases the audit lock in
four steps, with steps of other tasks between them.

Handing an envelope over writes it into the channel of the waiter's connection, and
removing a waiter drops the sender half of its channel.
-/

namespace AgentHub

open Function

/-- The state of the hub, with the trace of what happened so far. -/
structure Hub where
  audit : AuditLog
  /-- The connection whose blocking job holds the audit lock. -/
  auditLock : Option ConnId
  state : HubState Stamped
  conns : ConnId → Option Conn
  trace : List Obs

/-- The accepted envelopes of a trace, in append order. -/
def acceptedOf (trace : List Obs) : List Stamped :=
  trace.filterMap fun
    | .accepted _ _ _ x => some x
    | _ => none

/-- What the hub does in one step. -/
inductive Action
  | accept (c : ConnId) (peer : String)
  /-- A step of a task that touches nothing shared. -/
  | task (c : ConnId) (i : Input)
  | lockAudit (c : ConnId)
  /-- `AuditLog::write` in the blocking job of `c`, with the results of its writes. -/
  | append (c : ConnId) (os : List WriteResult)
  /-- `route_envelope` in the commit of `c`. -/
  | route (c : ConnId)
  | unlockAudit (c : ConnId)
  /-- The critical section of `handle_await`. -/
  | await (c : ConnId)
  /-- `remove_waiter` in the timer branch of `c`. -/
  | deregister (c : ConnId)
  /-- `route_envelope` after a clean delivery failure of `c`. -/
  | requeue (c : ConnId)
  deriving Repr

/-- The connection whose task acts. -/
def Action.conn : Action → ConnId
  | .accept c _ | .task c _ | .lockAudit c | .append c _ | .route c | .unlockAudit c | .await c
  | .deregister c | .requeue c => c

namespace Hub

/-- The hub at startup, with the audit log opened for append. -/
def init (audit : AuditLog) : Hub where
  audit := audit
  auditLock := none
  state := .empty Stamped
  conns _ := none
  trace := []

/-- Whether the receiver half of a connection's channel is dropped. -/
def closed (s : Hub) (tx : ConnId) : Bool :=
  match s.conns tx with
  | some k => !k.chan.rxAlive
  | none => true

/-- Changes the channel of a connection. -/
def onChan (s : Hub) (tx : ConnId) (f : Oneshot Stamped → Oneshot Stamped) : Hub :=
  match s.conns tx with
  | some k => { s with conns := update s.conns tx (some { k with chan := f k.chan }) }
  | none => s

/-- The effect of a routing outcome on the channels. -/
def handOff (s : Hub) (x : Stamped) : SendOutcome → Hub
  | .handedOff tx => s.onChan tx fun ch => ch.send x
  | .queued _ => s

section Steps

variable (L : Libs) (roster : Roster)

/-- The task of `c` takes the input `i`. -/
def taskStep (s : Hub) (now : DateTime) (c : ConnId) (i : Input) : Option Hub :=
  match s.conns c with
  | none => none
  | some k =>
    match k.step L roster now c i with
    | none => none
    | some (k, obs) =>
      some { s with conns := update s.conns c (some k), trace := s.trace ++ obs }

/-- The event the blocking job of a task appends, holding the audit lock. -/
def pendingEvent (now : DateTime) : Pc → Option AuditEvent
  | .auditing .locked event _ => some event
  | .committing .locked _ envelope => some (.accepted now envelope)
  | _ => none

/-- The program point of a connection's task. -/
def pc (s : Hub) (c : ConnId) : Option Pc :=
  (s.conns c).map Conn.pc

/-- One step of the hub. -/
def step (s : Hub) : DateTime × Action → Option Hub
  | (now, .accept c peer) =>
    match s.conns c with
    | some _ => none
    | none => some { s with conns := update s.conns c (some (.accepted now peer)) }
  | (now, .task c i) => if i.isLocal then s.taskStep L roster now c i else none
  | (now, .lockAudit c) =>
    match s.auditLock with
    | some _ => none
    | none => (s.taskStep L roster now c .locked).map fun s => { s with auditLock := some c }
  | (now, .append c os) =>
    if s.auditLock = some c then
      match (s.pc c).bind (pendingEvent now) with
      | none => none
      | some event =>
        match s.audit.write L.auditEventToString event os with
        | none => none
        | some (audit, r) =>
          let r := r.map fun _ => (acceptedOf s.trace).length
          (s.taskStep L roster now c (.appended r)).map fun s => { s with audit }
    else none
  | (now, .route c) =>
    match s.pc c with
    | some (.committing (.appended x) _ _) =>
      let r := routeEnvelope s.closed s.state x .back
      (s.taskStep L roster now c (.routed r.2)).map fun s => { s with state := r.1 }.handOff x r.2
    | _ => none
  | (now, .unlockAudit c) =>
    if s.auditLock = some c then
      (s.taskStep L roster now c .unlocked).map fun s => { s with auditLock := none }
    else none
  | (now, .await c) =>
    match s.pc c with
    | some (.awaiting name filter _) =>
      match takeQueued s.state name filter with
      | some (x, state) => (s.taskStep L roster now c (.took x)).map fun s => { s with state }
      | none =>
        (s.taskStep L roster now c (.parked s.state.nextWaiterId)).map fun s =>
          { s with state := s.state.park name filter c }
    | _ => none
  | (now, .deregister c) =>
    match s.pc c with
    | some (.timerFired name waiterId) =>
      match removeWaiter s.state name waiterId with
      | some (w, state) =>
        (s.taskStep L roster now c (.deregistered true)).map fun s =>
          { s with state }.onChan w.tx Oneshot.dropTx
      | none => s.taskStep L roster now c (.deregistered false)
    | _ => none
  | (now, .requeue c) =>
    match s.pc c with
    | some (.requeueing _ x _) =>
      let r := routeEnvelope s.closed s.state x .front
      (s.taskStep L roster now c (.requeued r.2)).map fun s => { s with state := r.1 }.handOff x r.2
    | _ => none

/-- The states the hub reaches from startup. -/
abbrev Reach (audit : AuditLog) : Hub → Prop :=
  Machine.Reach (step L roster) (init audit)

end Steps

end Hub

end AgentHub
