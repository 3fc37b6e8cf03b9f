import AgentHub.Hub

/-!
# The service log

The records that the tasks write with `tracing`, and the filters of the two layers that
`service_log::init` installs. The file admits INFO and above; the console admits that and
the DEBUG records of the payload target.

A task logs what the calls it awaits return, so a step is first read as its outcome
(`Hub.outcome`) : the line that `read_line_bounded` returned and what it decodes to, whether
`write_line` succeeded, how an envelope write ended. A step in the middle of a line or of a
write has none and logs nothing. `Hub.records` are the records of a step with an outcome.

Values that a task keeps for its last record only (where its envelope went, what it
delivered) are read off the trace. How much time passed is not modelled, and here nothing is
said of when a task gets to write its records, or of what becomes of them.
-/

namespace AgentHub

/-! ## Records -/

inductive Level
  | debug
  | info
  | warn
  | error
  deriving DecidableEq, Repr

/-- The value of a field of a record. -/
inductive FieldValue
  | text (s : String)
  | number (n : ℕ)
  | flag (b : Bool)
  /-- `elapsed_ms`. -/
  | elapsed
  /-- A count of bytes that a socket accepted. -/
  | bytes (n : ℕ)
  deriving DecidableEq, Repr

/-- One `tracing` event. -/
structure Record where
  level : Level
  /-- `PAYLOAD_TARGET`; other events have their module's target. -/
  payload : Bool
  message : String
  fields : List (String × FieldValue)
  deriving DecidableEq, Repr

namespace Record

/-- `LevelFilter::INFO`, the filter of the file layer. -/
def inFile (r : Record) : Bool :=
  r.level ≠ .debug

/-- The filter of the console layer : INFO by default, DEBUG for the payload target. -/
def onConsole (r : Record) : Bool :=
  r.level ≠ .debug || r.payload

/-- The console shows every record of the file. -/
theorem onConsole_of_inFile {r : Record} (h : r.inFile = true) : r.onConsole = true := by
  unfold inFile at h
  rw [onConsole, h, Bool.true_or]

def info (message : String) (fields : List (String × FieldValue)) : Record :=
  ⟨.info, false, message, fields⟩

def warn (message : String) (fields : List (String × FieldValue)) : Record :=
  ⟨.warn, false, message, fields⟩

def error (message : String) (fields : List (String × FieldValue)) : Record :=
  ⟨.error, false, message, fields⟩

end Record

/-- The renderings that only the service log uses. -/
structure LogTexts where
  /-- `serde_json::to_string_pretty` of a body. -/
  prettyBody : Value → Except String String
  /-- `{:?}` of an audit event. -/
  debugEvent : AuditEvent → String

/-! ## Outcomes -/

/-- What `read_line_bounded` returned, with what a line decodes to. -/
abbrev LineRead :=
  Except ReadLineError (Option (Except String ClientLine))

/-- What a step of the hub comes to. -/
inductive Outcome
  | lineRead (c : ConnId) (r : LineRead)
  /-- `write_line` returned `done`. -/
  | lineWritten (c : ConnId) (done : Bool)
  | appended (c : ConnId) (r : Except AuditError Unit)
  /-- `write_envelope_line` returned, with the write that broke its loop. -/
  | envelopeWritten (c : ConnId) (result : EnvelopeWrite) (stop : Option WriteResult)
  | bounced (c : ConnId) (uuid : String)
  /-- Any other action is its own outcome. -/
  | acted (a : Action)
  deriving Repr

def Outcome.conn : Outcome → ConnId
  | .lineRead c _ | .lineWritten c _ | .appended c _ | .envelopeWritten c _ _ | .bounced c _ => c
  | .acted a => a.conn

/-- The write ends the loop of `write_envelope_line` before the line is out. -/
def WriteResult.stops : WriteResult → Option WriteResult
  | .ok 0 => some (.ok 0)
  | .ok _ => none
  | .err e => some (.err e)

/-- The part of a line that the task has read. -/
def Pc.lineSoFar : Pc → Option (List UInt8)
  | .readHello line | .readVerb _ line => some line
  | _ => none

section Outcomes

variable (L : Libs)

/-- The line that was read, decoded. -/
def Libs.lineRead (result : Except ReadLineError (Option String)) : LineRead :=
  result.map (Option.map L.clientLineFromStr)

/-- A round of `read_line_bounded` that returns. -/
def ReadStep.outcome (c : ConnId) : ReadStep → Option Outcome
  | .more _ => none
  | .done result _ => some (.lineRead c (L.lineRead result))

/-- A socket write that ends `write_envelope_line`. -/
def WriteStep.outcome (c : ConnId) (r : WriteResult) : WriteStep → Option Outcome
  | .more _ => none
  | .done result => some (.envelopeWritten c result r.stops)

/-- What a step of the task on its own comes to. -/
def Conn.outcome (c : ConnId) (k : Conn) : Input → Option Outcome
  | .recv r => k.pc.lineSoFar.bind fun line => (readLineStep line r).outcome L c
  | .refill => k.pc.lineSoFar.bind fun line => (readLineStep line (.ok k.buf)).outcome L c
  | .replied r => some (.lineWritten c r.toBool)
  | .wrote r =>
    match k.pc with
    | .writing _ x _ written =>
      match toJsonl L.serverLineToString (.envelope x.envelope) with
      | .error _ => none
      | .ok jsonl => (writeRound (asBytes jsonl).length written r).bind (WriteStep.outcome c r)
    | _ => none
  | .bounced uuid => some (.bounced c uuid)
  | i => some (.acted (.task c i))

/-- What a step of the hub comes to, if it is not in the middle of a line or of a write. -/
def Hub.outcome (s : Hub) : DateTime × Action → Option Outcome
  | (_, .task c i) => (s.conns c).bind fun k => k.outcome L c i
  | (now, .append c os) =>
    ((s.pc c).bind (pendingEvent now)).bind fun event =>
      (s.audit.write L.auditEventToString event os).map fun p => .appended c p.2
  | (_, a) => some (.acted a)

end Outcomes

/-! ## What a task has done -/

/-- The task of `c` routed the envelope that it commits. -/
def Obs.committedBy (c : ConnId) : Obs → Option SendOutcome
  | .routed d _ .back outcome => if d = c then some outcome else none
  | _ => none

/-- The task of `c` wrote an envelope line. -/
def Obs.deliveredBy (c : ConnId) : Obs → Option Envelope
  | .written d x => if d = c then some x.envelope else none
  | _ => none

/-- The task of `c` took its envelope from the queue. -/
def Obs.tookBy (c : ConnId) : Obs → Bool
  | .took d _ => d = c
  | _ => false

/-- The task of `c` registered a waiter. -/
def Obs.parkedBy (c : ConnId) : Obs → Option UInt64
  | .parked d _ waiterId => if d = c then some waiterId else none
  | _ => none

/-- Where the envelope that `c` committed went. -/
def committedTo (trace : List Obs) (c : ConnId) : Option SendOutcome :=
  (trace.filterMap (Obs.committedBy c)).getLast?

/-- The envelope whose line `c` wrote. -/
def delivered (trace : List Obs) (c : ConnId) : Option Envelope :=
  (trace.filterMap (Obs.deliveredBy c)).getLast?

/-- Where the envelope of `c` came from. -/
def deliveredFrom (trace : List Obs) (c : ConnId) : String :=
  if trace.any (Obs.tookBy c) then "queue" else "handoff"

/-- The waiter that `c` registered. -/
def waiterOf (trace : List Obs) (c : ConnId) : Option UInt64 :=
  (trace.filterMap (Obs.parkedBy c)).getLast?

/-! ## What a step logs -/

section Records

open Record FieldValue

variable (L : Libs) (T : LogTexts)

/-- `trace_payload`. -/
def tracePayload (direction : String) (e : Envelope) : Record :=
  match T.prettyBody e.body with
  | .ok body => ⟨.debug, true, "envelope payload",
      [("direction", text direction), ("id", text e.id), ("from", text e.from), ("to", text e.to),
        ("kind", text e.kind), ("correlation_id", text (e.correlationId.getD "none")),
        ("body", text ("\n" ++ body))]⟩
  | .error cause => warn "payload trace: body serialization failed"
      [("direction", text direction), ("id", text e.id), ("error", text cause)]

/-- `client_verb`. -/
def ClientLine.verb : ClientLine → String
  | .hello _ _ => "hello"
  | .send _ => "send"
  | .await _ _ _ => "await"

/-- `{:?}` of an optional string. -/
def debugOption (debug : String → String) : Option String → String
  | none => "None"
  | some s => "Some(" ++ debug s ++ ")"

/-- The roster's verdict on a hello. -/
def Roster.verify (roster : Roster) (name token : String) : Option AuthFailureReason :=
  match roster.get name with
  | none => some .unknownName
  | some expected => if expected ≠ token then some .tokenMismatch else none

/-- The hello boundary. -/
def helloRecords (roster : Roster) (peer : String) : LineRead → List Record
  | .ok none => [info "peer closed before sending hello" [("peer", text peer)]]
  | .error e => [warn "failed reading hello line" [("peer", text peer), ("error", text e.display)]]
  | .ok (some (.error source)) => [warn "hello line is not a valid wire line"
      [("peer", text peer), ("error", text (WireError.parse source).display)]]
  | .ok (some (.ok (.hello name token))) =>
    match roster.verify name token with
    | some reason => [warn "authentication failed"
        [("peer", text peer), ("name", text name), ("reason", text reason.display)]]
    | none => [info "authenticated" [("peer", text peer), ("name", text name)]]
  | .ok (some (.ok verb)) =>
    [warn "first line was not hello" [("peer", text peer), ("verb", text verb.verb)]]

/-- `handle_send` up to `commit_send`, which traces the payload first. -/
def sendRecords (peer name : String) (e : Envelope) : List Record :=
  match e.validate L.parseFromRfc3339 with
  | .error cause => [warn "send rejected: envelope validation failed"
      [("peer", text peer), ("name", text name), ("error", text (cause.display L.debugStr))]]
  | .ok () => [tracePayload T "inbound" { e with «from» := name }]

/-- `handle_await` up to the state lock. -/
def awaitRecords (peer name : String) (replyTo kind : Option String) (timeoutSecs : Option UInt64) :
    List Record :=
  if replyTo = some "" then
    [warn "await rejected: replyTo is empty" [("peer", text peer), ("name", text name)]]
  else if kind = some "" then
    [warn "await rejected: kind is empty" [("peer", text peer), ("name", text name)]]
  else [info "await accepted"
    [("peer", text peer), ("name", text name), ("reply_to", text (debugOption L.debugStr replyTo)),
      ("kind", text (debugOption L.debugStr kind)),
      ("timeout_secs", text (debugOption id (timeoutSecs.map fun secs => toString secs)))]]

/-- The verb boundary. -/
def verbRecords (peer name : String) : LineRead → List Record
  | .ok none => [info "peer closed without sending a verb" [("peer", text peer), ("name", text name)]]
  | .error e => [warn "failed reading verb line"
      [("peer", text peer), ("name", text name), ("error", text e.display)]]
  | .ok (some (.error source)) => [warn "verb line is not a valid wire line"
      [("peer", text peer), ("name", text name), ("error", text (WireError.parse source).display)]]
  | .ok (some (.ok (.send e))) => sendRecords L T peer name e
  | .ok (some (.ok (.await replyTo kind timeoutSecs))) => awaitRecords L peer name replyTo kind timeoutSecs
  | .ok (some (.ok (.hello _ _))) =>
    [warn "duplicate hello after authentication" [("peer", text peer), ("name", text name)]]

/-- A line is read. -/
def lineRecords (roster : Roster) (k : Conn) (r : LineRead) : List Record :=
  match k.pc with
  | .readHello _ => helloRecords roster k.peer r
  | .readVerb name _ => verbRecords L T k.peer name r
  | _ => []

/-- `write_line` returned. `cause` is the socket's error. -/
def replyRecords (k : Conn) (done : Bool) (cause : String) : List Record :=
  match k.pc with
  | .replying line _ =>
    match toJsonl L.serverLineToString line with
    | .error e => [error "cannot serialize server line" [("peer", text k.peer), ("error", text e.display)]]
    | .ok _ =>
      if done then []
      else [warn "failed writing server line to peer" [("peer", text k.peer), ("error", text cause)]]
  | _ => []

/-- `AuditLog::write` returned in the blocking job of the task. -/
def appendRecords (k : Conn) : Except AuditError Unit → List Record
  | .ok () => []
  | .error e =>
    match k.pc with
    | .auditing _ event _ => [error "audit append failed; event lost"
        [("error", text e.display), ("event", text (T.debugEvent event))]]
    | _ => []

/-- The bytes that a peer took of an envelope line that it did not take whole. -/
def EnvelopeWrite.count : EnvelopeWrite → ℕ
  | .failedPartial n => n
  | _ => 0

/-- `write_envelope_line` returned. -/
def writeRecords (k : Conn) (result : EnvelopeWrite) (stop : Option WriteResult) : List Record :=
  match k.pc with
  | .writing name x source _ =>
    (match stop with
      | some (.ok _) => [warn "socket accepted zero bytes writing envelope line"
          [("peer", text k.peer), ("written", bytes result.count)]]
      | some (.err e) => [warn "failed writing envelope line to peer"
          [("peer", text k.peer), ("error", text e.display), ("written", bytes result.count)]]
      | none => []) ++
    match result with
      | .failedPartial written =>
        [error "delivery failed after partial write: envelope consumed and lost (at-most-once)"
          [("peer", text k.peer), ("name", text name), ("id", text x.envelope.id),
            ("source", text source), ("written", bytes written), ("elapsed_ms", elapsed)]]
      | _ => []
  | _ => []

/-- The bounce is synthesized, and `commit_send` traces it. -/
def bounceRecords (now : DateTime) (k : Conn) (uuid : String) : List Record :=
  match k.pc with
  | .bouncing name x => [tracePayload T "inbound" (bounceEnvelope L now uuid x.envelope.id
      x.envelope.from name "delivery failed after partial write")]
  | _ => []

/-- What `handle_send` logs when `commit_send` returned. -/
def commitRecords (k : Conn) (name : String) (e : Envelope) : SendOutcome → Record
  | .handedOff _ => info "send committed: envelope audited and handed to a parked waiter"
      [("peer", text k.peer), ("name", text name), ("id", text e.id), ("to", text e.to),
        ("kind", text e.kind), ("correlated", flag e.correlationId.isSome), ("elapsed_ms", elapsed)]
  | .queued depth => info "send committed: envelope audited and queued"
      [("peer", text k.peer), ("name", text name), ("id", text e.id), ("to", text e.to),
        ("kind", text e.kind), ("correlated", flag e.correlationId.isSome),
        ("queue_depth", number depth), ("elapsed_ms", elapsed)]

/-- What `emit_bounce` logs when `commit_send` returned. -/
def bounceCommitRecords (e : Envelope) (lost : Stamped) : SendOutcome → Record
  | .handedOff _ => info "bounce committed: audited and handed to a parked waiter"
      [("bounce_id", text e.id), ("lost_id", text lost.envelope.id), ("sender", text e.to)]
  | .queued depth => info "bounce committed: audited and queued for sender"
      [("bounce_id", text e.id), ("lost_id", text lost.envelope.id), ("sender", text e.to),
        ("queue_depth", number depth)]

/-- The blocking job of the task is over, after the observations `trace`. -/
def unlockRecords (trace : List Obs) (c : ConnId) (k : Conn) : List Record :=
  match k.pc with
  | .auditing _ (.delivery _ id name _) .finish =>
    (delivered trace c).toList.map fun e => info "await delivered envelope"
      [("peer", text k.peer), ("name", text name), ("id", text id), ("from", text e.from),
        ("kind", text e.kind), ("source", text (deliveredFrom trace c)), ("elapsed_ms", elapsed)]
  | .committing (.routed _) (.send name) e =>
    (committedTo trace c).toList.map (commitRecords k name e)
  | .committing (.failed cause) (.send name) e =>
    [error "send refused: envelope could not be committed"
      [("peer", text k.peer), ("name", text name), ("id", text e.id), ("to", text e.to),
        ("error", text cause), ("elapsed_ms", elapsed)]]
  | .committing (.routed _) (.bounce lost _) e =>
    (committedTo trace c).toList.map (bounceCommitRecords e lost)
  | .committing (.failed cause) (.bounce lost _) e =>
    [error "bounce could not be committed; sender will not be notified"
      [("lost_id", text lost.envelope.id), ("sender", text e.to), ("error", text cause)]]
  | _ => []

set_option linter.unusedVariables false in
/-- The dead waiters that the loop of `route_envelope` purges, in turn. -/
def purged (closed : ConnId → Bool) (state : HubState Stamped) (x : Stamped) : List Waiter :=
  match hws : state.waiters x.envelope.to with
  | none => []
  | some ws =>
    match best x.envelope ws with
    | none => []
    | some i =>
      if closed (ws.get i).tx then
        ws.get i :: purged closed (state.removeAt x.envelope.to ws i) x
      else []
termination_by ((state.waiters x.envelope.to).getD []).length
decreasing_by
  have hi := i.isLt
  simp only [HubState.removeAt, Function.update_self, hws, nonEmpty, Option.getD_some]
  split_ifs with hempty
  · simp only [Option.getD_none, List.length_nil]
    omega
  · simp only [Option.getD_some, List.length_eraseIdx_of_lt hi]
    omega

def purgeRecords (s : Hub) (x : Stamped) : List Record :=
  (purged s.closed s.state x).map fun w => warn "purged dead waiter during handoff"
    [("waiter_id", number w.id.toNat), ("to", text x.envelope.to)]

/-- `route_envelope` in a commit, and after a clean delivery failure. -/
def routeRecords (s : Hub) (k : Conn) : List Record :=
  match k.pc with
  | .committing (.appended x) _ _ => purgeRecords s x
  | .requeueing name x source =>
    purgeRecords s x ++
      match (routeEnvelope s.closed s.state x .front).2 with
      | .handedOff _ => [warn "delivery failed cleanly: envelope handed to next waiter"
          [("peer", text k.peer), ("name", text name), ("id", text x.envelope.id),
            ("source", text source), ("elapsed_ms", elapsed)]]
      | .queued depth => [warn "delivery failed cleanly: envelope requeued at queue front"
          [("peer", text k.peer), ("name", text name), ("id", text x.envelope.id),
            ("source", text source), ("queue_depth", number depth), ("elapsed_ms", elapsed)]]
  | _ => []

/-- The critical section of `handle_await`, and the start of a delivery from the queue. -/
def startRecords (s : Hub) (k : Conn) : List Record :=
  match k.pc with
  | .awaiting name filter _ =>
    match takeQueued s.state name filter with
    | some (x, _) => [tracePayload T "outbound" x.envelope]
    | none => [info "await parked; no queued match"
        [("peer", text k.peer), ("name", text name), ("waiter_id", number s.state.nextWaiterId.toNat)]]
  | _ => []

/-- The timer branch found its waiter, or came too late. -/
def timeoutRecords (s : Hub) (k : Conn) : List Record :=
  match k.pc with
  | .timerFired name waiterId =>
    match removeWaiter s.state name waiterId with
    | some _ => [info "await timed out; nothing consumed"
        [("peer", text k.peer), ("name", text name), ("waiter_id", number waiterId.toNat),
          ("elapsed_ms", elapsed)]]
    | none => []
  | _ => []

/-- The handoff receiver is ready. -/
def handoffRecords (trace : List Obs) (c : ConnId) (k : Conn) : List Record :=
  let ready (name : String) : List Record :=
    match k.chan.value with
    | some x => [tracePayload T "outbound" x.envelope]
    | none => (waiterOf trace c).toList.map fun waiterId =>
        error "await handoff channel closed without delivery; hub bug"
          [("peer", text k.peer), ("name", text name), ("waiter_id", number waiterId.toNat),
            ("elapsed_ms", elapsed)]
  match k.pc with
  | .parked name _ _ | .lostRace name => ready name
  | _ => []

/-- The envelope line does not serialize. -/
def serializeRecords (k : Conn) : List Record :=
  match k.pc with
  | .writing _ x _ _ =>
    match toJsonl L.serverLineToString (.envelope x.envelope) with
    | .error e => [error "cannot serialize server line" [("peer", text k.peer), ("error", text e.display)]]
    | .ok _ => []
  | _ => []

/-- An action that is its own outcome. -/
def actionRecords (s : Hub) (k : Conn) (cause : String) : Action → List Record
  | .accept _ _ | .lockAudit _ | .append _ _ => []
  | .route _ | .requeue _ => routeRecords s k
  | .unlockAudit c => unlockRecords s.trace c k
  | .await _ => startRecords T s k
  | .deregister _ => timeoutRecords s k
  | .task c .polled => handoffRecords T s.trace c k
  | .task _ .unserializable => serializeRecords L k
  | .task _ .died =>
    [error "connection task panicked or was cancelled" [("peer", text k.peer), ("error", text cause)]]
  | .task _ _ => []

/-- What the task logs. `cause` is the error of a reply that failed, or of a task that
died. -/
def Conn.records (roster : Roster) (now : DateTime) (s : Hub) (k : Conn) (cause : String) :
    Outcome → List Record
  | .lineRead _ r => lineRecords L T roster k r
  | .lineWritten _ done => replyRecords L k done cause
  | .appended _ r => appendRecords T k r
  | .envelopeWritten _ result stop => writeRecords k result stop
  | .bounced _ uuid => bounceRecords L T now k uuid
  | .acted a => actionRecords L T s k cause a

/-- The task has returned. -/
def Pc.returned : Pc → Bool
  | .finished => true
  | _ => false

/-- The bracket of `handle_connection` around the task, whose program point was `pc` and is
now `pc'`. -/
def closingRecords (k : Conn) (pc' : Option Pc) : List Record :=
  if !k.pc.returned && pc'.any Pc.returned then
    [info "connection closed" [("peer", text k.peer), ("elapsed_ms", elapsed)]]
  else []

/-- What a step of the hub from `s` to `s'` logs, in order. -/
def Hub.records (roster : Roster) (s s' : Hub) (now : DateTime) (o : Outcome) (cause : String) :
    List Record :=
  match s.conns o.conn with
  | some k => k.records L T roster now s cause o ++ closingRecords k (s'.pc o.conn)
  | none =>
    match o with
    | .acted (.accept _ peer) => [info "connection accepted" [("peer", text peer)]]
    | _ => []

end Records

/-! ## The hub and its log -/

/-- The hub with all that its tasks had to log since startup, in the order of its steps. -/
structure LoggedHub where
  hub : Hub
  log : List Record

/-- One step of the hub. `cause` is the text of the error that the step meets, where the
action does not give it. -/
structure Turn where
  now : DateTime
  action : Action
  cause : String
  deriving Repr

namespace LoggedHub

variable (L : Libs) (T : LogTexts) (roster : Roster)

def init (audit : AuditLog) : LoggedHub :=
  ⟨.init audit, []⟩

def step (s : LoggedHub) (t : Turn) : Option LoggedHub :=
  (s.hub.step L roster (t.now, t.action)).map fun hub =>
    ⟨hub, s.log ++ (s.hub.outcome L (t.now, t.action)).toList.flatMap fun o =>
      s.hub.records L T roster hub t.now o t.cause⟩

/-- What of it the layer of the service-log file admits. -/
def file (s : LoggedHub) : List Record :=
  s.log.filter Record.inFile

variable {L T roster} {s s' : LoggedHub}

theorem hub_of_step {t : Turn} (h : s.step L T roster t = some s') :
    s.hub.step L roster (t.now, t.action) = some s'.hub := by
  obtain ⟨hub, hstep, rfl⟩ := Option.map_eq_some_iff.1 h
  exact hstep

/-- Logging does not change what the hub does. -/
theorem reach_hub (h : Machine.Reach (step L T roster) s s') :
    Machine.Reach (Hub.step L roster) s.hub s'.hub := by
  refine Machine.Reach.invariant (P := fun s' => Machine.Reach (Hub.step L roster) s.hub s'.hub) h
    .init fun s₁ t s₂ hP hs => ?_
  exact .next hP trivial (hub_of_step hs)

end LoggedHub

end AgentHub
