import AgentHub.Audit
import AgentHub.LineIo
import AgentHub.Roster
import AgentHub.Routing
import AgentHub.Wire

/-!
# The task of one connection

`handle_connection` and all it calls, as a machine that takes one input at a time
(`Conn.step`) : what a socket read, a write or a timer gives, and the results of what the
task does under a lock of the hub, which `Hub.step` computes. A program point (`Pc`) is a
place where the task waits, with the local variables it still needs there.

`audit_append` and `commit_send` run on the blocking pool and their callers await them, so
they are phases of the calling task.

Next to its state a task emits observations (`Obs`), which make up the trace of a run. An
accepted envelope gets a number, its place among the accepted ones (`Stamped`). Trace and
numbers record what happened : no step reads them to decide what to do.
-/

namespace AgentHub

/-- The third-party functions the hub calls. An error is its `Display` text. -/
structure Libs where
  /-- `serde_json::from_str` for `ClientLine`. -/
  clientLineFromStr : String → Except String ClientLine
  /-- `serde_json::to_string` for `ServerLine`. -/
  serverLineToString : ServerLine → Except String String
  /-- `serde_json::to_string` for `AuditEvent`. -/
  auditEventToString : AuditEvent → Except String String
  /-- `chrono::DateTime::parse_from_rfc3339`. -/
  parseFromRfc3339 : String → Except String DateTime
  /-- `to_rfc3339_opts(SecondsFormat::Secs, true)`. -/
  toRfc3339Secs : DateTime → String
  /-- `{:?}` of a string, whose escapes follow the Unicode tables. -/
  debugStr : String → String

/-- An accepted envelope, with its place among the accepted ones. -/
structure Stamped where
  envelope : Envelope
  seq : ℕ
  deriving Repr, Inhabited

instance : Carries Stamped :=
  ⟨Stamped.envelope⟩

@[simp] theorem carries_stamped (x : Stamped) : Carries.envelope x = x.envelope :=
  rfl

/-! ## Channels -/

/-- A `tokio::sync::oneshot` channel : its slot, and whether its halves are alive. -/
structure Oneshot (ε : Type) where
  value : Option ε
  txAlive : Bool
  rxAlive : Bool

namespace Oneshot

variable {ε : Type}

/-- No channel yet. -/
def unused : Oneshot ε :=
  ⟨none, false, false⟩

def fresh : Oneshot ε :=
  ⟨none, true, true⟩

/-- A send to a live receiver, which uses up the sender. -/
def send (ch : Oneshot ε) (x : ε) : Oneshot ε :=
  { ch with value := some x, txAlive := false }

def dropTx (ch : Oneshot ε) : Oneshot ε :=
  { ch with txAlive := false }

/-- Dropping the receiver drops what is in the slot. -/
def dropRx (ch : Oneshot ε) : Oneshot ε :=
  { ch with value := none, rxAlive := false }

end Oneshot

/-! ## Program points -/

/-- On whose behalf an envelope is committed. -/
inductive Role
  /-- The send verb of the agent authenticated on the connection. -/
  | send (name : String)
  /-- `emit_bounce`, for the envelope `lost` addressed to `recipient`. -/
  | bounce (lost : Stamped) (recipient : String)
  deriving Repr

/-- Where the blocking job of `audit_append` stands. -/
inductive AuditPhase
  | waiting
  | locked
  | appended
  deriving DecidableEq, Repr

/-- What follows an `audit_append`. -/
inductive AuditNext
  | readHello
  | refuse (message : String)
  | finish
  deriving DecidableEq, Repr

/-- Where the blocking job of `commit_send` stands. From `locked` on it holds the audit
lock. -/
inductive CommitPhase
  | waiting
  | locked
  | appended (x : Stamped)
  | routed (x : Stamped)
  | failed (cause : String)
  deriving Repr

/-- What follows a `write_line`. -/
inductive ReplyNext
  | readVerb (name : String)
  | finish
  deriving DecidableEq, Repr

/-- The program points of a connection task. -/
inductive Pc
  | auditing (phase : AuditPhase) (event : AuditEvent) (next : AuditNext)
  | readHello (line : List UInt8)
  | replying (line : ServerLine) (next : ReplyNext)
  | readVerb (name : String) (line : List UInt8)
  | committing (phase : CommitPhase) (role : Role) (envelope : Envelope)
  /-- `handle_await` before the state lock. -/
  | awaiting (name : String) (filter : AwaitFilter) (timeoutSecs : Option UInt64)
  /-- In `wait_for_handoff`. -/
  | parked (name : String) (waiterId : UInt64) (timeoutSecs : Option UInt64)
  /-- The timer branch is chosen; the state lock is not taken yet. -/
  | timerFired (name : String) (waiterId : UInt64)
  /-- The waiter was already gone when the timer branch looked for it. -/
  | lostRace (name : String)
  /-- In the loop of `write_envelope_line`, `written` bytes accepted so far. -/
  | writing (name : String) (x : Stamped) (source : String) (written : ℕ)
  /-- The write failed cleanly; the state lock is not taken yet. -/
  | requeueing (name : String) (x : Stamped) (source : String)
  /-- About to synthesize the bounce of `x`. -/
  | bouncing (name : String) (x : Stamped)
  | finished
  /-- The task is gone. -/
  | dead
  deriving Repr

/-- One connection : what its task and its socket hold. -/
structure Conn where
  /-- Peer socket address as reported by the listener. -/
  peer : String
  pc : Pc
  /-- Bytes read from the socket and not consumed yet, the `BufReader`'s buffer. -/
  buf : List UInt8
  /-- The handoff channel `handle_await` creates when it parks. -/
  chan : Oneshot Stamped
  /-- All bytes read from the socket. -/
  received : List UInt8
  /-- All bytes the socket accepted. -/
  out : List UInt8
  /-- The peer has closed its side. -/
  peerClosed : Bool

/-! ## Observations -/

/-- What a run of the hub lets one observe. -/
inductive Obs
  | authenticated (c : ConnId) (name : String)
  /-- The verb `line` was dispatched for the agent `name`. -/
  | verb (c : ConnId) (name : String) (line : ClientLine)
  /-- `audit_append` returned, the event is in the log. -/
  | logged (c : ConnId) (event : AuditEvent)
  | unlogged (c : ConnId) (event : AuditEvent)
  /-- The append of an `accepted` event returned `Ok`. -/
  | accepted (c : ConnId) (role : Role) (ts : DateTime) (x : Stamped)
  | refused (c : ConnId) (role : Role) (envelope : Envelope)
  | routed (c : ConnId) (x : Stamped) (placement : QueuePlacement) (outcome : SendOutcome)
  /-- The await of `c` consumed `x` from the queue. -/
  | took (c : ConnId) (x : Stamped)
  | parked (c : ConnId) (name : String) (waiterId : UInt64)
  /-- The timer branch of `c` removed a waiter. -/
  | deregistered (c : ConnId)
  /-- The socket of `c` accepted some bytes of the line of `x`. -/
  | bytes (c : ConnId) (x : Stamped)
  | written (c : ConnId) (x : Stamped)
  | lost (c : ConnId) (x : Stamped)
  /-- The last reply of the connection. -/
  | answered (c : ConnId) (line : ServerLine)
  | peerClosed (c : ConnId)
  deriving Repr

/-- The connection whose task emits the observation. -/
def Obs.conn : Obs → ConnId
  | .authenticated c _ | .verb c _ _ | .logged c _ | .unlogged c _ | .accepted c _ _ _
  | .refused c _ _ | .routed c _ _ _ | .took c _ | .parked c _ _ | .deregistered c
  | .bytes c _ | .written c _ | .lost c _ | .answered c _ | .peerClosed c => c

/-! ## The steps of the task -/

/-- What the task is given. -/
inductive Input
  /-- A socket read, with an empty buffer : the bytes read, none at end-of-file. -/
  | recv (r : Except String (List UInt8))
  /-- The buffer still holds bytes. -/
  | refill
  /-- `write_line` returned; on an error, with the number of bytes accepted. -/
  | replied (r : Except ℕ Unit)
  | locked
  /-- `AuditLog::write` returned; `Ok` with the number the next accepted envelope gets. -/
  | appended (r : Except AuditError ℕ)
  | routed (outcome : SendOutcome)
  | unlocked
  | took (x : Stamped)
  | parked (waiterId : UInt64)
  /-- The handoff receiver is ready. -/
  | polled
  | timer
  | deregistered (removed : Bool)
  | wrote (r : WriteResult)
  /-- The envelope line does not serialize. -/
  | unserializable
  | requeued (outcome : SendOutcome)
  /-- `emit_bounce` drew a fresh id. -/
  | bounced (uuid : String)
  | died
  | peerClosed
  deriving Repr

/-- The inputs that do not come from an operation under a lock. -/
def Input.isLocal : Input → Bool
  | .recv _ | .refill | .replied _ | .polled | .timer | .wrote _ | .unserializable
  | .bounced _ | .died | .peerClosed => true
  | _ => false

section Handlers

variable (L : Libs) (roster : Roster) (now : DateTime) (c : ConnId)

/-- `handle_send` up to `commit_send`. -/
def handleSend (name : String) (envelope : Envelope) : Pc :=
  match envelope.validate L.parseFromRfc3339 with
  | .error e => .replying (.error ("invalid envelope: " ++ e.display L.debugStr)) .finish
  | .ok () => .committing .waiting (.send name) { envelope with «from» := name }

/-- `handle_await` up to the state lock. -/
def handleAwait (name : String) (replyTo kind : Option String) (timeoutSecs : Option UInt64) : Pc :=
  if replyTo = some "" then
    .replying (.error "invalid await: replyTo is empty; omit it or use an envelope id") .finish
  else if kind = some "" then
    .replying (.error "invalid await: kind is empty; omit it or use an envelope kind") .finish
  else .awaiting name ⟨replyTo, kind⟩ timeoutSecs

/-- Roster verification of a decoded hello. -/
def handleHello (peer name token : String) : Pc × List Obs :=
  let refuse (reason : AuthFailureReason) : Pc × List Obs :=
    (.auditing .waiting (.authFailure now peer name reason)
      (.refuse ("authentication failed for " ++ L.debugStr name ++ ": " ++ reason.display)), [])
  match roster.get name with
  | none => refuse .unknownName
  | some expected =>
    if expected ≠ token then refuse .tokenMismatch
    else (.replying .ok (.readVerb name), [.authenticated c name])

/-- The hello boundary of `serve_connection`, once the first line is read. -/
def onHelloLine (peer : String) : Except ReadLineError (Option String) → Pc × List Obs
  | .ok none => (.finished, [])
  | .error e => (.replying (.error ("invalid hello line: " ++ e.display)) .finish, [])
  | .ok (some line) =>
    match fromJsonl L.clientLineFromStr line with
    | .error e => (.replying (.error e.display) .finish, [])
    | .ok (.hello name token) => handleHello L roster now c peer name token
    | .ok _ => (.replying (.error "first line must be hello") .finish, [])

/-- The verb boundary of `serve_connection`, once the second line is read. -/
def onVerbLine (name : String) : Except ReadLineError (Option String) → Pc × List Obs
  | .ok none => (.finished, [])
  | .error e => (.replying (.error ("invalid verb line: " ++ e.display)) .finish, [])
  | .ok (some line) =>
    match fromJsonl L.clientLineFromStr line with
    | .error e => (.replying (.error e.display) .finish, [])
    | .ok (.send envelope) => (handleSend L name envelope, [.verb c name (.send envelope)])
    | .ok (.await replyTo kind timeoutSecs) =>
      (handleAwait name replyTo kind timeoutSecs, [.verb c name (.await replyTo kind timeoutSecs)])
    | .ok (.hello _ _) =>
      (.replying (.error "duplicate hello: connection is already authenticated") .finish, [])

/-- The bounce for the envelope `lostId` of `sender`, addressed to `recipient`. -/
def bounceEnvelope (uuid lostId sender recipient reason : String) : Envelope where
  id := uuid
  «from» := hubName
  «to» := sender
  ts := L.toRfc3339Secs now
  kind := bounceKind
  correlationId := some lostId
  body := .ofMembers [("id", .string lostId), ("to", .string recipient), ("reason", .string reason)]

end Handlers

namespace Conn

variable (L : Libs) (roster : Roster) (now : DateTime) (c : ConnId)

/-- A connection just accepted : `handle_connection` logs it first. -/
def accepted (peer : String) : Conn where
  peer := peer
  pc := .auditing .waiting (.connection now peer) .readHello
  buf := []
  chan := .unused
  received := []
  out := []
  peerClosed := false

/-- One round of reading a line, on what `fill_buf` returns. -/
def readRound (k : Conn) (r : Except String (List UInt8)) : Option (Conn × List Obs) :=
  match k.pc with
  | .readHello line =>
    match readLineStep line r with
    | .more line => some ({ k with buf := [], pc := .readHello line }, [])
    | .done result rest =>
      let next := onHelloLine L roster now c k.peer result
      some ({ k with buf := rest, pc := next.1 }, next.2)
  | .readVerb name line =>
    match readLineStep line r with
    | .more line => some ({ k with buf := [], pc := .readVerb name line }, [])
    | .done result rest =>
      let next := onVerbLine L c name result
      some ({ k with buf := rest, pc := next.1 }, next.2)
  | _ => none

/-- What follows the loop of `write_envelope_line` in `deliver_envelope`. -/
def afterWrite (k : Conn) (name : String) (x : Stamped) (source : String) :
    EnvelopeWrite → Pc × List Obs
  | .written => (.auditing .waiting (.delivery now x.envelope.id name k.peer) .finish,
      [.written c x])
  | .failedClean => (.requeueing name x source, [])
  | .failedPartial _ =>
    (if x.envelope.from ≠ hubName then .bouncing name x else .finished, [.lost c x])

/-- One socket write of the envelope line. -/
def write (k : Conn) (name : String) (x : Stamped) (source : String) (written : ℕ)
    (r : WriteResult) : Option (Conn × List Obs) :=
  match toJsonl L.serverLineToString (.envelope x.envelope) with
  | .error _ => none
  | .ok jsonl =>
    let line := asBytes jsonl
    let accepted := match r with
      | .ok n => (line.drop written).take n
      | .err _ => []
    let seen : List Obs := if accepted = [] then [] else [.bytes c x]
    match writeRound line.length written r with
    | none => none
    | some (.more written) =>
      some ({ k with pc := .writing name x source written, out := k.out ++ accepted }, seen)
    | some (.done outcome) =>
      let next := afterWrite now c k name x source outcome
      some ({ k with pc := next.1, out := k.out ++ accepted }, seen ++ next.2)

/-- `write_line` : the line's bytes, or as many as the socket accepted before it failed. -/
def reply (k : Conn) (line : ServerLine) (next : ReplyNext) (r : Except ℕ Unit) :
    Option (Conn × List Obs) :=
  let seen : List Obs := match next with
    | .finish => [.answered c line]
    | .readVerb _ => []
  match toJsonl L.serverLineToString line, r with
  | .error _, .error _ => some ({ k with pc := .finished }, seen)
  | .error _, .ok () => none
  | .ok jsonl, .error n =>
    if n < (asBytes jsonl).length then
      some ({ k with pc := .finished, out := k.out ++ (asBytes jsonl).take n }, seen)
    else none
  | .ok jsonl, .ok () =>
    let pc : Pc := match next with
      | .readVerb name => .readVerb name []
      | .finish => .finished
    some ({ k with pc, out := k.out ++ asBytes jsonl }, seen)

/-- The end of the blocking job : the audit lock is released and the caller goes on. -/
def afterUnlock : Pc → Option Pc
  | .auditing .appended _ next => some <| match next with
    | .readHello => .readHello []
    | .refuse message => .replying (.error message) .finish
    | .finish => .finished
  | .committing (.routed _) (.send _) envelope => some (.replying (.accepted envelope.id) .finish)
  | .committing (.failed cause) (.send _) _ =>
    some (.replying (.error ("envelope not accepted: " ++ cause)) .finish)
  | .committing (.routed _) (.bounce _ _) _ => some .finished
  | .committing (.failed _) (.bounce _ _) _ => some .finished
  | _ => none

/-- One step of the task, with what it emits. -/
def step (k : Conn) : Input → Option (Conn × List Obs)
  | .recv r =>
    if k.buf = [] then
      let received := match r with
        | .ok bytes => k.received ++ bytes
        | .error _ => k.received
      { k with received }.readRound L roster now c r
    else none
  | .refill => if k.buf = [] then none else k.readRound L roster now c (.ok k.buf)
  | .replied r =>
    match k.pc with
    | .replying line next => k.reply L c line next r
    | _ => none
  | .locked =>
    match k.pc with
    | .auditing .waiting event next => some ({ k with pc := .auditing .locked event next }, [])
    | .committing .waiting role e => some ({ k with pc := .committing .locked role e }, [])
    | _ => none
  | .appended r =>
    match k.pc, r with
    | .auditing .locked event next, .ok _ =>
      some ({ k with pc := .auditing .appended event next }, [.logged c event])
    | .auditing .locked event next, .error _ =>
      some ({ k with pc := .auditing .appended event next }, [.unlogged c event])
    | .committing .locked role e, .ok seq =>
      some ({ k with pc := .committing (.appended ⟨e, seq⟩) role e },
        [.accepted c role now ⟨e, seq⟩])
    | .committing .locked role e, .error cause =>
      some ({ k with pc := .committing (.failed cause.display) role e }, [.refused c role e])
    | _, _ => none
  | .routed outcome =>
    match k.pc with
    | .committing (.appended x) role e =>
      some ({ k with pc := .committing (.routed x) role e }, [.routed c x .back outcome])
    | _ => none
  | .unlocked => (afterUnlock k.pc).map fun pc => ({ k with pc }, [])
  | .took x =>
    match k.pc with
    | .awaiting name _ _ => some ({ k with pc := .writing name x "queue" 0 }, [.took c x])
    | _ => none
  | .parked waiterId =>
    match k.pc with
    | .awaiting name _ timeoutSecs =>
      some ({ k with pc := .parked name waiterId timeoutSecs, chan := .fresh },
        [.parked c name waiterId])
    | _ => none
  | .polled =>
    let ready (name : String) : Option (Conn × List Obs) :=
      match k.chan.value with
      | some x => some ({ k with pc := .writing name x "handoff" 0, chan := k.chan.dropRx }, [])
      | none =>
        if k.chan.txAlive then none
        else some ({ k with pc := .replying (.error "internal error: await handoff lost") .finish,
                            chan := k.chan.dropRx }, [])
    match k.pc with
    | .parked name _ _ => ready name
    | .lostRace name => ready name
    | _ => none
  | .timer =>
    match k.pc with
    | .parked name waiterId (some _) => some ({ k with pc := .timerFired name waiterId }, [])
    | _ => none
  | .deregistered removed =>
    match k.pc with
    | .timerFired name _ =>
      if removed then
        some ({ k with pc := .replying .timeout .finish, chan := k.chan.dropRx }, [.deregistered c])
      else some ({ k with pc := .lostRace name }, [])
    | _ => none
  | .wrote r =>
    match k.pc with
    | .writing name x source written => k.write L now c name x source written r
    | _ => none
  | .unserializable =>
    match k.pc with
    | .writing name x source 0 =>
      match toJsonl L.serverLineToString (.envelope x.envelope) with
      | .error _ => some ({ k with pc := .requeueing name x source }, [])
      | .ok _ => none
    | _ => none
  | .requeued outcome =>
    match k.pc with
    | .requeueing _ x _ => some ({ k with pc := .finished }, [.routed c x .front outcome])
    | _ => none
  | .bounced uuid =>
    match k.pc with
    | .bouncing name x =>
      some ({ k with pc := .committing .waiting (.bounce x name)
                      (bounceEnvelope L now uuid x.envelope.id x.envelope.from name
                        "delivery failed after partial write") }, [])
    | _ => none
  | .died =>
    match k.pc, k.chan.value with
    | .parked _ _ _, none | .timerFired _ _, none | .lostRace _, none =>
      some ({ k with pc := .dead, chan := k.chan.dropRx }, [])
    | _, _ => none
  | .peerClosed => some ({ k with peerClosed := true }, [.peerClosed c])

end Conn

end AgentHub
