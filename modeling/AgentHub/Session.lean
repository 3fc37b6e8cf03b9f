import AgentHub.Hub
import AgentHub.Invocation

/-!
# A session

The hub and one invocation of the client, over the connection `c`. All other clients are part
of the hub's runs, where their sockets may do anything. On `c` the hub reads what the client
has sent, in any pieces, and the client reads what the hub has written, a line at a time.

The connection may break at any time. From then on each side may get any part of what the
other has sent and then an error or the end of the file, writes may fail, and a task that waits
may be gone. A side also gets an error from a socket that the other closed before it had read
everything.
-/

namespace AgentHub

structure Session where
  hub : Hub
  client : Client
  /-- The connection has broken. -/
  broken : Bool

/-- What happens in a session. -/
inductive Event
  | hub (now : DateTime) (a : Action)
  | connect (now : DateTime) (peer : String)
  | client (i : ClientInput)
  | breaks

/-- The task is over and its socket closed. -/
def Pc.isGone : Pc → Bool
  | .finished | .dead => true
  | _ => false

namespace Session

/-- The hub has closed the connection without having read all that the client sent. -/
def wasReset (s : Session) (k : Conn) : Bool :=
  k.pc.isGone && k.received ≠ s.client.sent

/-- What the task of the connection can be given. -/
def hubIo (s : Session) (k : Conn) : Input → Bool
  | .recv (.ok []) => s.broken || (s.client.hasExited && k.received = s.client.sent)
  | .recv (.ok bytes) => (k.received ++ bytes).isPrefixOf s.client.sent
  | .recv (.error _) | .replied (.error _) | .wrote (.err _) | .wrote (.ok 0) | .peerClosed =>
    s.broken || s.client.hasExited
  | .died => s.broken
  | _ => true

/-- What the client can be given. `read_line` returns a line, or at the end of the file what
is left. -/
def clientIo (s : Session) (k : Conn) : ClientInput → Bool
  | .connected | .connectFails _ _ => false
  | .wrote _ => true
  | .writeFails _ | .readFails _ => s.broken || s.wasReset k
  | .read bytes =>
    let unread := k.out.drop s.client.consumed.length
    if newline ∈ bytes then
      bytes.isPrefixOf unread && bytes.getLast? = some newline && newline ∉ bytes.dropLast
    else s.broken && bytes.isPrefixOf unread || k.pc.isGone && bytes = unread

/-- What the hub can do. -/
def permits (s : Session) (c : ConnId) : Action → Bool
  | .accept d _ => d ≠ c
  | .task d i => d ≠ c || (s.hub.conns c).any fun k => s.hubIo k i
  | _ => true

/-- What the client can do. Before it is connected it can fail to be. -/
def offers (s : Session) (c : ConnId) (i : ClientInput) : Bool :=
  match s.hub.conns c with
  | some k => s.clientIo k i
  | none => match i with
    | .connectFails _ _ => true
    | _ => false

section

variable (L : Libs) (S : SerdeJson) (roster : Roster) (inv : Invocation) (c : ConnId)

/-- One step of the session. -/
def step (s : Session) : Event → Option Session
  | .hub now a =>
    if s.permits c a then (s.hub.step L roster (now, a)).map fun hub => { s with hub } else none
  | .connect now peer =>
    (s.hub.step L roster (now, .accept c peer)).bind fun hub =>
      (s.client.step S inv .connected).map fun client => { s with hub, client }
  | .client i =>
    if s.offers c i then (s.client.step S inv i).map fun client => { s with client } else none
  | .breaks => some { s with broken := true }

end

/-- Hub and client at their start. -/
def init (audit : AuditLog) : Session where
  hub := .init audit
  client := .init
  broken := false

end Session

end AgentHub
