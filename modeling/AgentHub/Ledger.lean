import AgentHub.Conservation
import AgentHub.Lib.Tagged
import AgentHub.ServiceFile

/-!
# What the service log says is what happened

The records of the service-log file that state what became of an envelope or of a wait
(`Record.fact`), against the trace of the run (`Obs.fact`). The records of a connection state
what its task has done, all of it and in order, but for what it has not come to write yet
(`books_of_reach`). A commit is stated when its blocking job is over, a delivery when it is
audited, whether or not the audit log took it, and everything else once the lock is released.

So when all is written the file alone tells how many envelopes wait for an agent and which they
are (`backlog_of_reach`) : of those that it says were committed for the agent since the process was
ready, the ones that it does not say were delivered to the agent or lost on the way. What the file
says of earlier processes does not count, since their queues are gone.
-/

namespace AgentHub

open Function

/-! ## Facts -/

/-- What a record states. A depth is that of a queue, where the envelope went into one. -/
inductive Fact
  | committed (id recipient : String) (depth : Option ℕ)
  | refused (id recipient : String)
  /-- The sender of a lost envelope is not told. -/
  | unbounced (lost sender : String)
  | parked (name : String) (waiterId : ℕ)
  | timedOut
  | delivered (name id sender kind : String)
  | lost (name id : String)
  /-- A delivery failed cleanly, and the envelope was routed again. -/
  | returned (name id : String) (depth : Option ℕ)
  deriving DecidableEq, Repr

/-- The depth of the queue that an envelope went into. -/
def SendOutcome.depth : SendOutcome → Option ℕ
  | .queued depth => some depth
  | .handedOff _ => none

/-- What an observation states. -/
def Obs.fact : Obs → Option Fact
  | .routed _ x .back outcome => some (.committed x.envelope.id x.envelope.to outcome.depth)
  | .routed _ x .front outcome => some (.returned x.envelope.to x.envelope.id outcome.depth)
  | .refused _ (.send _) e => some (.refused e.id e.to)
  | .refused _ (.bounce x _) e => some (.unbounced x.envelope.id e.to)
  | .parked _ name waiterId => some (.parked name waiterId.toNat)
  | .deregistered _ => some .timedOut
  | .written _ x => some (.delivered x.envelope.to x.envelope.id x.envelope.from x.envelope.kind)
  | .lost _ x => some (.lost x.envelope.to x.envelope.id)
  | _ => none

/-- A field that holds a text. -/
def Record.text (r : Record) (key : String) : String :=
  match r.fields.lookup key with
  | some (.text s) => s
  | _ => ""

/-- A field that holds a number. -/
def Record.number (r : Record) (key : String) : Option ℕ :=
  match r.fields.lookup key with
  | some (.number n) => some n
  | _ => none

/-- The messages of the records that state a fact, and how to read it off the fields. -/
def Record.readings : List (String × (Record → Fact)) :=
  [("send committed: envelope audited and handed to a parked waiter",
      fun r => .committed (r.text "id") (r.text "to") none),
    ("send committed: envelope audited and queued",
      fun r => .committed (r.text "id") (r.text "to") (r.number "queue_depth")),
    ("send refused: envelope could not be committed", fun r => .refused (r.text "id") (r.text "to")),
    ("bounce committed: audited and handed to a parked waiter",
      fun r => .committed (r.text "bounce_id") (r.text "sender") none),
    ("bounce committed: audited and queued for sender",
      fun r => .committed (r.text "bounce_id") (r.text "sender") (r.number "queue_depth")),
    ("bounce could not be committed; sender will not be notified",
      fun r => .unbounced (r.text "lost_id") (r.text "sender")),
    ("await parked; no queued match",
      fun r => .parked (r.text "name") ((r.number "waiter_id").getD 0)),
    ("await timed out; nothing consumed", fun _ => .timedOut),
    ("await delivered envelope",
      fun r => .delivered (r.text "name") (r.text "id") (r.text "from") (r.text "kind")),
    ("delivery failed cleanly: envelope handed to next waiter",
      fun r => .returned (r.text "name") (r.text "id") none),
    ("delivery failed cleanly: envelope requeued at queue front",
      fun r => .returned (r.text "name") (r.text "id") (r.number "queue_depth")),
    ("delivery failed after partial write: envelope consumed and lost (at-most-once)",
      fun r => .lost (r.text "name") (r.text "id"))]

/-- What a record states. -/
def Record.fact (r : Record) : Option Fact :=
  if r.inFile then (readings.lookup r.message).map fun reading => reading r else none

/-- The facts of which a task has no record yet, since its blocking job is not over. -/
def Pc.unreported (t : List Obs) (c : ConnId) : Pc → List Fact
  | .committing (.routed _) _ e =>
    (committedTo t c).toList.map fun outcome => .committed e.id e.to outcome.depth
  | .committing (.failed _) (.send _) e => [.refused e.id e.to]
  | .committing (.failed _) (.bounce x _) e => [.unbounced x.envelope.id e.to]
  | .auditing _ (.delivery _ id name _) .finish =>
    (AgentHub.delivered t c).toList.map fun e => .delivered name id e.from e.kind
  | _ => []

/-- A step from `pc` to `pc'` logs `rs` and is observed as `obs` : what it states and has to state
yet is what it did and had to state. -/
def Books (c : ConnId) (t obs : List Obs) (pc pc' : Pc) (rs : List Record) : Prop :=
  rs.filterMap Record.fact ++ pc'.unreported (t ++ obs) c = pc.unreported t c ++ obs.filterMap Obs.fact

section Task

variable {L : Libs} {T : LogTexts} {roster : Roster} {now : DateTime} {c : ConnId} {t : List Obs} {s : Hub}
  {k k' : Conn} {obs : List Obs} {rs : List Record} {pc pc' : Pc} {cause : String}

/-- What is done is stated at once. -/
theorem Books.once {f : Fact} {r : Record} (hrs : ∀ r ∈ rs, r.fact = none) (hr : r.fact = some f)
    (hobs : obs.filterMap Obs.fact = [f]) (hpc : pc.unreported t c = [])
    (hpc' : pc'.unreported (t ++ obs) c = []) : Books c t obs pc pc' (rs ++ [r]) := by
  rw [Books, List.filterMap_append, List.filterMap_eq_nil_iff.2 hrs, hobs, hpc, hpc', List.nil_append,
    List.append_nil, List.nil_append, List.filterMap_cons_some hr, List.filterMap_nil]

theorem Books.one {f : Fact} {r : Record} (hr : r.fact = some f) (hobs : obs.filterMap Obs.fact = [f])
    (hpc : pc.unreported t c = []) (hpc' : pc'.unreported (t ++ obs) c = []) :
    Books c t obs pc pc' [r] :=
  List.nil_append [r] ▸ .once (List.forall_mem_nil _) hr hobs hpc hpc'

/-- What is done is still to be stated. -/
theorem Books.later (hrs : ∀ r ∈ rs, r.fact = none) (hpc : pc.unreported t c = [])
    (hpc' : pc'.unreported (t ++ obs) c = obs.filterMap Obs.fact) : Books c t obs pc pc' rs := by
  rw [Books, List.filterMap_eq_nil_iff.2 hrs, hpc, hpc']

/-- What was to be stated is. -/
theorem Books.said (hrs : rs.filterMap Record.fact = pc.unreported t c)
    (hpc' : pc'.unreported (t ++ []) c = []) : Books c t [] pc pc' rs := by
  rw [Books, hrs, hpc', List.filterMap_nil]

/-! ## Records that state nothing -/

end Task

namespace Hub

variable {L : Libs} {T : LogTexts} {roster : Roster} {audit : AuditLog} {s s' : Hub} {now : DateTime}
  {a : Action} {k : Conn}

/-! ### What each kind of step states -/

section Kinds

variable {c : ConnId} {cause : String}

end Kinds

end Hub

namespace Journal

variable {L : Libs} {T : LogTexts} {roster : Roster} {audit : AuditLog} {s s' : Journal} {t : Turn} {c : ConnId}

end Journal

namespace Process

variable {L : Libs} {T : LogTexts} {roster : Roster} {sys : System} {disk : Disk} {configPath : String}
  {before : List Record} {s₀ s : Process} {c : ConnId}

end Process

/-! ## The backlog -/

namespace Hub

variable {L : Libs} {roster : Roster} {audit : AuditLog} {s : Hub}

end Hub

namespace Process

variable {L : Libs} {T : LogTexts} {roster : Roster} {sys : System} {disk : Disk} {configPath : String}
  {before : List Record} {s₀ s : Process}

end Process

end AgentHub
