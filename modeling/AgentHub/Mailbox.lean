import AgentHub.Arbitration

/-!
# The mailbox of one agent

What the routing state means to a single agent, in its own terms : a queue, and the seats of
its parked awaits in the order in which they sat down. A seat has no number, its await is
known by its channel, and the flag says whether the await is gone.

A routed envelope goes to the live seat that is first by specificity and then by arrival
among those that accept it (`Mailbox.route`). There is no loop : the dead seats that leave
with a handoff are those that rank before the one it goes to.
-/

namespace AgentHub

/-- A parked await, and whether its receiver is dropped. -/
structure Seat where
  filter : AwaitFilter
  tx : ConnId
  gone : Bool
  deriving DecidableEq, Repr

/-- The queue and the parked awaits of an agent. -/
structure Mailbox (ε : Type) where
  queue : List ε
  seats : List Seat

/-- An operation on the routing state. -/
inductive RoutingOp (ε : Type)
  | route (x : ε) (placement : QueuePlacement)
  /-- The critical section of `handle_await`, with a new channel. -/
  | await (name : String) (filter : AwaitFilter) (tx : ConnId)
  /-- The timer branch of the await that parked with that channel. -/
  | expire (name : String) (tx : ConnId)
  /-- The death of the task of that await. -/
  | die (name : String) (tx : ConnId)

/-- What an operation returns. -/
inductive RoutingOutcome (ε : Type)
  | routed (outcome : SendOutcome)
  | taken (x : ε)
  | parked
  | expired (removed : Bool)
  | died

variable {ε : Type} [Carries ε]

/-- The agent an operation is about. -/
def RoutingOp.agent : RoutingOp ε → String
  | .route x _ => (Carries.envelope x).to
  | .await name _ _ | .expire name _ | .die name _ => name

/-- The rank of a seat for an envelope that it accepts. -/
def Seat.rank (e : Envelope) (v : Seat) : Option (Bool ×ₗ Bool) :=
  if v.filter.matches e then some v.filter.specificity else none

/-- The rank of a seat that can take the envelope. -/
def Seat.score (e : Envelope) (v : Seat) : Option (Bool ×ₗ Bool) :=
  if v.gone then none else v.rank e

namespace Mailbox

def empty (ε : Type) : Mailbox ε :=
  ⟨[], []⟩

/-- The envelope queues, and the seats that accept it, all dead, leave. -/
def enqueue (m : Mailbox ε) (x : ε) (placement : QueuePlacement) : Mailbox ε × SendOutcome :=
  let queue := match placement with
    | .back => m.queue ++ [x]
    | .front => x :: m.queue
  (⟨queue, m.seats.filter fun v => !v.filter.matches (Carries.envelope x)⟩, .queued queue.length)

/-- An envelope for the agent. -/
def route (m : Mailbox ε) (x : ε) (placement : QueuePlacement) : Mailbox ε × SendOutcome :=
  match scanMax (Seat.score (Carries.envelope x)) 0 none m.seats with
  | none => m.enqueue x placement
  | some (i, b) =>
    match m.seats[i]? with
    | none => m.enqueue x placement
    | some v =>
      (⟨m.queue,
        ((m.seats.take i).filter fun v => !(v.gone && (v.rank (Carries.envelope x)).any fun c => b ≤ c)) ++
          (m.seats.drop (i + 1)).filter fun v =>
            !(v.gone && (v.rank (Carries.envelope x)).any fun c => b < c)⟩,
        .handedOff v.tx)

/-- What the operation does to the mailbox of its agent. -/
def step (m : Mailbox ε) : RoutingOp ε → Mailbox ε × RoutingOutcome ε
  | .route x placement => ((m.route x placement).1, .routed (m.route x placement).2)
  | .await _ filter tx =>
    match m.queue.find? fun x => filter.matches (Carries.envelope x) with
    | some x =>
      (⟨m.queue.eraseP fun x => filter.matches (Carries.envelope x), m.seats⟩, .taken x)
    | none => (⟨m.queue, m.seats ++ [⟨filter, tx, false⟩]⟩, .parked)
  | .expire _ tx =>
    (⟨m.queue, m.seats.eraseP fun v => v.tx = tx⟩, .expired (m.seats.any fun v => v.tx = tx))
  | .die _ tx =>
    (⟨m.queue, m.seats.map fun v => if v.tx = tx then { v with gone := true } else v⟩, .died)

/-- What a list of operations does, with the outcome of each. -/
def run (m : Mailbox ε) : List (RoutingOp ε) → Mailbox ε × List (RoutingOp ε × RoutingOutcome ε)
  | [] => (m, [])
  | op :: ops =>
    let rest := run (m.step op).1 ops
    (rest.1, (op, (m.step op).2) :: rest.2)

end Mailbox

/-! ## The mailbox in the routing state -/

variable {closed : ConnId → Bool} {state state' : HubState ε} {name : String}

/-- A registered waiter as a seat. -/
def Waiter.seat (closed : ConnId → Bool) (w : Waiter) : Seat :=
  ⟨w.filter, w.tx, closed w.tx⟩

/-- What the routing state holds for an agent. -/
def HubState.mailbox (state : HubState ε) (closed : ConnId → Bool) (name : String) : Mailbox ε :=
  ⟨state.queue name, (state.registered name).map (Waiter.seat closed)⟩

theorem score_seat (closed : ConnId → Bool) (e : Envelope) (w : Waiter) :
    (w.seat closed).score e = liveRank closed e w :=
  rfl

theorem mailbox_eq {ε : Type} {state state' : HubState ε}
    (hqueue : state'.queue name = state.queue name)
    (hreg : state'.registered name = state.registered name) :
    state'.mailbox closed name = state.mailbox closed name := by
  rw [HubState.mailbox, HubState.mailbox, hqueue, hreg]

/-- The loop of `route_envelope` does to the mailbox of the destination what one scan of its
seats says. -/
theorem mailbox_route (closed : ConnId → Bool) (state : HubState ε) (x : ε) (p : QueuePlacement) :
    (state.mailbox closed (Carries.envelope x).to).route x p =
      ((routeEnvelope closed state x p).1.mailbox closed (Carries.envelope x).to,
        (routeEnvelope closed state x p).2) := by
  rcases routeEnvelope_spec closed state x p with ⟨pre, w, post, b, h⟩ | h
  · have hseats : (state.mailbox closed (Carries.envelope x).to).seats =
        pre.map (Waiter.seat closed) ++ w.seat closed :: post.map (Waiter.seat closed) := by
      simp [HubState.mailbox, h.registered_eq]
    have hmax : LeftmostMax (Seat.score (Carries.envelope x)) (pre.map (Waiter.seat closed))
        (w.seat closed) (post.map (Waiter.seat closed)) b := by
      refine ⟨h.leftmost.score_eq, fun v hv c hc => ?_, fun v hv c hc => ?_⟩
      · obtain ⟨u, hu, rfl⟩ := List.mem_map.1 hv
        exact h.leftmost.lt_of_mem_pre u hu c hc
      · obtain ⟨u, hu, rfl⟩ := List.mem_map.1 hv
        exact h.leftmost.le_of_mem_post u hu c hc
    have hqueue : (routeEnvelope closed state x p).1.queue (Carries.envelope x).to =
        state.queue (Carries.envelope x).to := by
      simp only [HubState.queue, h.queues]
    have hdrop : (pre.map (Waiter.seat closed) ++ w.seat closed :: post.map (Waiter.seat closed)).drop
        ((pre.map (Waiter.seat closed)).length + 1) = post.map (Waiter.seat closed) := by
      rw [List.drop_append, List.drop_eq_nil_of_le (Nat.le_succ _), List.nil_append,
        Nat.add_sub_cancel_left, List.drop_one, List.tail_cons]
    unfold Mailbox.route
    rw [hseats, hmax.scanMax_eq]
    simp only [List.getElem?_append_right (le_refl _), Nat.sub_self, List.getElem?_cons_zero,
      List.take_left, hdrop, h.outcome, HubState.mailbox, hqueue, h.registered, List.map_append,
      List.filter_map]
    rfl
  · have hnone : scanMax (Seat.score (Carries.envelope x)) 0 none
        (state.mailbox closed (Carries.envelope x).to).seats = none := by
      refine scanMax_eq_none fun v hv => ?_
      obtain ⟨w, hw, rfl⟩ := List.mem_map.1 hv
      rw [score_seat]
      by_contra hne
      obtain ⟨b, hb⟩ := Option.ne_none_iff_exists'.1 hne
      obtain ⟨hopen, hrank⟩ := liveRank_eq_some.1 hb
      rw [h.all_dead w hw (rank_eq_some hrank).1] at hopen
      cases hopen
    have hseats : ((state.mailbox closed (Carries.envelope x).to).seats.filter fun v =>
        !v.filter.matches (Carries.envelope x)) =
        ((routeEnvelope closed state x p).1.registered (Carries.envelope x).to).map
          (Waiter.seat closed) := by
      rw [h.registered]
      simp only [HubState.mailbox, List.filter_map]
      rfl
    have hqueue : (routeEnvelope closed state x p).1.queue (Carries.envelope x).to =
        (state.enqueue x p).1.queue (Carries.envelope x).to := by
      simp only [HubState.queue, h.queues]
    unfold Mailbox.route
    rw [hnone]
    simp only [Mailbox.enqueue, hseats, h.outcome]
    simp only [HubState.mailbox, hqueue, queue_enqueue, if_pos]
    cases p <;> rfl

end AgentHub
