import AgentHub.Envelope
import AgentHub.Lib.LeftmostMax
import AgentHub.Lib.Split
import Mathlib.Data.Prod.Lex
import Mathlib.Logic.Function.Basic

/-!
# The routing state

`HubState`, the per-agent queues and the registry of parked awaits, with the operations
that the server runs on it under the state lock : `routeEnvelope`, `takeQueued`, `park`
(the registration in `handle_await`) and `removeWaiter`.

The two maps are functions to `Option` : `none` is an absent key. The operations read an
envelope and never the rest of what carries it, so the state is over any type that carries
an envelope. A waiter's sender half `tx` is named by the connection whose channel it
feeds, and `closed` says which receiver halves are dropped : a send to one of those
returns the envelope.

Waiter ids are `u64`s, and `next_waiter_id += 1` wraps, as in a release build.
-/

namespace AgentHub

open Function

/-- Names a connection of the hub, and the task that serves it. -/
abbrev ConnId := ℕ

/-- What carries an envelope through the hub. -/
class Carries (ε : Type) where
  envelope : ε → Envelope

instance : Carries Envelope :=
  ⟨id⟩

/-- The predicates of one `await` : an absent one matches anything. -/
structure AwaitFilter where
  replyTo : Option String
  kind : Option String
  deriving DecidableEq, Repr

/-- Whether an envelope passes every present predicate. -/
def AwaitFilter.matches (filter : AwaitFilter) (e : Envelope) : Bool :=
  filter.replyTo.all (fun replyTo => e.correlationId = some replyTo) &&
    filter.kind.all (fun kind => e.kind = kind)

/-- Specificity rank for waiter arbitration. Ranks compare as tuples. -/
def AwaitFilter.specificity (filter : AwaitFilter) : Bool ×ₗ Bool :=
  toLex (filter.replyTo.isSome, filter.kind.isSome)

/-- One parked `await` consumer. -/
structure Waiter where
  id : UInt64
  filter : AwaitFilter
  tx : ConnId
  deriving DecidableEq, Repr

/-- The routing state behind the state lock. -/
structure HubState (ε : Type) where
  queues : String → Option (List ε)
  waiters : String → Option (List Waiter)
  nextWaiterId : UInt64

/-- The routing state at startup. -/
def HubState.empty (ε : Type) : HubState ε where
  queues _ := none
  waiters _ := none
  nextWaiterId := 0

/-- A map entry after a removal : an emptied collection has no entry. -/
def nonEmpty {α : Type} (l : List α) : Option (List α) :=
  if l.isEmpty then none else some l

/-- How a committed send was routed. A handoff names the channel it went into. -/
inductive SendOutcome
  | handedOff (tx : ConnId)
  | queued (depth : ℕ)
  deriving DecidableEq, Repr

/-- Where an envelope lands on the destination FIFO when no waiter matches. -/
inductive QueuePlacement
  | back
  | front
  deriving DecidableEq, Repr

variable {ε : Type} [Carries ε]

/-! ## The operations -/

/-- The score of a waiter in the arbitration scan. -/
def Waiter.rank (e : Envelope) (w : Waiter) : Option (Bool ×ₗ Bool) :=
  if w.filter.matches e then some w.filter.specificity else none

theorem lt_length_of_scanMax {e : Envelope} {ws : List Waiter} {b : ℕ × (Bool ×ₗ Bool)}
    (h : scanMax (Waiter.rank e) 0 none ws = some b) : b.1 < ws.length := by
  obtain ⟨pre, a, post, rfl, hlen, -⟩ := leftmostMax_of_scanMax (i := b.1) (b := b.2) h
  simp [← hlen]

/-- The position of the waiter the scan of `route_envelope` settles on. -/
def best (e : Envelope) (ws : List Waiter) : Option (Fin ws.length) :=
  match h : scanMax (Waiter.rank e) 0 none ws with
  | none => none
  | some b => some ⟨b.1, lt_length_of_scanMax h⟩

/-- No waiter took the envelope : it queues at `placement`. -/
def HubState.enqueue (state : HubState ε) (x : ε) (placement : QueuePlacement) :
    HubState ε × SendOutcome :=
  let queue := (state.queues (Carries.envelope x).to).getD []
  let queue := match placement with
    | .back => queue ++ [x]
    | .front => x :: queue
  ({ state with queues := update state.queues (Carries.envelope x).to (some queue) },
    .queued queue.length)

/-- The registry without the waiter at position `i` of `ws`, the list of `name`. -/
def HubState.removeAt (state : HubState ε) (name : String) (ws : List Waiter) (i : ℕ) :
    HubState ε :=
  { state with waiters := update state.waiters name (nonEmpty (ws.eraseIdx i)) }

set_option linter.unusedVariables false in
/-- Routes one committed envelope under the state lock. A matched waiter whose receiver is
dropped stays removed, and the loop tries the next candidate. -/
def routeEnvelope (closed : ConnId → Bool) (state : HubState ε) (x : ε)
    (placement : QueuePlacement) : HubState ε × SendOutcome :=
  match hws : state.waiters (Carries.envelope x).to with
  | none => state.enqueue x placement
  | some ws =>
    match best (Carries.envelope x) ws with
    | none => state.enqueue x placement
    | some i =>
      if closed (ws.get i).tx then
        routeEnvelope closed (state.removeAt (Carries.envelope x).to ws i) x placement
      else (state.removeAt (Carries.envelope x).to ws i, .handedOff (ws.get i).tx)
termination_by ((state.waiters (Carries.envelope x).to).getD []).length
decreasing_by
  have hi := i.isLt
  simp only [HubState.removeAt, update_self, hws, nonEmpty, Option.getD_some]
  split_ifs with hempty
  · simp only [Option.getD_none, List.length_nil]
    omega
  · simp only [Option.getD_some, List.length_eraseIdx_of_lt hi]
    omega

/-- Consumes the first queued envelope that passes the filter. -/
def takeQueued (state : HubState ε) (name : String) (filter : AwaitFilter) :
    Option (ε × HubState ε) :=
  match state.queues name with
  | none => none
  | some queue =>
    match queue.findFinIdx? fun x => filter.matches (Carries.envelope x) with
    | none => none
    | some i =>
      some (queue.get i,
        { state with queues := update state.queues name (nonEmpty (queue.eraseIdx i)) })

/-- Registers a waiter at the end of its agent's list and draws the next id. -/
def HubState.park (state : HubState ε) (name : String) (filter : AwaitFilter) (tx : ConnId) :
    HubState ε where
  queues := state.queues
  waiters := update state.waiters name
    (some ((state.waiters name).getD [] ++ [⟨state.nextWaiterId, filter, tx⟩]))
  nextWaiterId := state.nextWaiterId + 1

/-- Removes a parked waiter by id. The source returns whether there was one, and drops it. -/
def removeWaiter (state : HubState ε) (name : String) (waiterId : UInt64) :
    Option (Waiter × HubState ε) :=
  match state.waiters name with
  | none => none
  | some ws =>
    match ws.findFinIdx? fun w => w.id = waiterId with
    | none => none
    | some i => some (ws.get i, state.removeAt name ws i)

/-! ## Queues and registrations

`queue` and `registered` read a map with an absent key as the empty list. -/

/-- The queue of an agent. -/
def HubState.queue (state : HubState ε) (name : String) : List ε :=
  (state.queues name).getD []

/-- The waiters registered for an agent, in arrival order. -/
def HubState.registered (state : HubState ε) (name : String) : List Waiter :=
  (state.waiters name).getD []

theorem getD_nonEmpty {α : Type} (l : List α) : (nonEmpty l).getD [] = l := by
  unfold nonEmpty
  split_ifs with h
  · simpa using h
  · rfl

section Views

variable {ε : Type} (state : HubState ε) (name : String)

@[simp] theorem queue_empty : (HubState.empty ε).queue name = [] :=
  rfl

@[simp] theorem registered_empty : (HubState.empty ε).registered name = [] :=
  rfl

theorem registered_of_waiters {ws : List Waiter} (h : state.waiters name = some ws) :
    state.registered name = ws := by
  simp [HubState.registered, h]

theorem queue_of_queues {q : List ε} (h : state.queues name = some q) : state.queue name = q := by
  simp [HubState.queue, h]

@[simp] theorem queue_removeAt (ws : List Waiter) (i : ℕ) (n : String) :
    (state.removeAt name ws i).queue n = state.queue n :=
  rfl

theorem registered_removeAt (ws : List Waiter) (i : ℕ) (n : String) :
    (state.removeAt name ws i).registered n =
      if n = name then ws.eraseIdx i else state.registered n := by
  unfold HubState.registered HubState.removeAt
  by_cases h : n = name
  · subst h
    simp [getD_nonEmpty]
  · simp [h]

@[simp] theorem queue_park (filter : AwaitFilter) (tx : ConnId) (n : String) :
    (state.park name filter tx).queue n = state.queue n :=
  rfl

theorem registered_park (filter : AwaitFilter) (tx : ConnId) (n : String) :
    (state.park name filter tx).registered n = if n = name then
      state.registered n ++ [⟨state.nextWaiterId, filter, tx⟩] else state.registered n := by
  unfold HubState.registered HubState.park
  by_cases h : n = name
  · subst h
    simp
  · simp [h]

variable [Carries ε]

@[simp] theorem registered_enqueue (x : ε) (p : QueuePlacement) (n : String) :
    (state.enqueue x p).1.registered n = state.registered n :=
  rfl

theorem queue_enqueue (x : ε) (p : QueuePlacement) (n : String) :
    (state.enqueue x p).1.queue n = if n = (Carries.envelope x).to then
      (match p with
        | .back => state.queue n ++ [x]
        | .front => x :: state.queue n)
      else state.queue n := by
  unfold HubState.enqueue HubState.queue
  by_cases h : n = (Carries.envelope x).to
  · subst h
    simp
  · simp [h]

end Views

/-! ## What the operations do -/

theorem takeQueued_eq_some {state state' : HubState ε} {name : String} {filter : AwaitFilter}
    {x : ε} (h : takeQueued state name filter = some (x, state')) :
    ∃ pre post, state.queue name = pre ++ x :: post ∧
      filter.matches (Carries.envelope x) = true ∧
      (∀ y ∈ pre, filter.matches (Carries.envelope y) = false) ∧
      (∀ n, state'.queue n = if n = name then pre ++ post else state.queue n) ∧
      state'.waiters = state.waiters ∧ state'.nextWaiterId = state.nextWaiterId := by
  unfold takeQueued at h
  split at h
  · cases h
  rename_i q hq
  split at h
  · cases h
  rename_i i hi
  obtain ⟨hl, herase, hp, hpre⟩ := findFinIdx?_split hi
  obtain ⟨rfl, rfl⟩ := Prod.mk.inj (Option.some.inj h)
  refine ⟨q.take i, q.drop (i + 1), by rw [queue_of_queues _ _ hq, ← hl], hp, hpre, fun n => ?_, rfl, rfl⟩
  unfold HubState.queue
  by_cases hn : n = name
  · subst hn
    simp [getD_nonEmpty, herase]
  · simp [hn]

theorem takeQueued_eq_none {state : HubState ε} {name : String} {filter : AwaitFilter}
    (h : takeQueued state name filter = none) :
    ∀ x ∈ state.queue name, filter.matches (Carries.envelope x) = false := by
  unfold takeQueued at h
  split at h
  · rename_i hq
    simp [HubState.queue, hq]
  rename_i q hq
  split at h
  · rename_i hi
    rw [queue_of_queues _ _ hq]
    simpa using List.findFinIdx?_eq_none_iff.1 hi
  · cases h

theorem removeWaiter_eq_some {ε : Type} {state state' : HubState ε} {name : String} {id : UInt64}
    {w : Waiter} (h : removeWaiter state name id = some (w, state')) :
    ∃ pre post, state.registered name = pre ++ w :: post ∧ w.id = id ∧ (∀ v ∈ pre, v.id ≠ id) ∧
      (∀ n, state'.registered n = if n = name then pre ++ post else state.registered n) ∧
      state'.queues = state.queues ∧ state'.nextWaiterId = state.nextWaiterId := by
  unfold removeWaiter at h
  split at h
  · cases h
  rename_i ws hws
  split at h
  · cases h
  rename_i i hi
  obtain ⟨hl, herase, hp, hpre⟩ := findFinIdx?_split hi
  obtain ⟨rfl, rfl⟩ := Prod.mk.inj (Option.some.inj h)
  refine ⟨ws.take i, ws.drop (i + 1), by rw [registered_of_waiters _ _ hws, ← hl], by simpa using hp,
    fun v hv => by simpa using hpre v hv, fun n => ?_, rfl, rfl⟩
  rw [registered_removeAt, herase]

theorem removeWaiter_eq_none {ε : Type} {state : HubState ε} {name : String} {id : UInt64}
    (h : removeWaiter state name id = none) : ∀ w ∈ state.registered name, w.id ≠ id := by
  unfold removeWaiter at h
  split at h
  · rename_i hws
    simp [HubState.registered, hws]
  rename_i ws hws
  split at h
  · rename_i hi
    rw [registered_of_waiters _ _ hws]
    simpa using List.findFinIdx?_eq_none_iff.1 hi
  · cases h

end AgentHub
