import AgentHub.HubSteps
import AgentHub.ServiceLog
import Mathlib.Data.List.InsertIdx

/-!
# The hub without bodies

What is left of the hub when every body is blanked, and with it the bytes of lines and of
files, which the bodies are part of (`Hub.bodiless`). Routing looks at the address and the
filter fields of an envelope alone, so it does the same to a blanked state
(`routeEnvelope_map`, `takeQueued_map`).
-/

namespace AgentHub

open Function

/-! ## Blanking -/

def Envelope.bodiless (e : Envelope) : Envelope :=
  { e with body := .null }

def Stamped.bodiless (x : Stamped) : Stamped :=
  { x with envelope := x.envelope.bodiless }

def ClientLine.bodiless : ClientLine → ClientLine
  | .send e => .send e.bodiless
  | line => line

def ServerLine.bodiless : ServerLine → ServerLine
  | .envelope e => .envelope e.bodiless
  | line => line

def Role.bodiless : Role → Role
  | .bounce lost recipient => .bounce lost.bodiless recipient
  | role => role

def CommitPhase.bodiless : CommitPhase → CommitPhase
  | .appended x => .appended x.bodiless
  | .routed x => .routed x.bodiless
  | phase => phase

/-- Without bodies, and without the bytes read or written of a line. -/
def Pc.bodiless : Pc → Pc
  | .readHello _ => .readHello []
  | .readVerb name _ => .readVerb name []
  | .replying line next => .replying line.bodiless next
  | .committing phase role e => .committing phase.bodiless role.bodiless e.bodiless
  | .writing name x source _ => .writing name x.bodiless source 0
  | .requeueing name x source => .requeueing name x.bodiless source
  | .bouncing name x => .bouncing name x.bodiless
  | pc => pc

def Oneshot.map {ε ε' : Type} (f : ε → ε') (ch : Oneshot ε) : Oneshot ε' :=
  ⟨ch.value.map f, ch.txAlive, ch.rxAlive⟩

def Conn.bodiless (k : Conn) : Conn :=
  { k with
    pc := k.pc.bodiless
    buf := []
    chan := k.chan.map Stamped.bodiless
    received := []
    out := [] }

/-- How often a socket took a part of a line depends on its body. -/
def Obs.bodiless : Obs → Option Obs
  | .verb c name line => some (.verb c name line.bodiless)
  | .accepted c role ts x => some (.accepted c role.bodiless ts x.bodiless)
  | .refused c role e => some (.refused c role.bodiless e.bodiless)
  | .routed c x p o => some (.routed c x.bodiless p o)
  | .took c x => some (.took c x.bodiless)
  | .bytes _ _ => none
  | .written c x => some (.written c x.bodiless)
  | .lost c x => some (.lost c x.bodiless)
  | .answered c line => some (.answered c line.bodiless)
  | o => some o

def Input.bodiless : Input → Input
  | .took x => .took x.bodiless
  | i => i

def LineRead.bodiless (r : LineRead) : LineRead :=
  r.map (Option.map (Except.map ClientLine.bodiless))

/-- Without the count of the bytes that went out. -/
def EnvelopeWrite.uncounted : EnvelopeWrite → EnvelopeWrite
  | .failedPartial _ => .failedPartial 0
  | result => result

/-- Without bodies, counts of bytes, and what `serde_json` says of an event. -/
def Outcome.bodiless : Outcome → Outcome
  | .lineRead c r => .lineRead c r.bodiless
  | .appended c (.error (.serialize _)) => .appended c (.error (.serialize ""))
  | .envelopeWritten c result stop => .envelopeWritten c result.uncounted stop
  | o => o

/-- The state with another type of entries in its queues. -/
def HubState.map {ε ε' : Type} (f : ε → ε') (state : HubState ε) : HubState ε' where
  queues name := (state.queues name).map (List.map f)
  waiters := state.waiters
  nextWaiterId := state.nextWaiterId

def Hub.bodiless (s : Hub) : Hub where
  audit := { s.audit with file := [] }
  auditLock := s.auditLock
  state := s.state.map Stamped.bodiless
  conns c := (s.conns c).map Conn.bodiless
  trace := s.trace.filterMap Obs.bodiless

/-! ## Routing entries of another type -/

section Routing

variable {ε ε' : Type} [Carries ε] [Carries ε']

/-- The entries look alike to the routing. -/
structure SameAddress (f : ε → ε') : Prop where
  address : ∀ x, (Carries.envelope (f x)).to = (Carries.envelope x).to
  accepts : ∀ (filter : AwaitFilter) x,
    filter.matches (Carries.envelope (f x)) = filter.matches (Carries.envelope x)

theorem sameAddress_bodiless : SameAddress Stamped.bodiless :=
  ⟨fun _ => rfl, fun _ _ => rfl⟩

theorem best_congr {e e' : Envelope} (h : ∀ filter : AwaitFilter, filter.matches e' = filter.matches e)
    (ws : List Waiter) : best e' ws = best e ws := by
  have hrank : Waiter.rank e' = Waiter.rank e := by
    funext w
    rw [Waiter.rank, Waiter.rank, h]
  unfold best
  split <;> rename_i hscan <;> rw [hrank] at hscan
  · split
    · rfl
    · rename_i hscan'
      cases hscan.symm.trans hscan'
  · split
    · rename_i hscan'
      cases hscan.symm.trans hscan'
    · rename_i hscan'
      obtain rfl := Option.some.inj (hscan.symm.trans hscan')
      rfl

section Unfold

variable {closed : ConnId → Bool} {state : HubState ε} {x : ε} {p : QueuePlacement} {ws : List Waiter}

theorem routeEnvelope_of_absent (hws : state.waiters (Carries.envelope x).to = none) :
    routeEnvelope closed state x p = state.enqueue x p := by
  rw [routeEnvelope]
  split
  · rfl
  · rename_i hws'
    cases hws.symm.trans hws'

theorem routeEnvelope_of_unmatched (hws : state.waiters (Carries.envelope x).to = some ws)
    (hbest : best (Carries.envelope x) ws = none) :
    routeEnvelope closed state x p = state.enqueue x p := by
  rw [routeEnvelope]
  split
  · rfl
  · rename_i hws'
    obtain rfl := Option.some.inj (hws.symm.trans hws')
    rw [hbest]

theorem routeEnvelope_of_matched (hws : state.waiters (Carries.envelope x).to = some ws)
    {i : Fin ws.length} (hbest : best (Carries.envelope x) ws = some i) :
    routeEnvelope closed state x p =
      if closed (ws.get i).tx then
        routeEnvelope closed (state.removeAt (Carries.envelope x).to ws i) x p
      else (state.removeAt (Carries.envelope x).to ws i, .handedOff (ws.get i).tx) := by
  rw [routeEnvelope]
  split
  · rename_i hws'
    cases hws.symm.trans hws'
  · rename_i hws'
    obtain rfl := Option.some.inj (hws.symm.trans hws')
    rw [hbest]

end Unfold

theorem nonEmpty_map {α β : Type} (f : α → β) (l : List α) :
    (nonEmpty l).map (List.map f) = nonEmpty (l.map f) := by
  cases l <;> rfl

section Map

variable {f : ε → ε'} (hf : SameAddress f) (closed : ConnId → Bool) (state : HubState ε)

include hf

theorem enqueue_map (x : ε) (p : QueuePlacement) :
    (state.map f).enqueue (f x) p = ((state.enqueue x p).1.map f, (state.enqueue x p).2) := by
  have hqueue : ((state.queues (Carries.envelope x).to).map (List.map f)).getD [] =
      ((state.queues (Carries.envelope x).to).getD []).map f := by
    cases state.queues (Carries.envelope x).to <;> rfl
  unfold HubState.enqueue HubState.map
  simp only [hf.address, hqueue]
  cases p with
  | back =>
    refine Prod.ext (congrArg (fun q => HubState.mk q _ _) (funext fun n => ?_)) (by simp)
    by_cases hn : n = (Carries.envelope x).to <;> simp [hn]
  | front =>
    refine Prod.ext (congrArg (fun q => HubState.mk q _ _) (funext fun n => ?_)) (by simp)
    by_cases hn : n = (Carries.envelope x).to <;> simp [hn]

/-- Routing does to the mapped state what it does to the state. -/
theorem routeEnvelope_map (x : ε) (p : QueuePlacement) :
    routeEnvelope closed (state.map f) (f x) p =
      ((routeEnvelope closed state x p).1.map f, (routeEnvelope closed state x p).2) := by
  have hwaiters : ∀ state : HubState ε, (state.map f).waiters (Carries.envelope (f x)).to =
      state.waiters (Carries.envelope x).to := fun state => by rw [hf.address]; rfl
  have hbests : ∀ ws, best (Carries.envelope (f x)) ws = best (Carries.envelope x) ws :=
    best_congr fun filter => hf.accepts filter x
  fun_induction routeEnvelope closed state x p with
  | case1 state hws =>
    rw [routeEnvelope_of_absent ((hwaiters state).trans hws), enqueue_map hf]
  | case2 state ws hws hbest =>
    rw [routeEnvelope_of_unmatched ((hwaiters state).trans hws) ((hbests ws).trans hbest),
      enqueue_map hf]
  | case3 state ws hws i hbest hclosed ih =>
    rw [routeEnvelope_of_matched ((hwaiters state).trans hws) ((hbests ws).trans hbest),
      if_pos hclosed, hf.address]
    exact ih
  | case4 state ws hws i hbest hclosed =>
    rw [routeEnvelope_of_matched ((hwaiters state).trans hws) ((hbests ws).trans hbest),
      if_neg hclosed, hf.address]
    rfl

theorem takeQueued_map (name : String) (filter : AwaitFilter) :
    takeQueued (state.map f) name filter =
      (takeQueued state name filter).map fun p => (f p.1, p.2.map f) := by
  unfold takeQueued HubState.map
  cases hq : state.queues name with
  | none => simp only [hq, Option.map_none]
  | some q =>
    simp only [hq, Option.map_some]
    cases hfind : q.findFinIdx? fun x => filter.matches (Carries.envelope x) with
    | none =>
      have hfind' : (q.map f).findFinIdx? (fun x => filter.matches (Carries.envelope x)) = none := by
        simpa [List.findFinIdx?_eq_none_iff, hf.accepts] using hfind
      simp only [hfind', Option.map_none]
    | some i =>
      have hfind' : (q.map f).findFinIdx? (fun x => filter.matches (Carries.envelope x)) =
          some ⟨i, by simp⟩ := by
        rw [List.findFinIdx?_eq_some_iff] at hfind ⊢
        refine ⟨by simpa [hf.accepts] using hfind.1, fun j hj => ?_⟩
        simpa [hf.accepts] using hfind.2 ⟨j, by simpa using j.isLt⟩ hj
      simp only [hfind', List.get_eq_getElem, List.getElem_map, Option.map_some]
      refine congrArg (fun q => some (_, HubState.mk q _ _)) (funext fun n => ?_)
      by_cases hn : n = name
      · subst hn
        simp [List.eraseIdx_map, nonEmpty_map]
      · simp [hn]

end Map

end Routing

theorem removeWaiter_map {ε ε' : Type} (f : ε → ε') (state : HubState ε) (name : String)
    (waiterId : UInt64) :
    removeWaiter (state.map f) name waiterId =
      (removeWaiter state name waiterId).map fun p => (p.1, p.2.map f) := by
  unfold removeWaiter HubState.map
  cases hws : state.waiters name with
  | none => simp only [Option.map_none]
  | some ws =>
    simp only
    cases ws.findFinIdx? fun w => w.id = waiterId <;> rfl

end AgentHub
