import AgentHub.Lib.Renaming
import AgentHub.Mailbox
import AgentHub.Sample
import Mathlib.Algebra.Group.Nat.Defs

/-!
# Agents do not interfere in routing

The routing state is one, with one lock and one counter of waiter ids. `Switchboard` runs
its operations in any order, with what the tasks keep next to it : which receivers are
dropped, and the agent and the id under which each await has parked.

As long as the counter has not wrapped, an operation does to the mailbox of its agent what
`Mailbox.step` says and leaves the other mailboxes alone (`mailbox_of_step`). So what an
agent sees is the run of its own operations, and the ids it sees there are the same up to a
renaming that keeps their order (`agents_do_not_interfere`). With `2 ^ 64` parked awaits of
others in between, an await draws the id of an earlier one of its own agent, and its timer
removes that one (`exists_interference`).
-/

namespace AgentHub

open Function

/-- The routing state between its operations. -/
structure Switchboard (ε : Type) where
  state : HubState ε
  /-- The channels whose receiver is dropped. -/
  closed : ConnId → Bool
  /-- The agent and the waiter id of the await that has parked with a channel. -/
  tickets : ConnId → Option (String × UInt64)

/-- The records of a run, each an operation and its outcome. -/
abbrev RoutingHistory (ε : Type) :=
  List (RoutingOp ε × RoutingOutcome ε)

/-- Whether an await parks. -/
def RoutingOutcome.parks {ε : Type} : RoutingOutcome ε → Bool
  | .parked => true
  | _ => false

/-- How many awaits park in a run. -/
def parkings {ε : Type} (history : RoutingHistory ε) : ℕ :=
  history.countP fun r => r.2.parks

variable {ε : Type}

namespace Switchboard

def empty (ε : Type) : Switchboard ε where
  state := .empty ε
  closed _ := false
  tickets _ := none

/-- The id of the await of `name` that has parked with the channel. -/
def ticket (s : Switchboard ε) (name : String) (tx : ConnId) : Option UInt64 :=
  match s.tickets tx with
  | some (n, id) => if n = name then some id else none
  | none => none

/-- An await parks, and keeps the id that it draws. -/
def park (s : Switchboard ε) (name : String) (filter : AwaitFilter) (tx : ConnId) :
    Switchboard ε where
  state := s.state.park name filter tx
  closed := s.closed
  tickets := update s.tickets tx (some (name, s.state.nextWaiterId))

@[simp] theorem park_state (s : Switchboard ε) (name : String) (filter : AwaitFilter) (tx : ConnId) :
    (s.park name filter tx).state = s.state.park name filter tx :=
  rfl

@[simp] theorem park_closed (s : Switchboard ε) (name : String) (filter : AwaitFilter) (tx : ConnId) :
    (s.park name filter tx).closed = s.closed :=
  rfl

@[simp] theorem park_tickets (s : Switchboard ε) (name : String) (filter : AwaitFilter) (tx : ConnId) :
    (s.park name filter tx).tickets = update s.tickets tx (some (name, s.state.nextWaiterId)) :=
  rfl

variable [Carries ε]

/-- One operation. An await comes with a channel no await has parked with. -/
def step (s : Switchboard ε) : RoutingOp ε → Option (Switchboard ε × RoutingOutcome ε)
  | .route x placement =>
    let r := routeEnvelope s.closed s.state x placement
    some ({ s with state := r.1 }, .routed r.2)
  | .await name filter tx =>
    match s.tickets tx with
    | some _ => none
    | none =>
      match takeQueued s.state name filter with
      | some (x, state) => some ({ s with state }, .taken x)
      | none =>
        some (s.park name filter tx, .parked)
  | .expire name tx =>
    match s.ticket name tx with
    | none => none
    | some id =>
      match removeWaiter s.state name id with
      | some (_, state) => some ({ s with state, closed := update s.closed tx true }, .expired true)
      | none => some (s, .expired false)
  | .die name tx =>
    match s.ticket name tx with
    | none => none
    | some _ => some ({ s with closed := update s.closed tx true }, .died)

/-- A list of operations, in order. -/
def run (s : Switchboard ε) : List (RoutingOp ε) → Option (Switchboard ε × RoutingHistory ε)
  | [] => some (s, [])
  | op :: ops => (s.step op).bind fun r =>
    (run r.1 ops).map fun rest => (rest.1, (op, r.2) :: rest.2)

/-- What the switchboard holds for an agent. -/
def mailbox (s : Switchboard ε) (name : String) : Mailbox ε :=
  s.state.mailbox s.closed name

end Switchboard

/-! ## Emptied entries -/

/-- A map entry is absent exactly when its collection is empty. -/
structure HubState.Tidy (state : HubState ε) : Prop where
  queues : ∀ n, state.queues n = nonEmpty (state.queue n)
  waiters : ∀ n, state.waiters n = nonEmpty (state.registered n)

theorem nonEmpty_getD_nonEmpty {α : Type} (l : List α) : nonEmpty ((nonEmpty l).getD []) = nonEmpty l := by
  rw [getD_nonEmpty]

theorem nonEmpty_of_ne_nil {α : Type} {l : List α} (h : l ≠ []) : nonEmpty l = some l := by
  simp [nonEmpty, h]

namespace HubState.Tidy

variable {state state' : HubState ε} {name : String}

theorem empty : (HubState.empty ε).Tidy :=
  ⟨fun _ => rfl, fun _ => rfl⟩

theorem removeAt (h : state.Tidy) (ws : List Waiter) (i : ℕ) : (state.removeAt name ws i).Tidy := by
  refine ⟨h.queues, fun n => ?_⟩
  rw [registered_removeAt]
  by_cases hn : n = name
  · simp [HubState.removeAt, hn]
  · rw [if_neg hn, ← h.waiters n]
    simp [HubState.removeAt, hn]

theorem remove {id : UInt64} {w : Waiter} (h : state.Tidy)
    (hremove : removeWaiter state name id = some (w, state')) : state'.Tidy := by
  unfold removeWaiter at hremove
  split at hremove
  · cases hremove
  split at hremove
  · cases hremove
  obtain ⟨-, rfl⟩ := Prod.mk.inj (Option.some.inj hremove)
  exact h.removeAt _ _

theorem park (h : state.Tidy) (filter : AwaitFilter) (tx : ConnId) :
    (state.park name filter tx).Tidy := by
  refine ⟨h.queues, fun n => ?_⟩
  rw [registered_park]
  by_cases hn : n = name
  · rw [if_pos hn, nonEmpty_of_ne_nil (by simp), hn]
    simp [HubState.park, HubState.registered]
  · rw [if_neg hn, ← h.waiters n]
    simp [HubState.park, hn]

variable [Carries ε]

theorem enqueue (h : state.Tidy) (x : ε) (p : QueuePlacement) : (state.enqueue x p).1.Tidy := by
  refine ⟨fun n => ?_, h.waiters⟩
  have hne : (state.queue (Carries.envelope x).to) ++ [x] ≠ [] := by simp
  by_cases hn : n = (Carries.envelope x).to
  · subst hn
    rw [queue_enqueue, if_pos rfl]
    cases p with
    | back => simp [HubState.enqueue, nonEmpty, HubState.queue]
    | front => simp [HubState.enqueue, nonEmpty, HubState.queue]
  · rw [queue_enqueue, if_neg hn, ← h.queues n]
    simp [HubState.enqueue, hn]

theorem route (h : state.Tidy) (closed : ConnId → Bool) (x : ε) (p : QueuePlacement) :
    (routeEnvelope closed state x p).1.Tidy := by
  fun_induction routeEnvelope closed state x p with
  | case1 state hws => exact h.enqueue x p
  | case2 state ws hws hbest => exact h.enqueue x p
  | case3 state ws hws i hbest hclosed ih => exact ih (h.removeAt ws i)
  | case4 state ws hws i hbest hclosed => exact h.removeAt ws i

theorem take {filter : AwaitFilter} {x : ε} (h : state.Tidy)
    (htake : takeQueued state name filter = some (x, state')) : state'.Tidy := by
  unfold takeQueued at htake
  split at htake
  · cases htake
  split at htake
  · cases htake
  obtain ⟨-, rfl⟩ := Prod.mk.inj (Option.some.inj htake)
  refine ⟨fun n => ?_, h.waiters⟩
  by_cases hn : n = name
  · simp [HubState.queue, hn, nonEmpty_getD_nonEmpty]
  · have := h.queues n
    simpa [HubState.queue, hn] using this

end HubState.Tidy

/-! ## What the ids are good for -/

namespace Switchboard

variable {s s' t : Switchboard ε} {n : ℕ} {name a : String} {tx : ConnId} {id : UInt64}
  {op : RoutingOp ε} {o : RoutingOutcome ε}

theorem ticket_eq_some : s.ticket name tx = some id ↔ s.tickets tx = some (name, id) := by
  unfold ticket
  cases s.tickets tx with
  | none => simp
  | some r =>
    obtain ⟨n, id'⟩ := r
    by_cases hn : n = name <;> simp [hn]

/-- After `n` parked awaits with different ids. A registered waiter has the id of its
await, and the ids of an agent's waiters increase. -/
structure Numbered (s : Switchboard ε) (n : ℕ) : Prop where
  next : s.state.nextWaiterId = UInt64.ofNat n
  below : ∀ tx name id, s.tickets tx = some (name, id) → id.toNat < n
  inj : ∀ tx tx' name name' id, s.tickets tx = some (name, id) → s.tickets tx' = some (name', id) →
    tx = tx'
  held : ∀ name, ∀ w ∈ s.state.registered name, s.tickets w.tx = some (name, w.id)
  sorted : ∀ name, (s.state.registered name).Pairwise fun v w => v.id < w.id
  parked : ∀ tx, s.closed tx = true → s.tickets tx ≠ none

theorem Numbered.empty : (Switchboard.empty ε).Numbered 0 where
  next := rfl
  below tx name id h := by cases h
  inj tx tx' name name' id h := by cases h
  held name w hw := by cases hw
  sorted name := .nil
  parked tx h := by cases h

/-- Operations that only remove waiters. -/
theorem Numbered.remove (h : s.Numbered n) (hnext : s'.state.nextWaiterId = s.state.nextWaiterId)
    (htickets : s'.tickets = s.tickets)
    (hreg : ∀ name, (s'.state.registered name).Sublist (s.state.registered name))
    (hclosed : ∀ tx, s'.closed tx = true → s.tickets tx ≠ none) : s'.Numbered n where
  next := hnext.trans h.next
  below := htickets ▸ h.below
  inj := htickets ▸ h.inj
  held name w hw := by
    rw [htickets]
    exact h.held name w ((hreg name).subset hw)
  sorted name := (h.sorted name).sublist (hreg name)
  parked := htickets ▸ hclosed

theorem Numbered.park (h : s.Numbered n) (hn : n < 2 ^ 64) (filter : AwaitFilter)
    (hnew : s.tickets tx = none) :
    (s.park name filter tx).Numbered (n + 1) := by
  have hlast : s.state.nextWaiterId.toNat = n := by
    rw [h.next, UInt64.toNat_ofNat', Nat.mod_eq_of_lt hn]
  have hold : ∀ tx' name' id', s.tickets tx' = some (name', id') →
      update s.tickets tx (some (name, s.state.nextWaiterId)) tx' = some (name', id') := by
    intro tx' name' id' htx'
    have hne : tx' ≠ tx := by
      rintro rfl
      rw [hnew] at htx'
      cases htx'
    rw [update_of_ne hne, htx']
  have hcases : ∀ tx' name' id', update s.tickets tx (some (name, s.state.nextWaiterId)) tx' =
      some (name', id') → tx' = tx ∧ id' = s.state.nextWaiterId ∨ s.tickets tx' = some (name', id') := by
    intro tx' name' id' htx'
    by_cases heq : tx' = tx
    · rw [heq, update_self] at htx'
      exact Or.inl ⟨heq, (Prod.mk.inj (Option.some.inj htx')).2.symm⟩
    · rw [update_of_ne heq] at htx'
      exact Or.inr htx'
  refine ⟨?_, fun tx' name' id' htx' => ?_, fun tx₁ tx₂ name₁ name₂ id' h₁ h₂ => ?_,
    fun name' w hw => ?_, fun name' => ?_, fun tx' htx' => ?_⟩
  · rw [UInt64.ofNat_add, ← h.next]
    rfl
  · rcases hcases tx' name' id' htx' with ⟨-, rfl⟩ | htx'
    · omega
    · have := h.below tx' name' id' htx'
      omega
  · rcases hcases tx₁ name₁ id' h₁ with ⟨htx₁, hid₁⟩ | hold₁ <;>
      rcases hcases tx₂ name₂ id' h₂ with ⟨htx₂, hid₂⟩ | hold₂
    · rw [htx₁, htx₂]
    · have := h.below _ _ _ hold₂
      rw [hid₁] at this
      omega
    · have := h.below _ _ _ hold₁
      rw [hid₂] at this
      omega
    · exact h.inj _ _ _ _ _ hold₁ hold₂
  · simp only [park_state, registered_park] at hw
    split_ifs at hw with hname
    · rcases List.mem_append.1 hw with hw | hw
      · exact hold _ _ _ (h.held name' w hw)
      · rw [List.mem_singleton.1 hw, hname]
        exact update_self ..
    · exact hold _ _ _ (h.held name' w hw)
  · simp only [park_state, registered_park]
    split_ifs with hname
    · refine List.pairwise_append.2 ⟨h.sorted name', List.pairwise_singleton _ _, fun v hv w hw => ?_⟩
      rw [List.mem_singleton.1 hw, UInt64.lt_iff_toNat_lt, hlast]
      exact h.below _ _ _ (h.held name' v hv)
    · exact h.sorted name'
  · obtain ⟨r, hr⟩ := Option.ne_none_iff_exists'.1 (h.parked tx' htx')
    exact Option.ne_none_iff_exists'.2 ⟨r, hold tx' r.1 r.2 hr⟩

/-- Under its agent's waiters an await is known by its id as by its channel. -/
theorem Numbered.id_eq_iff (h : s.Numbered n) (hticket : s.tickets tx = some (name, id)) {w : Waiter}
    (hw : w ∈ s.state.registered name) : w.id = id ↔ w.tx = tx := by
  have hheld := h.held name w hw
  constructor
  · rintro rfl
    exact h.inj _ _ _ _ _ hheld hticket
  · rintro rfl
    rw [hticket] at hheld
    exact (Prod.mk.inj (Option.some.inj hheld)).2.symm

/-- A dropped receiver changes the seat of its await only. -/
theorem mailbox_update (s : Switchboard ε) (name : String) (tx : ConnId) :
    s.state.mailbox (update s.closed tx true) name =
      ⟨(s.mailbox name).queue, (s.mailbox name).seats.map fun v =>
        if v.tx = tx then { v with gone := true } else v⟩ := by
  simp only [mailbox, HubState.mailbox, List.map_map, Mailbox.mk.injEq, true_and]
  refine List.map_congr_left fun w _ => ?_
  by_cases hw : w.tx = tx <;> simp [Waiter.seat, hw]

theorem seats_update {closed : ConnId → Bool} {ws : List Waiter} (h : ∀ w ∈ ws, w.tx ≠ tx) :
    ws.map (Waiter.seat (update closed tx true)) = ws.map (Waiter.seat closed) :=
  List.map_congr_left fun w hw => by simp [Waiter.seat, h w hw]

theorem mailbox_update_of_ne (h : s.Numbered n) (hticket : s.tickets tx = some (name, id))
    (ha : a ≠ name) : s.state.mailbox (update s.closed tx true) a = s.mailbox a := by
  have hne : ∀ w ∈ s.state.registered a, w.tx ≠ tx := by
    rintro w hw rfl
    have := (h.held a w hw).symm.trans hticket
    exact ha (Prod.mk.inj (Option.some.inj this)).1
  simp only [mailbox, HubState.mailbox, seats_update hne]

/-! ## What two runs share -/

/-- The agent whose await has parked with a channel. -/
def holder (s : Switchboard ε) (tx : ConnId) : Option String :=
  (s.tickets tx).map Prod.fst

/-- `t` is what `s` comes to for the agent `a` alone. -/
structure Follows (a : String) (s t : Switchboard ε) : Prop where
  mailbox : t.mailbox a = s.mailbox a
  holder : ∀ tx, t.holder tx = (s.holder tx).filter fun name => name = a

theorem Follows.ticket (h : Follows a s t) (ha : name = a) (hticket : s.tickets tx = some (name, id)) :
    ∃ id', t.tickets tx = some (name, id') := by
  have hholder : t.holder tx = some name := by
    rw [h.holder, Switchboard.holder, hticket]
    simp [ha]
  obtain ⟨⟨n, id'⟩, htx, rfl⟩ := Option.map_eq_some_iff.1 hholder
  exact ⟨id', htx⟩

theorem Follows.init (a : String) : Follows a (Switchboard.empty ε) (Switchboard.empty ε) :=
  ⟨rfl, fun _ => rfl⟩

theorem parkings_cons (op : RoutingOp ε) (o : RoutingOutcome ε) (history : RoutingHistory ε) :
    parkings ((op, o) :: history) = (if o.parks then 1 else 0) + parkings history := by
  simp only [parkings, List.countP_cons]
  omega

/-! ## What an operation does -/

variable [Carries ε]

/-- The operations, one case for each way they can go. -/
inductive Steps (s : Switchboard ε) : RoutingOp ε → Switchboard ε → RoutingOutcome ε → Prop
  | route (x : ε) (p : QueuePlacement) :
      Steps s (.route x p) { s with state := (routeEnvelope s.closed s.state x p).1 }
        (.routed (routeEnvelope s.closed s.state x p).2)
  | take {name : String} {filter : AwaitFilter} {tx : ConnId} {x : ε} {state : HubState ε}
      (hnew : s.tickets tx = none) (htake : takeQueued s.state name filter = some (x, state)) :
      Steps s (.await name filter tx) { s with state } (.taken x)
  | park {name : String} {filter : AwaitFilter} {tx : ConnId} (hnew : s.tickets tx = none)
      (htake : takeQueued s.state name filter = none) :
      Steps s (.await name filter tx) (s.park name filter tx) .parked
  | remove {name : String} {tx : ConnId} {id : UInt64} {w : Waiter} {state : HubState ε}
      (hticket : s.tickets tx = some (name, id))
      (hremove : removeWaiter s.state name id = some (w, state)) :
      Steps s (.expire name tx) { s with state, closed := update s.closed tx true } (.expired true)
  | late {name : String} {tx : ConnId} {id : UInt64} (hticket : s.tickets tx = some (name, id))
      (hremove : removeWaiter s.state name id = none) : Steps s (.expire name tx) s (.expired false)
  | die {name : String} {tx : ConnId} {id : UInt64} (hticket : s.tickets tx = some (name, id)) :
      Steps s (.die name tx) { s with closed := update s.closed tx true } .died

theorem steps_of_step (h : s.step op = some (s', o)) : s.Steps op s' o := by
  cases op with
  | route x p =>
    cases h
    exact .route x p
  | await name filter tx =>
    simp only [step] at h
    split at h
    · cases h
    rename_i hnew
    split at h
    · rename_i x state htake
      cases h
      exact .take hnew htake
    · rename_i htake
      cases h
      exact .park hnew htake
  | expire name tx =>
    simp only [step] at h
    split at h
    · cases h
    rename_i id hticket
    split at h
    · rename_i w state hremove
      cases h
      exact .remove (ticket_eq_some.1 hticket) hremove
    · rename_i hremove
      cases h
      exact .late (ticket_eq_some.1 hticket) hremove
  | die name tx =>
    simp only [step] at h
    split at h
    · cases h
    rename_i id hticket
    cases h
    exact .die (ticket_eq_some.1 hticket)

theorem step_of_steps (h : s.Steps op s' o) : s.step op = some (s', o) := by
  cases h with
  | route x p => rfl
  | take hnew htake => simp only [step, hnew, htake]
  | park hnew htake => simp only [step, hnew, htake]
  | remove hticket hremove => simp only [step, ticket_eq_some.2 hticket, hremove]
  | late hticket hremove => simp only [step, ticket_eq_some.2 hticket, hremove]
  | die hticket => simp only [step, ticket_eq_some.2 hticket]

theorem Numbered.step (h : s.Numbered n) (hstep : s.step op = some (s', o))
    (hn : o.parks = true → n < 2 ^ 64) : s'.Numbered (n + if o.parks then 1 else 0) := by
  have hclosed : ∀ {tx : ConnId} {r}, s.tickets tx = some r →
      ∀ tx', update s.closed tx true tx' = true → s.tickets tx' ≠ none := by
    intro tx r hr tx' htx'
    by_cases heq : tx' = tx
    · simp [heq, hr]
    · rw [update_of_ne heq] at htx'
      exact h.parked tx' htx'
  cases steps_of_step hstep with
  | route x p =>
    exact h.remove (routeEnvelope_frame s.closed s.state x p).1 rfl
      (registered_sublist s.closed s.state x p) h.parked
  | take hnew htake =>
    obtain ⟨pre, post, -, -, -, -, hwaiters, hnext⟩ := takeQueued_eq_some htake
    refine h.remove hnext rfl (fun name => ?_) h.parked
    simp [HubState.registered, hwaiters]
  | park hnew htake => exact h.park (hn rfl) _ hnew
  | remove hticket hremove =>
    obtain ⟨pre, post, hw, -, -, hreg, -, hnext⟩ := removeWaiter_eq_some hremove
    refine h.remove hnext rfl (fun name => ?_) (hclosed hticket)
    rw [hreg]
    split_ifs with hname
    · rw [hname, hw]
      exact (List.sublist_cons_self _ _).append_left pre
    · exact List.Sublist.refl _
  | late hticket hremove => exact h
  | die hticket => exact h.remove rfl rfl (fun _ => List.Sublist.refl _) (hclosed hticket)

theorem tidy_of_step (h : s.state.Tidy) (hstep : s.step op = some (s', o)) : s'.state.Tidy := by
  cases steps_of_step hstep with
  | route x p => exact h.route s.closed x p
  | take hnew htake => exact h.take htake
  | park hnew htake => exact h.park _ _
  | remove hticket hremove => exact h.remove hremove
  | late hticket hremove => exact h
  | die hticket => exact h

/-- An operation does to the mailbox of its agent what `Mailbox.step` says. -/
theorem mailbox_of_step (h : s.Numbered n) (hstep : s.step op = some (s', o)) :
    (s.mailbox op.agent).step op = (s'.mailbox op.agent, o) := by
  cases steps_of_step hstep with
  | route x p =>
    have hroute := mailbox_route s.closed s.state x p
    simp only [RoutingOp.agent, mailbox, Mailbox.step, hroute]
  | @take name filter tx x state hnew htake =>
    obtain ⟨pre, post, hq, hmatches, hpre, hqueue, hwaiters, -⟩ := takeQueued_eq_some htake
    obtain ⟨hfind, herase⟩ := find?_eraseP_split (p := fun x => filter.matches (Carries.envelope x))
      post hmatches hpre
    simp only [RoutingOp.agent, mailbox, Mailbox.step, HubState.mailbox, hq, hfind, herase, hqueue,
      if_true]
    simp only [HubState.registered, hwaiters]
  | @park name filter tx hnew htake =>
    have hnone := takeQueued_eq_none htake
    have hfind : (s.state.queue name).find? (fun x => filter.matches (Carries.envelope x)) = none := by
      rw [List.find?_eq_none]
      simpa using hnone
    have hopen : s.closed tx = false := by
      by_contra hc
      exact h.parked tx (by simpa using hc) hnew
    simp only [RoutingOp.agent, mailbox, Mailbox.step, HubState.mailbox, hfind, park_state,
      park_closed, queue_park, registered_park, if_true, List.map_append]
    simp [Waiter.seat, hopen]
  | @remove name tx id w state hticket hremove =>
    obtain ⟨pre, post, hw, hid, hpre, hreg, hqueues, -⟩ := removeWaiter_eq_some hremove
    have htx : ∀ v ∈ s.state.registered name, v.id = id ↔ v.tx = tx := fun v hv =>
      h.id_eq_iff hticket hv
    have hsorted := h.sorted name
    rw [hw, List.pairwise_append, List.pairwise_cons] at hsorted
    have hpre' : ∀ v ∈ pre, v.tx ≠ tx := fun v hv =>
      (htx v (by simp [hw, hv])).not.1 (hpre v hv)
    have hpost' : ∀ v ∈ post, v.tx ≠ tx := fun v hv =>
      (htx v (by simp [hw, hv])).not.1 (hid ▸ UInt64.ne_of_lt (hsorted.2.1.1 v hv) ∘ Eq.symm)
    have hseat : ∀ v ∈ pre.map (Waiter.seat s.closed), decide (v.tx = tx) = false := by
      simpa [Waiter.seat] using hpre'
    obtain ⟨-, herase⟩ := find?_eraseP_split (p := fun v : Seat => v.tx = tx)
      (a := w.seat s.closed) (post.map (Waiter.seat s.closed))
      (decide_eq_true ((htx w (by simp [hw])).1 hid)) hseat
    have hany : (pre.map (Waiter.seat s.closed) ++ w.seat s.closed :: post.map (Waiter.seat s.closed)).any
        (fun v => v.tx = tx) = true := by
      simp [Waiter.seat, (htx w (by simp [hw])).1 hid]
    have hrest : ∀ v ∈ pre ++ post, v.tx ≠ tx := fun v hv =>
      (List.mem_append.1 hv).elim (hpre' v) (hpost' v)
    simp only [RoutingOp.agent, mailbox, Mailbox.step, HubState.mailbox, hw, List.map_append,
      List.map_cons, herase, hany, hreg, if_true]
    rw [← List.map_append, ← List.map_append, seats_update hrest]
    simp only [HubState.queue, hqueues]
  | @late name tx id hticket hremove =>
    have hnone : ∀ v ∈ (s.mailbox name).seats, ¬v.tx = tx := by
      intro v hv
      obtain ⟨w, hw, rfl⟩ := List.mem_map.1 hv
      exact fun htx => removeWaiter_eq_none hremove w hw ((h.id_eq_iff hticket hw).2 htx)
    have hany : ((s.mailbox name).seats.any fun v => v.tx = tx) = false := by simpa using hnone
    simp only [RoutingOp.agent, Mailbox.step, hany]
    rw [List.eraseP_of_forall_not (by simpa using hnone)]
  | @die name tx id hticket =>
    exact congrArg (·, RoutingOutcome.died) (mailbox_update s name tx).symm

/-- It leaves the mailboxes of the other agents alone. -/
theorem mailbox_of_other (h : s.Numbered n) (hstep : s.step op = some (s', o)) (ha : a ≠ op.agent) :
    s'.mailbox a = s.mailbox a := by
  cases steps_of_step hstep with
  | route x p =>
    obtain ⟨hqueues, hwaiters⟩ := (routeEnvelope_frame s.closed s.state x p).2 a ha
    exact mailbox_eq (by simp only [HubState.queue, hqueues]) (by simp only [HubState.registered, hwaiters])
  | take hnew htake =>
    obtain ⟨pre, post, -, -, -, hqueue, hwaiters, -⟩ := takeQueued_eq_some htake
    exact mailbox_eq ((hqueue a).trans (if_neg ha)) (by simp only [HubState.registered, hwaiters])
  | park hnew htake => exact mailbox_eq rfl ((registered_park _ _ _ _ a).trans (if_neg ha))
  | remove hticket hremove =>
    obtain ⟨pre, post, -, -, -, hreg, hqueues, -⟩ := removeWaiter_eq_some hremove
    rw [← mailbox_update_of_ne h hticket ha]
    exact mailbox_eq (by simp only [HubState.queue, hqueues]) ((hreg a).trans (if_neg ha))
  | late hticket hremove => rfl
  | die hticket => exact mailbox_update_of_ne h hticket ha

/-! ## Two runs -/

/-- An operation of the agent goes the same way in both runs. -/
theorem Follows.shown {m : ℕ} (h : Follows a s t) (hs : s.Numbered n) (ht : t.Numbered m)
    (hop : op.agent = a) (hstep : s.step op = some (s', o)) :
    ∃ t', t.step op = some (t', o) ∧ Follows a s' t' := by
  -- the operation is enabled in `t`, and leaves the channels with their agents
  have henabled : ∃ t' o', t.Steps op t' o' ∧
      (o'.parks = o.parks → ∀ tx, t'.holder tx = (s'.holder tx).filter fun name => name = a) := by
    cases steps_of_step hstep with
    | route x p => exact ⟨_, _, .route x p, fun _ => h.holder⟩
    | @take name filter tx x state hnew htake =>
      have hnew' : t.tickets tx = none := by simpa [Switchboard.holder, hnew] using h.holder tx
      cases htake' : takeQueued t.state name filter with
      | some r => exact ⟨_, _, .take hnew' htake', fun _ => h.holder⟩
      | none => exact ⟨_, _, .park hnew' htake', fun hparks => by cases hparks⟩
    | @park name filter tx hnew htake =>
      have hnew' : t.tickets tx = none := by simpa [Switchboard.holder, hnew] using h.holder tx
      cases htake' : takeQueued t.state name filter with
      | some r => exact ⟨_, _, .take hnew' htake', fun hparks => by cases hparks⟩
      | none =>
        refine ⟨_, _, .park hnew' htake', fun _ tx' => ?_⟩
        obtain rfl : name = a := hop
        by_cases heq : tx' = tx
        · simp [Switchboard.holder, heq, Option.filter]
        · simpa [Switchboard.holder, heq] using h.holder tx'
    | remove hticket | late hticket =>
      obtain ⟨id', hticket'⟩ := h.ticket hop hticket
      cases hremove' : removeWaiter t.state _ id' with
      | some r => exact ⟨_, _, .remove hticket' hremove', fun _ => h.holder⟩
      | none => exact ⟨_, _, .late hticket' hremove', fun _ => h.holder⟩
    | die hticket =>
      obtain ⟨id', hticket'⟩ := h.ticket hop hticket
      exact ⟨_, _, .die hticket', fun _ => h.holder⟩
  obtain ⟨t', o', hsteps, hholder⟩ := henabled
  have hstep' := step_of_steps hsteps
  -- both do to the mailbox what `Mailbox.step` says
  have hsame := (mailbox_of_step ht hstep').symm.trans
    ((congrArg (fun m : Mailbox ε => m.step op) (hop ▸ h.mailbox)).trans (mailbox_of_step hs hstep))
  obtain ⟨hmailbox, rfl⟩ := Prod.mk.inj hsame
  exact ⟨t', hstep', hop ▸ hmailbox, hholder rfl⟩

/-- An operation of another agent is not seen. -/
theorem Follows.hidden (h : Follows a s t) (hs : s.Numbered n) (hop : op.agent ≠ a)
    (hstep : s.step op = some (s', o)) : Follows a s' t := by
  refine ⟨h.mailbox.trans (mailbox_of_other hs hstep hop.symm).symm, fun tx' => ?_⟩
  cases steps_of_step hstep with
  | @park name filter tx hnew htake =>
    rw [h.holder]
    by_cases heq : tx' = tx
    · have hne : ¬name = a := hop
      simp [Switchboard.holder, heq, hnew, hne, Option.filter]
    · simp [Switchboard.holder, heq]
  | route | take | remove | late | die => exact h.holder tx'

theorem run_cons {ops : List (RoutingOp ε)} {history : RoutingHistory ε}
    (h : s.run (op :: ops) = some (s', history)) : ∃ s₁ o history', s.step op = some (s₁, o) ∧
      s₁.run ops = some (s', history') ∧ history = (op, o) :: history' := by
  simp only [run] at h
  obtain ⟨⟨s₁, o⟩, hstep, h⟩ := Option.bind_eq_some_iff.1 h
  obtain ⟨⟨s₂, history'⟩, hrun, h⟩ := Option.map_eq_some_iff.1 h
  obtain ⟨rfl, rfl⟩ := Prod.mk.inj h
  exact ⟨s₁, o, history', hstep, hrun, rfl⟩

theorem run_nil (s : Switchboard ε) : s.run [] = some (s, []) :=
  rfl

theorem run_of_step {s₁ : Switchboard ε} {ops : List (RoutingOp ε)} {history : RoutingHistory ε}
    (hstep : s.step op = some (s₁, o)) (hrun : s₁.run ops = some (s', history)) :
    s.run (op :: ops) = some (s', (op, o) :: history) := by
  simp only [run, hstep, Option.bind_some, hrun, Option.map_some]

theorem parkings_le {ops : List (RoutingOp ε)} {history : RoutingHistory ε}
    (h : s.run ops = some (s', history)) : parkings history ≤ ops.length := by
  induction ops generalizing s history with
  | nil =>
    cases h
    exact le_rfl
  | cons op ops ih =>
    obtain ⟨s₁, o, history₁, -, hrun, rfl⟩ := run_cons h
    have hle := ih hrun
    rw [parkings_cons, List.length_cons]
    split_ifs <;> omega

/-- A run of operations of one agent does to its mailbox what `Mailbox.run` says. -/
theorem mailbox_of_run {ops : List (RoutingOp ε)} {history : RoutingHistory ε} (h : s.Numbered n)
    (hrun : s.run ops = some (s', history)) (hops : ∀ op ∈ ops, op.agent = a)
    (hparks : n + parkings history ≤ 2 ^ 64) : (s.mailbox a).run ops = (s'.mailbox a, history) := by
  induction ops generalizing s n history with
  | nil =>
    cases hrun
    rfl
  | cons op ops ih =>
    obtain ⟨s₁, o, history₁, hstep, hrun₁, rfl⟩ := run_cons hrun
    obtain ⟨rfl, hops⟩ := List.forall_mem_cons.1 hops
    rw [parkings_cons] at hparks
    have hs₁ := h.step hstep fun hp => by
      simp only [hp, if_true] at hparks
      omega
    simp only [Mailbox.run, mailbox_of_step h hstep, ih hs₁ hrun₁ hops (by omega)]

/-- What holds of a run and of the part of it that concerns one agent. -/
structure Paired (a : String) (s t : Switchboard ε) (n m : ℕ) : Prop where
  follows : Follows a s t
  left : s.Numbered n
  right : t.Numbered m
  le : m ≤ n
  tidy : s.state.Tidy ∧ t.state.Tidy

theorem Paired.run {m : ℕ} {ops : List (RoutingOp ε)} {history : RoutingHistory ε}
    (h : Paired a s t n m) (hrun : s.run ops = some (s', history))
    (hparks : n + parkings history ≤ 2 ^ 64) :
    ∃ t' n' m', t.run (ops.filter fun op => op.agent = a) =
        some (t', history.filter fun r => r.1.agent = a) ∧ Paired a s' t' n' m' := by
  induction ops generalizing s t n m history with
  | nil =>
    cases hrun
    exact ⟨t, n, m, rfl, h⟩
  | cons op ops ih =>
    obtain ⟨s₁, o, history₁, hstep, hrun₁, rfl⟩ := run_cons hrun
    rw [parkings_cons] at hparks
    have hn : o.parks = true → n < 2 ^ 64 := fun hp => by
      simp only [hp, if_true] at hparks
      omega
    have hs₁ := h.left.step hstep hn
    by_cases hop : op.agent = a
    · obtain ⟨t₁, hstep', hfollows⟩ := h.follows.shown h.left h.right hop hstep
      have ht₁ := h.right.step hstep' fun hp => h.le.trans_lt (hn hp)
      obtain ⟨t', n', m', hrun', hpaired⟩ := ih
        ⟨hfollows, hs₁, ht₁, Nat.add_le_add_right h.le _, tidy_of_step h.tidy.1 hstep,
          tidy_of_step h.tidy.2 hstep'⟩ hrun₁ (by omega)
      refine ⟨t', n', m', ?_, hpaired⟩
      simpa [hop] using run_of_step hstep' hrun'
    · have hle := h.le
      obtain ⟨t', n', m', hrun', hpaired⟩ := ih
        ⟨h.follows.hidden h.left hop hstep, hs₁, h.right, by omega, tidy_of_step h.tidy.1 hstep,
          h.tidy.2⟩ hrun₁ (by omega)
      refine ⟨t', n', m', ?_, hpaired⟩
      simpa [hop] using hrun'

instance : Std.Asymm fun a b : UInt64 => a < b :=
  ⟨fun a _ h h' => UInt64.lt_irrefl a (UInt64.lt_trans h h')⟩

/-- In a run in which at most `2 ^ 64` awaits park, an agent is not affected by the others :
its own operations, run alone, have the same outcomes, and leave the same queue and the same
waiters, but for a renaming of the waiter ids that keeps their order. -/
theorem agents_do_not_interfere {ops : List (RoutingOp ε)} {history : RoutingHistory ε}
    (h : (Switchboard.empty ε).run ops = some (s, history)) (hparks : parkings history ≤ 2 ^ 64)
    (a : String) : ∃ t, (Switchboard.empty ε).run (ops.filter fun op => op.agent = a) =
        some (t, history.filter fun r => r.1.agent = a) ∧
      t.state.queues a = s.state.queues a ∧ ∃ ρ : UInt64 → UInt64,
        KeepsOrder (· < ·) (· < ·) ((s.state.registered a).map Waiter.id) ρ ∧
        t.state.waiters a = (s.state.waiters a).map fun ws => ws.map fun w => { w with id := ρ w.id } := by
  obtain ⟨t, n, m, hrun, hpaired⟩ := Paired.run (a := a)
    ⟨Follows.init a, Numbered.empty, Numbered.empty, le_refl 0, .empty, .empty⟩ h (by omega)
  have hmailbox := hpaired.follows.mailbox
  simp only [mailbox, HubState.mailbox, Mailbox.mk.injEq] at hmailbox
  obtain ⟨hqueue, hseats⟩ := hmailbox
  obtain ⟨ρ, hkeeps, hmap⟩ := exists_renaming_of_map_eq (hpaired.left.sorted a)
    (hpaired.right.sorted a) hseats.symm
  refine ⟨t, hrun, ?_, ρ, hkeeps, ?_⟩
  · rw [hpaired.tidy.1.queues, hpaired.tidy.2.queues, hqueue]
  · have hreg := congrArg (List.map fun p : UInt64 × Seat => (⟨p.1, p.2.filter, p.2.tx⟩ : Waiter)) hmap
    rw [List.map_map, List.map_map] at hreg
    have hid : t.state.registered a = (s.state.registered a).map fun w => { w with id := ρ w.id } := by
      simpa [Function.comp_def, Waiter.seat] using hreg
    rw [hpaired.tidy.1.waiters, hpaired.tidy.2.waiters, hid]
    unfold nonEmpty
    split_ifs <;> simp_all

/-- With an await of `bob` in between, the one of `alice` is handed the envelope. -/
theorem agents_do_not_interfere_two : ∃ s history, (empty Envelope).run
      [.await "alice" ⟨none, none⟩ 0, .await "bob" ⟨none, none⟩ 1, .await "alice" ⟨none, none⟩ 2,
        .route (sampleEnvelope "m1" "task") .back] = some (s, history) ∧
    parkings history ≤ 2 ^ 64 ∧ ∃ t, (empty Envelope).run
      [.await "alice" ⟨none, none⟩ 0, .await "alice" ⟨none, none⟩ 2,
        .route (sampleEnvelope "m1" "task") .back] =
        some (t, history.filter fun r => r.1.agent = "alice") := by
  have hrun := Option.isSome_iff_exists.1 (by decide +kernel : ((empty Envelope).run
      [.await "alice" ⟨none, none⟩ 0, .await "bob" ⟨none, none⟩ 1, .await "alice" ⟨none, none⟩ 2,
        .route (sampleEnvelope "m1" "task") .back]).isSome = true)
  obtain ⟨⟨s, history⟩, hrun⟩ := hrun
  have hparks : parkings history ≤ 2 ^ 64 := by
    have := congrArg (Option.map fun r => decide (parkings r.2 ≤ 2 ^ 64)) hrun
    simpa using this.symm.trans (by decide +kernel : _ = some true)
  obtain ⟨t, ht, -⟩ := agents_do_not_interfere hrun hparks "alice"
  exact ⟨s, history, hrun, hparks, t, ht⟩

/-! ## When the counter wraps -/

theorem run_append {ops ops' : List (RoutingOp ε)} {history history' : RoutingHistory ε}
    (h : s.run ops = some (s', history)) (h' : s'.run ops' = some (t, history')) :
    s.run (ops ++ ops') = some (t, history ++ history') := by
  induction ops generalizing s history with
  | nil =>
    cases h
    exact h'
  | cons op ops ih =>
    obtain ⟨s₁, o, history₁, hstep, hrun, rfl⟩ := run_cons h
    exact run_of_step hstep (ih hrun)

/-- Awaits of an agent, with the channels from `tx` on. -/
def awaits (name : String) (filter : AwaitFilter) (tx : ConnId) : ℕ → List (RoutingOp ε)
  | 0 => []
  | k + 1 => .await name filter tx :: awaits name filter (tx + 1) k

theorem awaits_agent (filter : AwaitFilter) (k : ℕ) :
    ∀ op ∈ awaits (ε := ε) name filter tx k, op.agent = name := by
  induction k generalizing tx with
  | zero => simp [awaits]
  | succ k ih => simpa [awaits, RoutingOp.agent] using ih

/-- Awaits that find the queue empty all park. -/
theorem run_awaits (name : String) (filter : AwaitFilter) (tx k : ℕ) (hqueue : s.state.queues name = none)
    (hnew : ∀ m : ℕ, tx ≤ m → s.tickets m = none) :
    ∃ s' history, s.run (awaits name filter tx k) = some (s', history) ∧
      s'.state.queues = s.state.queues ∧
      s'.state.nextWaiterId = s.state.nextWaiterId + UInt64.ofNat k ∧
      (∀ a ≠ name, s'.state.waiters a = s.state.waiters a) ∧
      (∀ m : ℕ, m < tx → s'.tickets m = s.tickets m) ∧ ∀ m : ℕ, tx + k ≤ m → s'.tickets m = none := by
  induction k generalizing s tx with
  | zero =>
    exact ⟨s, [], rfl, rfl, (UInt64.add_zero _).symm, fun _ _ => rfl, fun _ _ => rfl, hnew⟩
  | succ k ih =>
    have htake : takeQueued s.state name filter = none := by simp [takeQueued, hqueue]
    have hstep := step_of_steps (.park (hnew tx le_rfl) htake)
    obtain ⟨s', history, hrun, hqueues, hnext, hwaiters, hold, hfresh⟩ := ih (s := s.park name filter tx) (tx + 1)
      hqueue fun m hm => by
        have hne : m ≠ tx := by omega
        exact (update_of_ne hne _ _).trans (hnew m (by omega))
    refine ⟨s', _, run_of_step hstep hrun, hqueues, ?_, fun a ha => ?_, fun m hm => ?_, fun m hm => hfresh m (by omega)⟩
    · rw [hnext, Nat.add_comm k 1, UInt64.ofNat_add, ← UInt64.add_assoc]
      rfl
    · rw [hwaiters a ha]
      exact update_of_ne ha _ _
    · have hne : m ≠ tx := by omega
      rw [hold m (by omega)]
      exact update_of_ne hne _ _

/-- After `2 ^ 64 - 1` awaits of `bob` the second await of `alice` draws the id of her first
one. Its timer fires, and removes the first one. -/
theorem exists_interference : ∃ (ops : List (RoutingOp Envelope)) (s : Switchboard Envelope)
    (history : RoutingHistory Envelope), (empty Envelope).run ops = some (s, history) ∧
      ¬∃ t, (empty Envelope).run (ops.filter fun op => op.agent = "alice") =
          some (t, history.filter fun r => r.1.agent = "alice") ∧
        t.state.queues "alice" = s.state.queues "alice" ∧ ∃ ρ : UInt64 → UInt64,
          KeepsOrder (· < ·) (· < ·) ((s.state.registered "alice").map Waiter.id) ρ ∧
          t.state.waiters "alice" =
            (s.state.waiters "alice").map fun ws => ws.map fun w => { w with id := ρ w.id } := by
  obtain ⟨k, hk⟩ : ∃ k, UInt64.ofNat (k + 1) = 0 := ⟨2 ^ 64 - 1, by decide⟩
  let any : AwaitFilter := ⟨none, none⟩
  let s₁ := (empty Envelope).park "alice" any 0
  have hqueue : s₁.state.queues "bob" = none := rfl
  have hnew : ∀ m : ℕ, 1 ≤ m → s₁.tickets m = none := fun m hm => by
    have hne : m ≠ 0 := by omega
    exact update_of_ne hne _ _
  obtain ⟨s₂, history, hrun, hqueues, hnext, hwaiters, hold, hfresh⟩ :=
    run_awaits "bob" any 1 k hqueue hnew
  have hid : s₂.state.nextWaiterId = 0 := by
    rw [hnext, ← hk, Nat.add_comm k 1, UInt64.ofNat_add]
    rfl
  have halice : s₂.state.waiters "alice" = some [⟨0, any, 0⟩] := by
    rw [hwaiters "alice" (by decide)]
    rfl
  -- the second await of `alice`, with the id of the first
  have htake : takeQueued s₂.state "alice" any = none := by
    have hnone : s₂.state.queues "alice" = none := by
      rw [hqueues]
      rfl
    simp [takeQueued, hnone]
  have hstep₂ := step_of_steps (.park (hfresh (k + 1) (by omega)) htake)
  obtain ⟨s₃, hs₃⟩ : ∃ s₃, s₃ = s₂.park "alice" any (k + 1) := ⟨_, rfl⟩
  rw [← hs₃] at hstep₂
  have hregistered : s₃.state.registered "alice" = [⟨0, any, 0⟩, ⟨0, any, k + 1⟩] := by
    rw [hs₃, park_state, registered_park, if_pos rfl, hid, HubState.registered, halice]
    rfl
  have hticket : s₃.tickets (k + 1) = some ("alice", 0) := by
    rw [hs₃, park_tickets, update_self, hid]
  obtain ⟨⟨w, state⟩, hremove⟩ : ∃ r, removeWaiter s₃.state "alice" 0 = some r := by
    by_contra hne
    have hnone := Option.eq_none_iff_forall_ne_some.2 fun r hr => hne ⟨r, hr⟩
    exact removeWaiter_eq_none hnone ⟨0, any, 0⟩ (by simp [hregistered]) rfl
  have hleft : state.registered "alice" = [⟨0, any, k + 1⟩] := by
    obtain ⟨pre, post, hsplit, -, hpre, hreg, -⟩ := removeWaiter_eq_some hremove
    rw [hregistered] at hsplit
    rw [hreg, if_pos rfl]
    cases pre with
    | nil => exact (List.cons.inj hsplit).2.symm
    | cons v pre =>
      obtain rfl := (List.cons.inj hsplit).1
      exact absurd rfl (hpre _ List.mem_cons_self)
  have hstep₃ := step_of_steps (.remove hticket hremove)
  have hstep₁ : (empty Envelope).step (.await "alice" any 0) = some (s₁, _) := rfl
  have hrun₃ := run_of_step hstep₁ (run_append hrun (run_of_step hstep₂ (run_of_step hstep₃ (run_nil _))))
  refine ⟨_, _, _, hrun₃, ?_⟩
  -- alone, the timer removes the second one
  have hown : ((RoutingOp.await "alice" any 0 :: (awaits "bob" any 1 k ++
      [.await "alice" any (k + 1), .expire "alice" (k + 1)])).filter fun op => op.agent = "alice") =
      ([.await "alice" any 0, .await "alice" any (k + 1), .expire "alice" (k + 1)] :
        List (RoutingOp Envelope)) := by
    have hbob : (awaits (ε := Envelope) "bob" any 1 k).filter (fun op => op.agent = "alice") = [] := by
      refine List.filter_eq_nil_iff.2 fun op hop => ?_
      rw [awaits_agent any k op hop]
      decide
    rw [List.filter_cons_of_pos (by simp [RoutingOp.agent]), List.filter_append, hbob]
    rfl
  rintro ⟨t, ht, -, ρ, -, hρ⟩
  rw [hown] at ht
  have halone := mailbox_of_run Numbered.empty ht (a := "alice") (by simp [RoutingOp.agent])
    (by
      have := parkings_le ht
      simp only [List.length_cons, List.length_nil] at this
      omega)
  have hseats : (t.mailbox "alice").seats = [⟨any, 0, false⟩] := by
    rw [← congrArg (fun r => r.1.seats) halone]
    have hempty : (empty Envelope).mailbox "alice" = Mailbox.empty Envelope := rfl
    simp [hempty, Mailbox.empty, Mailbox.run, Mailbox.step]
  have hgone : t.state.registered "alice" =
      (state.registered "alice").map fun w => { w with id := ρ w.id } := by
    simp only [HubState.registered] at hleft ⊢
    rw [hρ]
    cases hws : state.waiters "alice" with
    | none => simp [hws] at hleft
    | some ws => rfl
  have htx := congrArg (List.map Seat.tx) hseats
  simp [mailbox, HubState.mailbox, Waiter.seat, hgone, hleft] at htx

end Switchboard

end AgentHub
