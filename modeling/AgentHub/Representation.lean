import AgentHub.Bounces
import AgentHub.Lib.PrunedMap

/-!
# The representation of the routing state

What the two maps of `HubState` look like in every reached state (`Represents`). The
operations drop an entry with its last item, so the maps have none that is empty. A parked waiter draws the
next id and goes to the end of its list, so while the ids do not wrap they increase along
every list and tell all waiters apart. A task parks only with a filter that has passed the
checks of `handle_await`, and commits only envelopes that pass `validate`, its own bounces
included.
-/

namespace AgentHub

open Function

section State

variable {ε : Type} {closed : ConnId → Bool} {state state' : HubState ε}

/-! ## Maps without empty entries -/

theorem nonEmpty_ne {α : Type} (l : List α) : nonEmpty l ≠ some [] := by
  unfold nonEmpty
  split_ifs with h
  · exact (Option.some_ne_none []).symm
  · exact fun hl => h (by rw [Option.some.inj hl]; rfl)

/-- No key of the two maps has an empty collection. -/
structure HubState.Compact (state : HubState ε) : Prop where
  queues : Pruned state.queues
  waiters : Pruned state.waiters

theorem HubState.Compact.removeAt (h : state.Compact) (name : String) (ws : List Waiter) (i : ℕ) :
    (state.removeAt name ws i).Compact :=
  ⟨h.queues, h.waiters.update _ (nonEmpty_ne _)⟩

theorem HubState.Compact.park (h : state.Compact) (name : String) (filter : AwaitFilter)
    (tx : ConnId) : (state.park name filter tx).Compact :=
  ⟨h.queues, h.waiters.update _ (by simp)⟩

theorem HubState.Compact.remove (h : state.Compact) {name : String} {id : UInt64} {w : Waiter}
    (hremove : removeWaiter state name id = some (w, state')) : state'.Compact := by
  unfold removeWaiter at hremove
  split at hremove
  · cases hremove
  split at hremove
  · cases hremove
  · obtain ⟨-, rfl⟩ := Prod.mk.inj (Option.some.inj hremove)
    exact h.removeAt _ _ _

section

variable [Carries ε]

theorem HubState.Compact.enqueue (h : state.Compact) (x : ε) (p : QueuePlacement) :
    (state.enqueue x p).1.Compact :=
  ⟨h.queues.update _ (by cases p <;> simp), h.waiters⟩

theorem HubState.Compact.route (h : state.Compact) (x : ε) (p : QueuePlacement) :
    (routeEnvelope closed state x p).1.Compact := by
  fun_induction routeEnvelope closed state x p with
  | case1 state hws => exact h.enqueue x p
  | case2 state ws hws hbest => exact h.enqueue x p
  | case3 state ws hws i hbest hclosed ih => exact ih (h.removeAt _ _ _)
  | case4 state ws hws i hbest hclosed => exact h.removeAt _ _ _

theorem HubState.Compact.take (h : state.Compact) {name : String} {filter : AwaitFilter} {x : ε}
    (htake : takeQueued state name filter = some (x, state')) : state'.Compact := by
  unfold takeQueued at htake
  split at htake
  · cases htake
  split at htake
  · cases htake
  · obtain ⟨-, rfl⟩ := Prod.mk.inj (Option.some.inj htake)
    exact ⟨h.queues.update _ (nonEmpty_ne _), h.waiters⟩

theorem HubState.Compact.op (h : state.Compact) (hop : HubState.Op closed state state') :
    state'.Compact := by
  cases hop with
  | none => exact h
  | route x p => exact h.route x p
  | take htake => exact h.take htake
  | park => exact h.park _ _ _
  | remove hremove => exact h.remove hremove

end

/-! ## Waiter ids -/

/-- The ids increase along every list, lie below the next one, and tell waiters of different
agents apart. -/
structure HubState.Ordered (state : HubState ε) : Prop where
  increasing : ∀ n, (state.registered n).Pairwise fun v w => v.id < w.id
  below : ∀ n, ∀ w ∈ state.registered n, w.id < state.nextWaiterId
  apart : ∀ n m, n ≠ m → ∀ v ∈ state.registered n, ∀ w ∈ state.registered m, v.id ≠ w.id

theorem HubState.Ordered.mono (h : state.Ordered)
    (hsub : ∀ n, (state'.registered n).Sublist (state.registered n))
    (hnext : state'.nextWaiterId = state.nextWaiterId) : state'.Ordered where
  increasing n := (h.increasing n).sublist (hsub n)
  below n w hw := hnext ▸ h.below n w ((hsub n).subset hw)
  apart n m hne v hv w hw := h.apart n m hne v ((hsub n).subset hv) w ((hsub m).subset hw)

/-- A parked waiter has the greatest id, as long as the next one does not wrap. -/
theorem HubState.Ordered.park (h : state.Ordered) (name : String) (filter : AwaitFilter)
    (tx : ConnId) (hwrap : state.nextWaiterId < state.nextWaiterId + 1) :
    (state.park name filter tx).Ordered := by
  have hmem : ∀ n, ∀ w ∈ (state.park name filter tx).registered n,
      w ∈ state.registered n ∨ n = name ∧ w.id = state.nextWaiterId := by
    intro n w hw
    rw [registered_park] at hw
    split_ifs at hw with hn
    · rw [List.mem_append, List.mem_singleton] at hw
      exact hw.imp_right fun hw => ⟨hn, congrArg Waiter.id hw⟩
    · exact Or.inl hw
  refine ⟨fun n => ?_, fun n w hw => ?_, fun n m hne v hv w hw => ?_⟩
  · rw [registered_park]
    split_ifs with hn
    · refine List.pairwise_append.2 ⟨h.increasing n, List.pairwise_singleton _ _, fun v hv w hw => ?_⟩
      rw [List.mem_singleton.1 hw]
      exact h.below n v hv
    · exact h.increasing n
  · rcases hmem n w hw with hold | ⟨-, hid⟩
    · exact UInt64.lt_trans (h.below n w hold) hwrap
    · rw [hid]
      exact hwrap
  · rcases hmem n v hv with hold | ⟨hn, hid⟩ <;> rcases hmem m w hw with hold' | ⟨hm, hid'⟩
    · exact h.apart n m hne v hold w hold'
    · rw [hid']
      exact UInt64.ne_of_lt (h.below n v hold)
    · rw [hid]
      exact (UInt64.ne_of_lt (h.below m w hold')).symm
    · exact absurd (hn.trans hm.symm) hne

variable [Carries ε]

theorem HubState.Ordered.op (h : state.Ordered) (hop : HubState.Op closed state state')
    (hwrap : state'.nextWaiterId ≠ state.nextWaiterId →
      state.nextWaiterId < state.nextWaiterId + 1) : state'.Ordered := by
  cases hop with
  | none => exact h
  | route x p => exact h.mono (registered_sublist closed state x p) (routeEnvelope_frame _ _ _ _).1
  | take htake =>
    obtain ⟨pre, post, -, -, -, -, hwaiters, hnext⟩ := takeQueued_eq_some htake
    exact h.mono (fun n => by simp [HubState.registered, hwaiters]) hnext
  | park => exact h.park _ _ _ (hwrap (by simp [HubState.park]))
  | remove hremove =>
    obtain ⟨pre, post, hw, -, -, hreg, -, hnext⟩ := removeWaiter_eq_some hremove
    refine h.mono (fun n => ?_) hnext
    rw [hreg]
    split_ifs with hn
    · rw [hn, hw]
      exact (List.Sublist.refl pre).append (List.sublist_cons_self _ post)
    · exact List.Sublist.refl _

end State

/-! ## Filters -/

/-- No predicate of the filter is an empty string. -/
def AwaitFilter.Clean (filter : AwaitFilter) : Prop :=
  filter.replyTo ≠ some "" ∧ filter.kind ≠ some ""

section Task

variable {L : Libs} {roster : Roster} {now : DateTime} {c : ConnId} {k k' : Conn} {obs : List Obs}

theorem clean_of_localStep (h : k.LocalStep L roster now c k' obs) {name : String}
    {filter : AwaitFilter} {timeoutSecs : Option UInt64}
    (hpc : k'.pc = .awaiting name filter timeoutSecs) :
    k.pc = .awaiting name filter timeoutSecs ∨ filter.Clean := by
  cases h with
  | verbAwait _ _ hreplyTo hkind =>
    cases hpc
    exact Or.inr ⟨hreplyTo, hkind⟩
  | helloRefused _ _ hrefuse | verbRefused _ _ hrefuse => cases hrefuse <;> cases hpc
  | peerClosed => exact Or.inl hpc
  | _ => cases hpc

theorem not_awaiting_of_sharedStep {i : Input} (h : k.SharedStep now c i k' obs) {name : String}
    {filter : AwaitFilter} {timeoutSecs : Option UInt64} :
    k'.pc ≠ .awaiting name filter timeoutSecs := by
  cases h with
  | unlocked hpc =>
    rintro rfl
    unfold Conn.afterUnlock at hpc
    split at hpc
    · rename_i next _
      cases next <;> cases hpc
    all_goals cases hpc
  | _ => simp

/-! ## Bounces -/

theorem bouncing_of_localStep (h : k.LocalStep L roster now c k' obs) {phase : CommitPhase}
    {x : Stamped} {name : String} {e : Envelope} (hpc : k'.pc = .committing phase (.bounce x name) e) :
    k.pc = .committing phase (.bounce x name) e ∨ k.pc = .bouncing name x := by
  cases h with
  | bounced hbouncing =>
    cases hpc
    exact Or.inr hbouncing
  | helloRefused _ _ hrefuse | verbRefused _ _ hrefuse => cases hrefuse <;> cases hpc
  | peerClosed => exact Or.inl hpc
  | _ => cases hpc

theorem committing_of_sharedStep {i : Input} (h : k.SharedStep now c i k' obs) {phase : CommitPhase}
    {role : Role} {e : Envelope} (hpc : k'.pc = .committing phase role e) :
    ∃ phase', k.pc = .committing phase' role e := by
  cases h with
  | unlocked hunlock =>
    subst hpc
    unfold Conn.afterUnlock at hunlock
    split at hunlock
    · rename_i next _
      cases next <;> cases hunlock
    all_goals cases hunlock
  | lockedCommit hcommit | accepted hcommit | refused hcommit | routed hcommit =>
    cases hpc
    exact ⟨_, hcommit⟩
  | _ => cases hpc

/-- The id of a bounce is the one the task drew. -/
theorem uuid_of_step {i : Input} (h : k.step L roster now c i = some (k', obs)) {phase : CommitPhase}
    {role : Role} {x : Stamped} {name : String} {e : Envelope} (hpc : k.pc = .bouncing name x)
    (hpc' : k'.pc = .committing phase role e) : i = .bounced e.id := by
  cases i with
  | bounced uuid =>
    simp only [Conn.step, hpc, Option.some.injEq, Prod.mk.injEq] at h
    obtain ⟨rfl, -⟩ := h
    cases hpc'
    rfl
  | peerClosed =>
    simp only [Conn.step, Option.some.injEq, Prod.mk.injEq] at h
    obtain ⟨rfl, -⟩ := h
    rw [hpc] at hpc'
    cases hpc'
  | _ => simp [Conn.step, Conn.readRound, Conn.afterUnlock, hpc] at h

end Task

/-- `validate` does not look at the sender. -/
theorem Envelope.validate_stamp (parseTs : String → Except String DateTime) (e : Envelope)
    (name : String) : Envelope.validate parseTs { e with «from» := name } = e.validate parseTs :=
  rfl

/-- The `uuid` crate gives a bounce an id that is not empty. -/
def Action.drawsId : Action → Bool
  | .task _ (.bounced uuid) => uuid ≠ ""
  | _ => true

/-- The assumption on the clock : what it prints parses. -/
def Libs.ClockParses (L : Libs) : Prop :=
  ∀ now, ∃ t, L.parseFromRfc3339 (L.toRfc3339Secs now) = .ok t

namespace Hub

variable {L : Libs} {roster : Roster} {audit : AuditLog} {s s' : Hub}

theorem compact_of_reach (h : Reach L roster audit s) : s.state.Compact :=
  Machine.Reach.invariant (P := fun s => s.state.Compact) h ⟨.empty, .empty⟩
    fun _ _ _ h hs => h.op (op_of_step (step_cases hs))

/-- While fewer than `2 ^ 64` awaits have parked, the ids are in order. -/
theorem ordered_of_reach (h : Reach L roster audit s) (hparks : parks s.trace < 2 ^ 64) :
    s.state.Ordered := by
  refine Machine.ReachVia.invariant (P := fun s => parks s.trace < 2 ^ 64 → s.state.Ordered) h
    (fun _ => ⟨fun n => .nil, fun n w hw => by simp [Hub.init] at hw,
      fun n m _ v hv => by simp [Hub.init] at hv⟩) (fun s a s' hr hP _ hs hb => ?_) hparks
  have hstep := step_cases hs
  have hids := ids_of_reach hr
  have hids' := hids.step hstep
  obtain ⟨t, ht⟩ := trace_prefix_of_step hstep
  have hparks : parks s'.trace = parks s.trace + parks t := by rw [← ht, parks_append]
  refine (hP (by omega)).op (op_of_step hstep) fun hne => ?_
  -- a step that draws an id leaves room for the next one
  have hpos : parks t ≠ 0 := fun h0 => hne (by rw [hids.next, hids'.next, hparks, h0, Nat.add_zero])
  have hlt : parks s.trace < 2 ^ 64 := by omega
  have hlt' : parks s.trace + 1 < 2 ^ 64 := by omega
  rw [hids.next, UInt64.lt_iff_toNat_lt, UInt64.toNat_add, UInt64.toNat_ofNat',
    Nat.mod_eq_of_lt hlt]
  simp only [UInt64.toNat_one]
  omega

/-- Registered filters, and those of awaits on their way there, have passed their checks. -/
structure Clean (s : Hub) : Prop where
  registered : ∀ n, ∀ w ∈ s.state.registered n, w.filter.Clean
  awaiting : ∀ c name filter timeoutSecs, s.pc c = some (.awaiting name filter timeoutSecs) →
    filter.Clean

theorem Clean.step {a : DateTime × Action} (h : Clean s) (hstep : Step L roster s a s') : Clean s' := by
  refine ⟨fun n w hw => ?_, fun c name filter timeoutSecs hpc => ?_⟩
  · cases hstep with
    | accept | task | lockAudit | append | unlockAudit | loseRace => exact h.registered n w hw
    | route | requeue =>
      rw [routing_state] at hw
      exact h.registered n w ((registered_sublist _ _ _ _ n).subset hw)
    | take hk hpc htake =>
      obtain ⟨pre, post, -, -, -, -, hwaiters, -⟩ := takeQueued_eq_some htake
      simp only [HubState.registered, hwaiters] at hw
      exact h.registered n w hw
    | @park now c k name filter timeoutSecs hk hpc htake =>
      rw [registered_park] at hw
      split_ifs at hw
      · rcases List.mem_append.1 hw with hw | hw
        · exact h.registered n w hw
        · rw [List.mem_singleton.1 hw]
          exact h.awaiting c name filter timeoutSecs (pc_eq_some.2 ⟨k, hk, hpc⟩)
      · exact h.registered n w hw
    | deregister hk hpc hremove =>
      rw [onChan_state] at hw
      obtain ⟨pre, post, hsplit, -, -, hreg, -⟩ := removeWaiter_eq_some hremove
      rw [hreg] at hw
      split_ifs at hw with hn
      · refine h.registered n w (hn ▸ hsplit ▸ ?_)
        exact ((List.Sublist.refl pre).append (List.sublist_cons_self _ post)).subset hw
      · exact h.registered n w hw
  · by_cases hc : c = a.2.conn
    · subst hc
      rcases task_of_step hstep with ⟨-, -, event, hnew⟩ | ⟨k, k', obs, hk, hpc', -, hacts⟩
      · rw [hnew] at hpc
        cases hpc
      · rw [hpc'] at hpc
        rcases hacts with hlocal | ⟨i, hshared, -⟩
        · rcases clean_of_localStep hlocal (Option.some.inj hpc) with hold | hclean
          · exact h.awaiting _ name filter timeoutSecs (pc_eq_some.2 ⟨k, hk, hold⟩)
          · exact hclean
        · exact absurd (Option.some.inj hpc) (not_awaiting_of_sharedStep hshared)
    · rw [pc_of_step hstep hc] at hpc
      exact h.awaiting c name filter timeoutSecs hpc

theorem clean_of_reach (h : Reach L roster audit s) : Clean s :=
  Machine.Reach.invariant h ⟨fun n w hw => by simp [Hub.init] at hw,
    fun c name filter timeoutSecs hpc => by simp [Hub.init, Hub.pc] at hpc⟩
    fun _ _ _ h hs => h.step (step_cases hs)

/-! ## Validity -/

/-- The id that a bounce draws is not empty. -/
def DrawsIds (_ : Hub) (a : DateTime × Action) : Prop :=
  a.2.drawsId = true

/-- No bounce has an empty id. -/
structure Named (s : Hub) : Prop where
  pending : ∀ c phase x name e, s.pc c = some (.committing phase (.bounce x name) e) → e.id ≠ ""
  accepted : ∀ c x name ts y, .accepted c (.bounce x name) ts y ∈ s.trace → y.envelope.id ≠ ""

/-- A task that bounces goes on with the id it is given. -/
theorem action_of_bouncing {a : DateTime × Action} (hs : s.step L roster a = some s') {k : Conn}
    {name : String} {x : Stamped} {phase : CommitPhase} {role : Role} {e : Envelope}
    (hk : s.conns a.2.conn = some k) (hpc : k.pc = .bouncing name x)
    (hpc' : s'.pc a.2.conn = some (.committing phase role e)) :
    a.2 = .task a.2.conn (.bounced e.id) := by
  have hput : ∀ {k₁ k₂ : Conn} {c : ConnId} {obs : List Obs} {i : Input},
      s.conns c = some k₁ → c = a.2.conn → k₁.SharedStep a.1 c i k₂ obs →
      (s.put c k₂ obs).pc c ≠ some (.committing phase role e) := by
    rintro k₁ k₂ _ obs i hk₁ rfl hshared hcommit
    obtain rfl : k = k₁ := Option.some.inj (hk.symm.trans hk₁)
    obtain ⟨k₃, hk₃, hcommit⟩ := pc_eq_some.1 hcommit
    rw [put_conns, if_pos rfl] at hk₃
    obtain rfl := Option.some.inj hk₃
    obtain ⟨phase', hold⟩ := committing_of_sharedStep hshared hcommit
    rw [hpc] at hold
    cases hold
  have hother : ∀ {k₁ : Conn}, s.conns a.2.conn = some k₁ → k₁.pc = .bouncing name x := fun hk₁ => by
    rw [← Option.some.inj (hk.symm.trans hk₁), hpc]
  cases step_cases hs with
  | accept hnew => cases hnew.symm.trans hk
  | @task now c i k' k'' obs hk' hlocal =>
    simp only [step] at hs
    split_ifs at hs
    obtain ⟨k₁, k₂, obs', hk₁, hstep, heq⟩ := taskStep_eq_some hs
    rw [heq] at hpc'
    obtain ⟨k₃, hk₃, hcommit⟩ := pc_eq_some.1 hpc'
    rw [put_conns] at hk₃
    obtain rfl := Option.some.inj ((if_pos rfl).symm.trans hk₃)
    exact congrArg (Action.task c) (uuid_of_step hstep (hother hk₁) hcommit)
  | lockAudit _ hk' hshared => exact absurd hpc' (hput hk' rfl hshared)
  | append _ hk' _ _ hshared => exact absurd hpc' (hput hk' rfl hshared)
  | unlockAudit _ hk' hunlock => exact absurd hpc' (hput hk' rfl (.unlocked hunlock))
  | route hk' hpc'' | take hk' hpc'' | park hk' hpc'' | deregister hk' hpc''
  | loseRace hk' hpc'' | requeue hk' hpc'' =>
    rw [hother hk'] at hpc''
    cases hpc''

theorem Named.step {a : DateTime × Action} (h : Named s) (hids : DrawsIds s a)
    (hs : s.step L roster a = some s') : Named s' := by
  have hstep := step_cases hs
  refine ⟨fun c phase x name e hpc => ?_, fun c x name ts y hy => ?_⟩
  · by_cases hc : c = a.2.conn
    · subst hc
      rcases task_of_step hstep with ⟨-, -, event, hnew⟩ | ⟨k, k', obs, hk, hpc', -, hacts⟩
      · rw [hnew] at hpc
        cases hpc
      rw [hpc'] at hpc
      have hcommit := Option.some.inj hpc
      rcases hacts with hlocal | ⟨i, hshared, -⟩
      · rcases bouncing_of_localStep hlocal hcommit with hold | hbouncing
        · exact h.pending _ phase x name e (pc_eq_some.2 ⟨k, hk, hold⟩)
        · have hdraws : a.2.drawsId = true := hids
          rw [action_of_bouncing hs hk hbouncing (hpc'.trans hpc)] at hdraws
          exact of_decide_eq_true hdraws
      · obtain ⟨phase', hold⟩ := committing_of_sharedStep hshared hcommit
        exact h.pending _ phase' x name e (pc_eq_some.2 ⟨k, hk, hold⟩)
    · rw [pc_of_step hstep hc] at hpc
      exact h.pending c phase x name e hpc
  · rcases task_of_step hstep with ⟨-, heq, -⟩ | ⟨k, k', obs, hk, -, heq, hemit⟩
    · exact h.accepted c x name ts y (heq ▸ hy)
    · rw [heq, List.mem_append] at hy
      rcases hy with hy | hy
      · exact h.accepted c x name ts y hy
      · rcases hemit with hlocal | ⟨i, hshared, -⟩
        · exact absurd hy (not_accepted_of_localStep hlocal)
        · obtain ⟨rfl, hpc⟩ := role_of_sharedStep hshared hy
          exact h.pending _ _ x name _ (pc_eq_some.2 ⟨k, hk, hpc⟩)

theorem named_of_reach (h : Machine.ReachVia (step L roster) DrawsIds (Hub.init audit) s) :
    Named s :=
  Machine.ReachVia.invariant h ⟨fun c phase x name e hpc => by simp [Hub.init, Hub.pc] at hpc,
    fun c x name ts y hy => by simp [Hub.init] at hy⟩ fun _ _ _ _ hP hq hs => hP.step hq hs

/-- An envelope that a client sent was validated. -/
theorem validate_of_sent (h : Reach L roster audit s) {c : ConnId} {name : String} {ts : DateTime}
    {x : Stamped} (hx : .accepted c (.send name) ts x ∈ s.trace) :
    x.envelope.validate L.parseFromRfc3339 = .ok () := by
  obtain ⟨e, hvalid, -, he⟩ := role_of_accepted h hx
  rw [he, Envelope.validate_stamp]
  exact hvalid

/-- Every accepted envelope passes `validate` : a client's because it was checked, a bounce
because the lost envelope and its sender were. -/
theorem validate_of_accepted (hroster : roster.Accepted) (hclock : L.ClockParses)
    (h : Machine.ReachVia (step L roster) DrawsIds (Hub.init audit) s) {x : Stamped}
    (hx : x ∈ acceptedOf s.trace) : x.envelope.validate L.parseFromRfc3339 = .ok () := by
  obtain ⟨c, role, ts, hx⟩ := mem_acceptedOf.1 hx
  cases role with
  | send name => exact validate_of_sent h.reach hx
  | bounce lost name =>
    obtain ⟨hlost, hfrom, -, now, uuid, he⟩ := role_of_accepted h.reach hx
    have hid := (named_of_reach h).accepted c lost name ts x hx
    have hheld := (custody_of_reach h.reach).routed (.lost c) lost (mem_lostOn.2 hlost)
    rcases origin_of_accepted hroster h.reach (mem_acceptedOf_of_routed h.reach hheld) with
      ⟨sender, -, ⟨token, htoken⟩, hsender, d, ts', e, -, -, hsent, -⟩ | ⟨hhub, -⟩
    · have hvalid := (Envelope.validate_eq_ok_iff _ _).1 (validate_of_sent h.reach hsent)
      have hname := hroster.name_ne _ (Roster.mem_of_get htoken)
      rw [Envelope.validate_eq_ok_iff]
      refine ⟨hid, ?_, ?_, ?_, ?_⟩ <;> rw [he]
      · rw [← hsender] at hname
        exact hname
      · exact (by decide : bounceKind ≠ "")
      · exact hclock now
      · exact fun hnone => hvalid.1 (Option.some.inj hnone)
    · exact absurd hhub hfrom

/-! ## The invariant -/

/-- What holds of the routing state : no entry is empty, so there are no more keys than
queued envelopes and parked waiters, a queue is keyed by its envelopes' destination, the ids
are in order, the filters have no empty predicate, and every envelope in some place is valid. -/
structure Represents (L : Libs) (s : Hub) : Prop where
  ne_nil : ∀ n, s.state.queues n ≠ some [] ∧ s.state.waiters n ≠ some []
  queue_keys : ∃ keys : Finset String, (∀ n, n ∈ keys ↔ s.state.queues n ≠ none) ∧
    keys.card ≤ ∑ n ∈ keys, (s.state.queue n).length
  waiter_keys : ∃ keys : Finset String, (∀ n, n ∈ keys ↔ s.state.waiters n ≠ none) ∧
    keys.card ≤ ∑ n ∈ keys, (s.state.registered n).length
  keyed : ∀ n, ∀ x ∈ s.state.queue n, x.envelope.to = n
  increasing : ∀ n, (s.state.registered n).Pairwise fun v w => v.id < w.id
  apart : ∀ n m, n ≠ m → ∀ v ∈ s.state.registered n, ∀ w ∈ s.state.registered m, v.id ≠ w.id
  below : ∀ n, ∀ w ∈ s.state.registered n, w.id < s.state.nextWaiterId
  clean : ∀ n, ∀ w ∈ s.state.registered n, w.filter.replyTo ≠ some "" ∧ w.filter.kind ≠ some ""
  valid : ∀ p, ∀ x ∈ s.held p, x.envelope.validate L.parseFromRfc3339 = .ok ()

/-- The routing state is well represented in every state that the hub reaches in fewer than
`2 ^ 64` awaits that park. -/
theorem represents_of_reach {readToString : String → Except String String}
    {fromStr : String → Except String Roster} {path : String}
    (hload : Roster.load readToString fromStr path = .ok roster) (hclock : L.ClockParses)
    (h : Machine.ReachVia (step L roster) DrawsIds (Hub.init audit) s)
    (hparks : parks s.trace < 2 ^ 64) : Represents L s := by
  have hcompact := compact_of_reach h.reach
  have hordered := ordered_of_reach h.reach hparks
  exact {
    ne_nil := fun n => ⟨hcompact.queues.ne_nil n, hcompact.waiters.ne_nil n⟩
    queue_keys := hcompact.queues.exists_keys
    waiter_keys := hcompact.waiters.exists_keys
    keyed := (addressed_of_reach h.reach).keyed
    increasing := hordered.increasing
    apart := hordered.apart
    below := hordered.below
    clean := (clean_of_reach h.reach).registered
    valid := fun p x hx => validate_of_accepted (Roster.accepted_of_load hload) hclock h
      (mem_acceptedOf_of_routed h.reach ((custody_of_reach h.reach).routed p x hx)) }

/-- `bob`'s bounce is queued while `alice` awaits again. -/
def awaitingAgain : List Action :=
  brokenDelivery ++ opening 2 aliceHello.bytes awaitResult.bytes ++ [.await 2]

theorem represents_of_reach_bounce : ∃ s, SampleReach s ∧ (s.state.queue "bob").length = 1 ∧
    (s.state.registered "alice").length = 1 ∧ parks s.trace = 2 ∧ Represents sampleLibs s := by
  obtain ⟨s, hs, hP⟩ : ∃ s, runSample awaitingAgain = some s ∧
      decide ((s.state.queue "bob").length = 1 ∧ (s.state.registered "alice").length = 1 ∧
        parks s.trace = 2) = true := Option.any_eq_true _ _ |>.1 (by decide +kernel)
  obtain ⟨hqueue, hreg, hparks⟩ := of_decide_eq_true hP
  have hdraws : ((awaitingAgain.map fun a => ((0 : DateTime), a)).all fun a => a.2.drawsId) = true := by
    decide +kernel
  have h : Machine.ReachVia (step sampleLibs sampleRoster) DrawsIds (Hub.init sampleAudit) s :=
    Machine.reachVia_of_run hs fun _ a ha => List.all_eq_true.1 hdraws a ha
  have hclock : sampleLibs.ClockParses := fun _ => ⟨0, by simp [sampleLibs]⟩
  exact ⟨s, h.reach, hqueue, hreg, hparks,
    represents_of_reach load_sampleRoster hclock h (by rw [hparks]; decide)⟩

end Hub

end AgentHub
