import AgentHub.HubSteps
import AgentHub.Sample

/-!
# Audit order and routing order

A commit appends and routes under the audit lock, so the envelopes routed for the first
time are those appended, in the same order, but for one whose commit still holds the lock
between its two effects (`AuditOrder`). Requeues route a second time and are not counted.
-/

namespace AgentHub

/-- The envelopes routed for the first time, in the order of the routings. -/
def routedOf (trace : List Obs) : List Stamped :=
  trace.filterMap fun
    | .routed _ x .back _ => some x
    | _ => none

@[simp] theorem acceptedOf_append (t t' : List Obs) :
    acceptedOf (t ++ t') = acceptedOf t ++ acceptedOf t' :=
  List.filterMap_append

@[simp] theorem routedOf_append (t t' : List Obs) : routedOf (t ++ t') = routedOf t ++ routedOf t' :=
  List.filterMap_append

theorem mem_acceptedOf {trace : List Obs} {x : Stamped} :
    x ∈ acceptedOf trace ↔ ∃ c role ts, .accepted c role ts x ∈ trace := by
  unfold acceptedOf
  rw [List.mem_filterMap]
  constructor
  · rintro ⟨o, ho, hx⟩
    cases o with
    | accepted c role ts y =>
      obtain rfl := Option.some.inj hx
      exact ⟨c, role, ts, ho⟩
    | _ => cases hx
  · rintro ⟨c, role, ts, ho⟩
    exact ⟨_, ho, rfl⟩

theorem mem_routedOf {trace : List Obs} {x : Stamped} :
    x ∈ routedOf trace ↔ ∃ c outcome, .routed c x .back outcome ∈ trace := by
  unfold routedOf
  rw [List.mem_filterMap]
  constructor
  · rintro ⟨o, ho, hx⟩
    cases o with
    | routed c y p outcome =>
      cases p with
      | back =>
        obtain rfl := Option.some.inj hx
        exact ⟨c, outcome, ho⟩
      | front => cases hx
    | _ => cases hx
  · rintro ⟨c, outcome, ho⟩
    exact ⟨_, ho, rfl⟩

/-- The blocking job of the task holds the audit lock. -/
def Pc.holdsAudit : Pc → Bool
  | .auditing .waiting _ _ | .committing .waiting _ _ => false
  | .auditing _ _ _ | .committing _ _ _ => true
  | _ => false

/-- The envelope a task has appended and not routed yet. -/
def Pc.unrouted : Pc → Option Stamped
  | .committing (.appended x) _ _ => some x
  | _ => none

theorem Pc.holdsAudit_of_unrouted {pc : Pc} {x : Stamped} (h : pc.unrouted = some x) :
    pc.holdsAudit = true := by
  unfold Pc.unrouted at h
  split at h
  · rfl
  · cases h

section Task

variable {L : Libs} {roster : Roster} {now : DateTime} {c : ConnId} {k k' : Conn} {obs : List Obs}

/-- A step that touches nothing shared is none of a commit holding the lock. -/
theorem audit_of_localStep (h : k.LocalStep L roster now c k' obs) :
    (k'.pc = k.pc ∨ k'.pc.holdsAudit = false) ∧ (k'.pc.unrouted = k.pc.unrouted) ∧
      acceptedOf obs = [] ∧ routedOf obs = [] := by
  cases h with
  | helloRefused hpc hfill hrefuse | verbRefused hpc hfill hrefuse =>
    cases hrefuse <;> simp [hpc, Pc.holdsAudit, Pc.unrouted, acceptedOf, routedOf]
  | handed hwaits hvalue =>
    generalize k.pc = pc at hwaits
    cases hwaits <;> simp [Pc.holdsAudit, Pc.unrouted, acceptedOf, routedOf]
  | channelLost hwaits hvalue htx =>
    generalize k.pc = pc at hwaits
    cases hwaits <;> simp [Pc.holdsAudit, Pc.unrouted, acceptedOf, routedOf]
  | died hmortal =>
    generalize k.pc = pc at hmortal
    cases hmortal <;> simp [Pc.holdsAudit, Pc.unrouted, acceptedOf, routedOf]
  | wroteAll hpc hobs =>
    rcases hobs with rfl | rfl <;> simp [hpc, Pc.holdsAudit, Pc.unrouted, acceptedOf, routedOf]
  | peerClosed => simp [acceptedOf, routedOf]
  | _ => simp [*, Pc.holdsAudit, Pc.unrouted, acceptedOf, routedOf]

theorem audit_of_afterUnlock {pc : Pc} (h : Conn.afterUnlock k.pc = some pc) :
    k.pc.holdsAudit = true ∧ pc.holdsAudit = false ∧ k.pc.unrouted = none ∧ pc.unrouted = none := by
  generalize k.pc = p at h
  unfold Conn.afterUnlock at h
  split at h
  · rename_i next
    cases next <;> cases h <;> exact ⟨rfl, rfl, rfl, rfl⟩
  · cases h
    exact ⟨rfl, rfl, rfl, rfl⟩
  · cases h
    exact ⟨rfl, rfl, rfl, rfl⟩
  · cases h
    exact ⟨rfl, rfl, rfl, rfl⟩
  · cases h
    exact ⟨rfl, rfl, rfl, rfl⟩
  · cases h

theorem audit_of_appended {r : Except AuditError ℕ} (h : k.SharedStep now c (.appended r) k' obs) :
    k.pc.unrouted = none ∧ routedOf obs = [] ∧
      ((k'.pc.unrouted = none ∧ acceptedOf obs = []) ∨
        ∃ x, k'.pc.unrouted = some x ∧ acceptedOf obs = [x]) := by
  cases h with
  | logged hpc | unlogged hpc | refused hpc =>
    exact ⟨by rw [hpc]; rfl, rfl, Or.inl ⟨rfl, rfl⟩⟩
  | accepted hpc => exact ⟨by rw [hpc]; rfl, rfl, Or.inr ⟨_, rfl, rfl⟩⟩

end Task

namespace Hub

variable {L : Libs} {roster : Roster} {audit : AuditLog} {s s' : Hub}

/-- Who holds the audit lock, and what is appended and not routed. -/
structure AuditOrder (s : Hub) : Prop where
  holder : ∀ c k, s.conns c = some k → k.pc.holdsAudit = true → s.auditLock = some c
  agree : (∀ c k, s.conns c = some k → k.pc.unrouted = none) →
    routedOf s.trace = acceptedOf s.trace
  pending : ∀ c k x, s.conns c = some k → k.pc.unrouted = some x →
    acceptedOf s.trace = routedOf s.trace ++ [x]

namespace AuditOrder

theorem init (audit : AuditLog) : AuditOrder (Hub.init audit) where
  holder c k hk := by simp [Hub.init] at hk
  agree _ := rfl
  pending c k x hk := by simp [Hub.init] at hk

/-- Only the holder of the audit lock can have an envelope unrouted. -/
theorem unrouted_eq_none (h : AuditOrder s) {c d : ConnId} {k : Conn} (hlock : s.auditLock = some c)
    (hk : s.conns d = some k) (hd : d ≠ c) : k.pc.unrouted = none := by
  by_contra hne
  obtain ⟨x, hx⟩ := Option.ne_none_iff_exists'.1 hne
  have := h.holder d k hk (Pc.holdsAudit_of_unrouted hx)
  exact hd (Option.some.inj (this.symm.trans hlock))

/-- A step of the task of `c` that is none of a commit holding the lock. -/
theorem put (h : AuditOrder s) {c : ConnId} {k k' : Conn} {obs : List Obs}
    (hk : s.conns c = some k) (hholds : k'.pc = k.pc ∨ k'.pc.holdsAudit = false)
    (hun : k'.pc.unrouted = k.pc.unrouted) (haccepted : acceptedOf obs = [])
    (hrouted : routedOf obs = []) : AuditOrder (s.put c k' obs) where
  holder d kd hd hh := by
    rw [put_conns] at hd
    split_ifs at hd with hdc
    · obtain rfl := Option.some.inj hd
      rcases hholds with hpc | hno
      · exact h.holder d k (hdc ▸ hk) (hpc ▸ hh)
      · rw [hno] at hh
        cases hh
    · exact h.holder d kd hd hh
  agree hall := by
    rw [put_trace, acceptedOf_append, routedOf_append, haccepted, hrouted, List.append_nil,
      List.append_nil]
    refine h.agree fun d kd hd => ?_
    by_cases hdc : d = c
    · obtain rfl := Option.some.inj (hk.symm.trans (hdc ▸ hd))
      rw [← hun]
      exact hall c k' (by rw [put_conns, if_pos rfl])
    · exact hall d kd (by rw [put_conns, if_neg hdc, hd])
  pending d kd x hd hx := by
    rw [put_trace, acceptedOf_append, routedOf_append, haccepted, hrouted, List.append_nil,
      List.append_nil]
    rw [put_conns] at hd
    split_ifs at hd with hdc
    · obtain rfl := Option.some.inj hd
      exact h.pending c k x hk (hun ▸ hx)
    · exact h.pending d kd x hd hx

/-- Changing what other tasks find in their channels. -/
theorem congr (h : AuditOrder s) (hconns : ∀ d, (s'.conns d).map Conn.pc = (s.conns d).map Conn.pc)
    (hlock : s'.auditLock = s.auditLock) (htrace : s'.trace = s.trace) : AuditOrder s' := by
  have hback : ∀ d kd, s'.conns d = some kd → ∃ k, s.conns d = some k ∧ k.pc = kd.pc := by
    intro d kd hd
    have := hconns d
    rw [hd, Option.map_some, eq_comm, Option.map_eq_some_iff] at this
    exact this
  have hforth : ∀ d k, s.conns d = some k → ∃ kd, s'.conns d = some kd ∧ kd.pc = k.pc := by
    intro d k hd
    have := hconns d
    rw [hd, Option.map_some, Option.map_eq_some_iff] at this
    exact this
  refine ⟨fun d kd hd hh => ?_, fun hall => ?_, fun d kd x hd hx => ?_⟩
  · obtain ⟨k, hk, hpc⟩ := hback d kd hd
    rw [hlock]
    exact h.holder d k hk (hpc ▸ hh)
  · rw [htrace]
    refine h.agree fun d k hk => ?_
    obtain ⟨kd, hd, hpc⟩ := hforth d k hk
    exact hpc ▸ hall d kd hd
  · obtain ⟨k, hk, hpc⟩ := hback d kd hd
    rw [htrace]
    exact h.pending d k x hk (hpc ▸ hx)

/-- A step of the holder of the audit lock. -/
theorem putHolder (h : AuditOrder s) {c : ConnId} {k k' : Conn} {obs : List Obs}
    (hlock : s.auditLock = some c) (hk : s.conns c = some k)
    (hagree : k'.pc.unrouted = none → k.pc.unrouted = none ∧ acceptedOf obs = routedOf obs ∨
      ∃ x, k.pc.unrouted = some x ∧ acceptedOf obs = [] ∧ routedOf obs = [x])
    (hpending : ∀ x, k'.pc.unrouted = some x →
      k.pc.unrouted = none ∧ acceptedOf obs = [x] ∧ routedOf obs = []) :
    AuditOrder (s.put c k' obs) where
  holder d kd hd hh := by
    rw [put_conns] at hd
    split_ifs at hd with hdc
    · rw [hdc]
      exact hlock
    · exact h.holder d kd hd hh
  agree hall := by
    have hothers : k.pc.unrouted = none → ∀ d kd, s.conns d = some kd → kd.pc.unrouted = none := by
      intro hnone d kd hd
      by_cases hdc : d = c
      · obtain rfl := Option.some.inj (hk.symm.trans (hdc ▸ hd))
        exact hnone
      · exact h.unrouted_eq_none hlock hd hdc
    rw [put_trace, acceptedOf_append, routedOf_append]
    rcases hagree (hall c k' (by rw [put_conns, if_pos rfl])) with ⟨hnone, heq⟩ | ⟨x, hx, ha, hr⟩
    · rw [h.agree (hothers hnone), heq]
    · rw [h.pending c k x hk hx, ha, hr, List.append_nil]
  pending d kd x hd hx := by
    have hothers : k.pc.unrouted = none → ∀ d kd, s.conns d = some kd → kd.pc.unrouted = none := by
      intro hnone d kd hd
      by_cases hdc : d = c
      · obtain rfl := Option.some.inj (hk.symm.trans (hdc ▸ hd))
        exact hnone
      · exact h.unrouted_eq_none hlock hd hdc
    rw [put_conns] at hd
    split_ifs at hd with hdc
    · obtain rfl := Option.some.inj hd
      obtain ⟨hnone, ha, hr⟩ := hpending x hx
      rw [put_trace, acceptedOf_append, routedOf_append, h.agree (hothers hnone), ha, hr, List.append_nil]
    · rw [h.unrouted_eq_none hlock hd hdc] at hx
      cases hx

theorem accept {c : ConnId} {now : DateTime} {peer : String} (h : AuditOrder s)
    (hnew : s.conns c = none) : AuditOrder (s.put c (.accepted now peer) []) where
  holder d kd hd hh := by
    rw [put_conns] at hd
    split_ifs at hd with hdc
    · obtain rfl := Option.some.inj hd
      cases hh
    · exact h.holder d kd hd hh
  agree hall := by
    rw [put_trace, List.append_nil]
    refine h.agree fun d kd hd => hall d kd ?_
    rw [put_conns, if_neg, hd]
    rintro rfl
    rw [hnew] at hd
    cases hd
  pending d kd x hd hx := by
    rw [put_trace, List.append_nil]
    rw [put_conns] at hd
    split_ifs at hd with hdc
    · obtain rfl := Option.some.inj hd
      cases hx
    · exact h.pending d kd x hd hx

theorem route {c : ConnId} {k : Conn} {x : Stamped} {role : Role} {e : Envelope} (h : AuditOrder s)
    (hk : s.conns c = some k) (hpc : k.pc = .committing (.appended x) role e) :
    AuditOrder (s.routing c k (.committing (.routed x) role e) x .back) := by
  have hlock := h.holder c k hk (by rw [hpc]; rfl)
  have hput := @putHolder s h c k { k with pc := .committing (.routed x) role e }
    [.routed c x .back (routeEnvelope s.closed s.state x .back).2] hlock hk
    (fun _ => Or.inr ⟨x, by rw [hpc]; rfl, rfl, rfl⟩) fun y hy => by cases hy
  exact hput.congr (fun d => routing_pc _ _ _ _ _ _ _ _) (routing_auditLock _ _ _ _ _ _)
    (routing_trace _ _ _ _ _ _)

theorem lock {c : ConnId} (h : AuditOrder s) (hfree : s.auditLock = none) :
    AuditOrder { s with auditLock := some c } where
  holder d kd hd hh := by
    have := h.holder d kd hd hh
    rw [hfree] at this
    cases this
  agree := h.agree
  pending := h.pending

theorem unlock {c : ConnId} {k : Conn} (h : AuditOrder s) (hlock : s.auditLock = some c)
    (hk : s.conns c = some k) (hno : k.pc.holdsAudit = false) :
    AuditOrder { s with auditLock := none } where
  holder d kd hd hh := by
    obtain rfl := Option.some.inj (hlock.symm.trans (h.holder d kd hd hh))
    obtain rfl := Option.some.inj (hk.symm.trans hd)
    rw [hno] at hh
    cases hh
  agree := h.agree
  pending := h.pending

/-- Every step of the hub keeps the two orders in agreement. -/
theorem step {a : DateTime × Action} (h : AuditOrder s) (hstep : Step L roster s a s') :
    AuditOrder s' := by
  cases hstep with
  | accept hnew => exact h.accept hnew
  | task hk hstep =>
    obtain ⟨hholds, hun, ha, hr⟩ := audit_of_localStep hstep
    exact h.put hk hholds hun ha hr
  | @lockAudit now c k k' obs hfree hk hstep =>
    have hlock := h.lock (c := c) hfree
    cases hstep with
    | lockedAudit hpc | lockedCommit hpc =>
      exact hlock.putHolder rfl hk (fun _ => Or.inl ⟨by rw [hpc]; rfl, rfl⟩) fun y hy => by cases hy
  | append hlock hk hevent hwrite hstep =>
    obtain ⟨hun, hr, ⟨hun', ha⟩ | ⟨x, hx, ha⟩⟩ := audit_of_appended hstep
    · refine (h.putHolder hlock hk (fun _ => Or.inl ⟨hun, by rw [ha, hr]⟩) fun y hy => ?_).congr
        (fun d => rfl) rfl rfl
      rw [hun'] at hy
      cases hy
    · refine (h.putHolder hlock hk (fun hnone => ?_) fun y hy => ?_).congr (fun d => rfl) rfl rfl
      · rw [hx] at hnone
        cases hnone
      · obtain rfl := Option.some.inj (hx.symm.trans hy)
        exact ⟨hun, ha, hr⟩
  | route hk hpc => exact h.route hk hpc
  | @unlockAudit now c k pc hlock hk hpc =>
    obtain ⟨-, hno, hun, hun'⟩ := audit_of_afterUnlock hpc
    have hput := @put s h c k { k with pc } [] hk (Or.inr hno) (hun'.trans hun.symm) rfl rfl
    exact hput.unlock hlock (by rw [put_conns, if_pos rfl]) hno
  | take hk hpc htake | park hk hpc htake =>
    exact (h.put hk (Or.inr rfl) (by rw [hpc]; rfl) rfl rfl).congr (fun d => rfl) rfl rfl
  | deregister hk hpc hremove =>
    refine (h.put hk (Or.inr rfl) (by rw [hpc]; rfl) rfl rfl).congr (fun d => onChan_pc _ _ _ _)
      (onChan_auditLock _ _ _) (onChan_trace _ _ _)
  | loseRace hk hpc hremove => exact h.put hk (Or.inr rfl) (by rw [hpc]; rfl) rfl rfl
  | @requeue now c k name source x hk hpc =>
    have hput := @put s h c k { k with pc := .finished }
      [.routed c x .front (routeEnvelope s.closed s.state x .front).2] hk (Or.inr rfl)
      (by rw [hpc]; rfl) rfl rfl
    exact hput.congr (fun d => routing_pc _ _ _ _ _ _ _ _) (routing_auditLock _ _ _ _ _ _)
      (routing_trace _ _ _ _ _ _)

end AuditOrder

theorem auditOrder_of_reach (h : Reach L roster audit s) : AuditOrder s :=
  Machine.Reach.invariant h (AuditOrder.init audit) fun _ _ _ h hs => h.step (step_cases hs)

/-- An accepted envelope is numbered by those accepted before it. -/
theorem acceptedOf_of_step {a : DateTime × Action} (h : Step L roster s a s') :
    acceptedOf s'.trace = acceptedOf s.trace ∨
      ∃ e, acceptedOf s'.trace = acceptedOf s.trace ++ [⟨e, (acceptedOf s.trace).length⟩] := by
  cases h with
  | accept | unlockAudit | loseRace | take | park => exact Or.inl (by simp [acceptedOf])
  | task hk hstep =>
    obtain ⟨-, -, ha, -⟩ := audit_of_localStep hstep
    exact Or.inl (by rw [put_trace, acceptedOf_append, ha, List.append_nil])
  | lockAudit hfree hk hstep => cases hstep <;> exact Or.inl (by simp [acceptedOf])
  | @append now c os k k' obs event audit r hlock hk hevent hwrite hstep =>
    cases r with
    | error e =>
      simp only [Except.map] at hstep
      cases hstep <;> exact Or.inl (by simp [acceptedOf])
    | ok u =>
      simp only [Except.map] at hstep
      cases hstep with
      | logged => exact Or.inl (by simp [acceptedOf])
      | accepted => exact Or.inr ⟨_, by rw [put_trace, acceptedOf_append]; rfl⟩
  | route | requeue => exact Or.inl (by simp [acceptedOf])
  | deregister => exact Or.inl (by simp [acceptedOf])

theorem seq_of_reach (h : Reach L roster audit s) :
    (acceptedOf s.trace).map Stamped.seq = List.range (acceptedOf s.trace).length :=
  Machine.Reach.invariant (P := fun s => (acceptedOf s.trace).map Stamped.seq =
    List.range (acceptedOf s.trace).length) h rfl fun _ _ _ h hs => by
      rcases acceptedOf_of_step (step_cases hs) with heq | ⟨e, heq⟩
      · rw [heq, h]
      · rw [heq, List.map_append, h, List.length_append, List.length_singleton, List.range_succ]
        rfl

/-- A step that changes the routing state is observed. -/
theorem reroutes_of_state_ne {a : DateTime × Action} (h : Step L roster s a s')
    (hne : s'.state ≠ s.state) : ∃ o ∈ s'.trace, o.conn = a.2.conn ∧ o.reroutes = true := by
  cases h with
  | accept | task | lockAudit | append | unlockAudit | loseRace => exact absurd rfl hne
  | @route now c k x role e =>
    exact ⟨.routed c x .back (routeEnvelope s.closed s.state x .back).2, by simp, rfl, rfl⟩
  | @requeue now c k name source x =>
    exact ⟨.routed c x .front (routeEnvelope s.closed s.state x .front).2, by simp, rfl, rfl⟩
  | take | park => exact ⟨_, List.mem_append_right _ (List.mem_singleton_self _), rfl, rfl⟩
  | @deregister now c => exact ⟨.deregistered c, by simp, rfl, rfl⟩

/-- In every reachable state the envelopes routed are those accepted, in the order of their
appends, but for a last one whose commit holds the audit lock. A send answered with an
error has never changed the routing state; one answered `accepted` has its envelope, with
that id and stamped, among the accepted and the routed ones. -/
theorem audit_routing_agree (h : Reach L roster audit s) :
    (routedOf s.trace = acceptedOf s.trace ∨
      ∃ x c role ts k e, acceptedOf s.trace = routedOf s.trace ++ [x] ∧
        .accepted c role ts x ∈ s.trace ∧ s.auditLock = some c ∧ s.conns c = some k ∧
        k.pc = .committing (.appended x) role e) ∧
    (∀ c name e message, .verb c name (.send e) ∈ s.trace →
      .answered c (.error message) ∈ s.trace → ∀ s₁ a s₂, Reach L roster audit s₁ →
        s₁.step L roster a = some s₂ → Machine.Reach (step L roster) s₂ s → a.2.conn = c →
        s₂.state = s₁.state) ∧
    ∀ c id, .answered c (.accepted id) ∈ s.trace → ∃ name e x, .verb c name (.send e) ∈ s.trace ∧
      x.envelope = { e with «from» := name } ∧ x.envelope.id = id ∧
      x ∈ acceptedOf s.trace ∧ x ∈ routedOf s.trace := by
  refine ⟨?_, fun c name e message hverb hans s₁ a s₂ h₁ hs hreach hc => ?_, fun c id hans => ?_⟩
  · have horder := auditOrder_of_reach h
    by_cases hall : ∀ c k, s.conns c = some k → k.pc.unrouted = none
    · exact Or.inl (horder.agree hall)
    · push Not at hall
      obtain ⟨c, k, hk, hne⟩ := hall
      obtain ⟨x, hx⟩ := Option.ne_none_iff_exists'.1 hne
      have hlock := horder.holder c k hk (Pc.holdsAudit_of_unrouted hx)
      have hknown := (known_of_run (run_of_reach h hk)).1
      cases hpc : k.pc with
      | committing phase role e =>
        cases phase with
        | appended y =>
          rw [hpc] at hx hknown
          obtain rfl := Option.some.inj hx
          obtain ⟨-, -, ⟨ts, ha⟩, -⟩ := hknown
          exact Or.inr ⟨y, c, role, ts, k, e, horder.pending c k y hk (by rw [hpc]; rfl),
            (mem_traceOf.1 ha).1, hlock, hk, hpc⟩
        | _ => simp [hpc, Pc.unrouted] at hx
      | _ => simp [hpc, Pc.unrouted] at hx
  · by_contra hne
    obtain ⟨o, ho, hoc, hro⟩ := reroutes_of_state_ne (step_cases hs) hne
    obtain ⟨k, hk⟩ := exists_conn_of_mem h hans
    have hquiet := quiet_of_send_refused (marked_of_run (run_of_reach h hk))
      (justified_of_reach h c) (mem_traceOf.2 ⟨hverb, rfl⟩) (mem_traceOf.2 ⟨hans, rfl⟩)
    have hmem : o ∈ s.traceOf c :=
      mem_traceOf.2 ⟨(trace_prefix_of_reach hreach).subset ho, hoc.trans hc⟩
    rw [hquiet o hmem] at hro
    cases hro
  · have hjust := justified_of_reach h c
    obtain ⟨pre, post, hsplit, name, ts, x, outcome, ha, hr, hid⟩ :=
      hjust.of_mem (mem_traceOf.2 ⟨hans, rfl⟩)
    have hsub : ∀ o ∈ pre, o ∈ s.traceOf c := fun o ho => by rw [hsplit]; exact List.mem_append_left _ ho
    obtain ⟨pre', post', hsplit', e, -, hverb, he⟩ := hjust.of_mem (hsub _ ha)
    have hverb' : .verb c name (.send e) ∈ s.traceOf c := by
      rw [hsplit']
      exact List.mem_append_left _ hverb
    exact ⟨name, e, x, (mem_traceOf.1 hverb').1, he, hid,
      mem_acceptedOf.2 ⟨_, _, _, (mem_traceOf.1 (hsub _ ha)).1⟩,
      mem_routedOf.2 ⟨_, _, (mem_traceOf.1 (hsub _ hr)).1⟩⟩

/-- Two envelopes are accepted, and routed in that order. -/
theorem audit_routing_agree_exchange : ∃ s, SampleReach s ∧ (acceptedOf s.trace).length = 2 ∧
    routedOf s.trace = acceptedOf s.trace := by
  obtain ⟨s, h, hs⟩ := @exists_of_runSample exchange (fun s => (acceptedOf s.trace).length = 2 ∧
    s.auditLock = none) (by decide +kernel)
  obtain ⟨haccepted, hfree⟩ := of_decide_eq_true hs
  refine ⟨s, h, haccepted, ?_⟩
  rcases (audit_routing_agree h).1 with heq | ⟨x, c, role, ts, k, e, -, -, hlock, -⟩
  · exact heq
  · rw [hfree] at hlock
    cases hlock

end Hub

end AgentHub
