import AgentHub.AuditFile
import AgentHub.Conservation
import AgentHub.Identity

/-!
# The audit log and what agents see

A delivery is logged after its write, by a task that has to wait for the audit lock like any
other. A client that has read the envelope can have its next send committed before that.
Then the log has the two in the wrong order (`exists_overtaking`).

Of a written envelope and a send that is read later, the delivery stands first exactly if
the send's commit does not take the audit lock while the delivery waits for it
(`causality`). Both directions are invariants along the part of the run that follows the
write : as long as the delivery is on its way the commit has not begun
(`Unovertaken`), or the commit has begun and the delivery waits (`Overtaken`).
-/

namespace AgentHub

/-- The `delivery` event of the task is on its way into the log. -/
def Pc.delivering : Pc → Bool
  | .auditing .waiting (.delivery _ _ _ _) _ | .auditing .locked (.delivery _ _ _ _) _ => true
  | _ => false

/-- The `delivery` event of the task waits for the audit lock. -/
def Pc.awaitsLog : Pc → Bool
  | .auditing .waiting (.delivery _ _ _ _) _ => true
  | _ => false

/-- The append of the task's `delivery` event has returned. -/
def Pc.delivered : Pc → Bool
  | .auditing .appended (.delivery _ _ _ _) .finish | .finished => true
  | _ => false

/-- The commit of the task has taken the audit lock. -/
def Pc.committed : Pc → Bool
  | .committing .waiting _ _ => false
  | .committing _ _ _ => true
  | _ => false

/-- A `delivery` event of the connection `c` is in the log. -/
def Obs.LogsDelivery (c : ConnId) (o : Obs) : Prop :=
  ∃ ts id name peer, o = .logged c (.delivery ts id name peer)

/-- An envelope is accepted on the connection `c`. -/
def Obs.Accepts (c : ConnId) (o : Obs) : Prop :=
  ∃ role ts x, o = .accepted c role ts x

/-- Whether the append of an event failed. -/
def Obs.fails : Obs → Bool
  | .unlogged _ _ | .refused _ _ _ => true
  | _ => false

/-- Whether a send of the agent is accepted on the connection. -/
def Obs.acceptsSend (c : ConnId) (name : String) : Obs → Bool
  | .accepted d (.send n) _ _ => d = c ∧ n = name
  | _ => false

section Task

variable {L : Libs} {roster : Roster} {now : DateTime} {c : ConnId} {k k' : Conn} {t obs : List Obs}

theorem locks_of_delivering {pc : Pc} (h : pc.delivering = true) : pc.locks = true := by
  unfold Pc.delivering at h
  split at h <;> first | rfl | cases h

theorem locks_of_delivered {pc : Pc} (h : pc.delivered = true) : pc.locks = true := by
  unfold Pc.delivered at h
  split at h <;> first | rfl | cases h

theorem delivering_of_awaitsLog {pc : Pc} (h : pc.awaitsLog = true) : pc.delivering = true := by
  unfold Pc.awaitsLog at h
  split at h <;> first | rfl | cases h

theorem delivering_of_localStep (h : k.LocalStep L roster now c k' obs) {x : Stamped}
    (hx : k.pc.delivering = true ∨ .written c x ∈ obs) : k'.pc.delivering = true := by
  rcases hx with hx | hx
  · rwa [(peerClosed_of_localStep h (locks_of_delivering hx)).1]
  · cases h with
    | wroteAll => rfl
    | _ => simp at hx

/-- Under the audit lock the event is appended, or the append fails. -/
theorem delivering_of_sharedStep {i : Input} (h : k.SharedStep now c i k' obs)
    (hx : k.pc.delivering = true) :
    (i = .locked ∧ k'.pc.delivering = true ∧ obs = []) ∨
      ∃ ts id name peer, obs = [.logged c (.delivery ts id name peer)] ∨
        obs = [.unlogged c (.delivery ts id name peer)] := by
  cases h with
  | @lockedAudit event next hpc =>
    rw [hpc] at hx
    cases event with
    | delivery ts id name peer => exact Or.inl ⟨rfl, rfl, rfl⟩
    | _ => cases hx
  | @logged event next seq hpc =>
    rw [hpc] at hx
    cases event with
    | delivery ts id name peer => exact Or.inr ⟨ts, id, name, peer, Or.inl rfl⟩
    | _ => cases hx
  | @unlogged event next e hpc =>
    rw [hpc] at hx
    cases event with
    | delivery ts id name peer => exact Or.inr ⟨ts, id, name, peer, Or.inr rfl⟩
    | _ => cases hx
  | unlocked hpc =>
    generalize k.pc = p at hpc hx
    unfold Conn.afterUnlock at hpc
    split at hpc
    · cases hx
    · cases hx
    · cases hx
    · cases hx
    · cases hx
    · cases hpc
  | lockedCommit hpc | accepted hpc | refused hpc | routed hpc | took hpc | parked hpc | deregistered hpc
  | raceLost hpc | requeued hpc =>
    rw [hpc] at hx
    cases hx

/-- A written envelope's `delivery` event is on its way, or its append has returned. -/
theorem delivering_of_run (h : Conn.Run L roster c t k) {x : Stamped} (hx : .written c x ∈ t) :
    k.pc.delivering = true ∨ ∃ o ∈ t, o.LogsDelivery c ∨ ∃ event, o = .unlogged c event := by
  refine @Conn.Run.pending_or_closed L roster c (Pc.delivering · = true) (· = .written c x)
    (fun o => o.LogsDelivery c ∨ ∃ event, o = .unlogged c event)
    (fun hstep ho => Or.inl (delivering_of_localStep hstep (by simpa using ho)))
    (fun hstep ho => ?_) t k h ⟨_, hx, rfl⟩
  have hpc := ho.resolve_right (by
    rintro ⟨o, ho, rfl⟩
    exact (not_carried_of_sharedStep hstep).1 ho)
  rcases delivering_of_sharedStep hstep hpc with ⟨-, hpc', -⟩ | ⟨ts, id, name, peer, rfl | rfl⟩
  · exact Or.inl hpc'
  · exact Or.inr ⟨_, List.mem_singleton_self _, Or.inl ⟨ts, id, name, peer, rfl⟩⟩
  · exact Or.inr ⟨_, List.mem_singleton_self _, Or.inr ⟨_, rfl⟩⟩

/-- A `delivery` event is the last thing a task sees to. -/
def Pc.ClosesWithDelivery : Pc → Prop
  | .auditing _ (.delivery _ _ _ _) next => next = .finish
  | _ => True

theorem closesWithDelivery_of_localStep (h : k.LocalStep L roster now c k' obs)
    (hk : k.pc.ClosesWithDelivery) : k'.pc.ClosesWithDelivery := by
  cases h with
  | helloRefused hpc hfill hrefuse | verbRefused hpc hfill hrefuse => cases hrefuse <;> trivial
  | wroteAll hpc hobs => rfl
  | peerClosed => exact hk
  | _ => trivial

theorem delivered_of_sharedStep {i : Input} (h : k.SharedStep now c i k' obs)
    (hcloses : k.pc.ClosesWithDelivery) : k'.pc.ClosesWithDelivery ∧
      ((k.pc.delivered = true ∨ ∃ o ∈ obs, o.LogsDelivery c) → k'.pc.delivered = true) := by
  cases h with
  | @lockedAudit event next hpc | @unlogged event next e hpc =>
    rw [hpc] at hcloses
    refine ⟨?_, fun hk => ?_⟩
    · cases event <;> exact hcloses
    · rw [hpc] at hk
      cases event <;> simp [Pc.delivered, Obs.LogsDelivery] at hk
  | @logged event next seq hpc =>
    rw [hpc] at hcloses
    cases event with
    | delivery ts id name peer =>
      obtain rfl : next = .finish := hcloses
      exact ⟨rfl, fun _ => rfl⟩
    | connection | authFailure | accepted =>
      refine ⟨trivial, fun hk => ?_⟩
      rw [hpc] at hk
      simp [Pc.delivered, Obs.LogsDelivery] at hk
  | unlocked hpc =>
    generalize k.pc = p at hpc hcloses ⊢
    unfold Conn.afterUnlock at hpc
    split at hpc
    · rename_i event next
      cases next <;> cases hpc <;> cases event <;> simp_all [Pc.ClosesWithDelivery, Pc.delivered]
    · cases hpc
      exact ⟨trivial, by simp [Pc.delivered]⟩
    · cases hpc
      exact ⟨trivial, by simp [Pc.delivered]⟩
    · cases hpc
      exact ⟨trivial, by simp [Pc.delivered]⟩
    · cases hpc
      exact ⟨trivial, by simp [Pc.delivered]⟩
    · cases hpc
  | requeued hpc => exact ⟨trivial, fun _ => rfl⟩
  | lockedCommit hpc | accepted hpc | refused hpc | routed hpc | took hpc | parked hpc | deregistered hpc
  | raceLost hpc =>
    refine ⟨trivial, fun hk => ?_⟩
    rw [hpc] at hk
    simp [Pc.delivered, Obs.LogsDelivery] at hk

/-- Once its `delivery` event is in the log, a task has nothing left to log. -/
theorem delivered_of_run (h : Conn.Run L roster c t k) :
    k.pc.ClosesWithDelivery ∧ ((∃ o ∈ t, o.LogsDelivery c) → k.pc.delivered = true) := by
  induction h with
  | accepted => exact ⟨trivial, by simp⟩
  | @«local» now t obs k k' _ hstep ih =>
    refine ⟨closesWithDelivery_of_localStep hstep ih.1, ?_⟩
    rintro ⟨o, ho, hlog⟩
    rcases List.mem_append.1 ho with ho | ho
    · have hdelivered := ih.2 ⟨o, ho, hlog⟩
      rwa [(peerClosed_of_localStep hstep (locks_of_delivered hdelivered)).1]
    · obtain ⟨ts, id, name, peer, rfl⟩ := hlog
      have hmem : .delivery ts id name peer ∈ recordsOf obs := List.mem_filterMap.2 ⟨_, ho, rfl⟩
      rw [recordsOf_localStep hstep] at hmem
      cases hmem
  | shared _ hstep ih =>
    obtain ⟨hcloses, hdelivered⟩ := delivered_of_sharedStep hstep ih.1
    refine ⟨hcloses, ?_⟩
    rintro ⟨o, ho, hlog⟩
    rcases List.mem_append.1 ho with ho | ho
    · exact hdelivered (Or.inl (ih.2 ⟨o, ho, hlog⟩))
    · exact hdelivered (Or.inr ⟨o, ho, hlog⟩)
  | channel _ _ ih => exact ih

/-- A commit begins by taking the audit lock. -/
theorem committed_of_localStep (h : k.LocalStep L roster now c k' obs)
    (hk : k.pc.committed = false) : k'.pc.committed = false := by
  cases h with
  | helloRefused hpc hfill hrefuse | verbRefused hpc hfill hrefuse => cases hrefuse <;> rfl
  | peerClosed => exact hk
  | _ => rfl

theorem committed_of_sharedStep {i : Input} (h : k.SharedStep now c i k' obs)
    (hk : k.pc.committed = false) : (k'.pc.committed = false ∧ ∀ o ∈ obs, ¬o.Accepts c) ∨
      (i = .locked ∧ (∃ role e, k.pc = .committing .waiting role e) ∧ obs = []) := by
  cases h with
  | @lockedCommit role e hpc => exact Or.inr ⟨rfl, ⟨role, e, hpc⟩, rfl⟩
  | accepted hpc | refused hpc | routed hpc =>
    rw [hpc] at hk
    cases hk
  | unlocked hpc =>
    refine Or.inl ⟨?_, by simp⟩
    generalize k.pc = p at hpc
    unfold Conn.afterUnlock at hpc
    split at hpc
    · rename_i next
      cases next <;> cases hpc <;> rfl
    · cases hpc
      rfl
    · cases hpc
      rfl
    · cases hpc
      rfl
    · cases hpc
      rfl
    · cases hpc
  | _ => exact Or.inl ⟨rfl, by simp [Obs.Accepts]⟩

end Task

namespace Hub

variable {L : Libs} {roster : Roster} {audit : AuditLog} {s₀ s s' : Hub} {c d : ConnId}

/-- Every append has returned `Ok`. -/
def AppendsSucceed (s : Hub) : Prop :=
  (∀ c event, .unlogged c event ∉ s.trace) ∧ ∀ c role e, .refused c role e ∉ s.trace

/-- The `delivery` event of `x`, written on `c`, stands in the log before the acceptance of
`r` on `d`. -/
def DeliveryFirst (s : Hub) (c : ConnId) (x : Stamped) (d : ConnId) (r : Stamped) : Prop :=
  ∃ t₁ ts name peer t₂ role ts' t₃, s.trace = t₁ ++
    .logged c (.delivery ts x.envelope.id name peer) :: (t₂ ++ .accepted d role ts' r :: t₃)

/-- The commit of `d` takes the audit lock while the `delivery` event of `c` waits for it. -/
def Overtakes (c d : ConnId) (s : Hub) (a : DateTime × Action) : Prop :=
  a.2 = .lockAudit d ∧ (∃ role e, s.pc d = some (.committing .waiting role e)) ∧
    ∃ pc, s.pc c = some pc ∧ pc.awaitsLog = true

theorem pc_eq_of_conns {k : Conn} (hk : s.conns c = some k) : s.pc c = some k.pc := by
  simp [Hub.pc, hk]

/-- The `delivery` event of `c` is on its way, and the commit of `d` has not begun. -/
structure Undecided (c d : ConnId) (s : Hub) : Prop where
  delivering : ∃ pc, s.pc c = some pc ∧ pc.delivering = true
  uncommitted : ∀ pc, s.pc d = some pc → pc.committed = false
  unaccepted : ∀ o ∈ s.trace, ¬o.Accepts d

/-- The commit of `d` has not come before the `delivery` event of `c`, but for a failed
append. -/
def Unovertaken (c d : ConnId) (s : Hub) : Prop :=
  (∃ event, .unlogged c event ∈ s.trace) ∨ Undecided c d s ∨
    Precedes (Obs.LogsDelivery c) (Obs.Accepts d) s.trace

theorem Undecided.next {obs : List Obs} (h : Undecided c d s) (htrace : s'.trace = s.trace ++ obs)
    (hobs : ∀ o ∈ obs, ¬o.Accepts d) (hc : ∃ pc, s'.pc c = some pc ∧ pc.delivering = true)
    (hd : ∀ pc, s'.pc d = some pc → pc.committed = false) : Undecided c d s' := by
  refine ⟨hc, hd, fun o ho => ?_⟩
  rw [htrace] at ho
  exact (List.mem_append.1 ho).elim (h.unaccepted o) (hobs o)

/-- A step of the delivering task appends its event, or leaves it on its way. -/
theorem Undecided.byDelivery {a : DateTime × Action} (h : Undecided c d s) (hcd : d ≠ c)
    (hstep : Step L roster s a s') (hconn : a.2.conn = c) : Unovertaken c d s' := by
  have hd : s'.pc d = s.pc d := pc_of_step hstep (hconn ▸ hcd)
  obtain ⟨pc, hpc, hdel⟩ := h.delivering
  have htask := task_of_step hstep
  rw [hconn] at htask
  rcases htask with ⟨hnone, -⟩ | ⟨k, k', obs, hk, hk', htrace, hlocal | ⟨i, hshared, -⟩⟩
  · simp [Hub.pc, hnone] at hpc
  · obtain rfl := Option.some.inj ((pc_eq_of_conns hk).symm.trans hpc)
    have hdel' := delivering_of_localStep hlocal (x := default) (Or.inl hdel)
    refine Or.inr (Or.inl (h.next htrace (fun o ho => ?_) ⟨_, hk', hdel'⟩ (hd ▸ h.uncommitted)))
    rintro ⟨role, ts, x, rfl⟩
    exact not_accepted_of_localStep hlocal ho
  · obtain rfl := Option.some.inj ((pc_eq_of_conns hk).symm.trans hpc)
    rcases delivering_of_sharedStep hshared hdel with ⟨-, hdel', rfl⟩ | ⟨ts, id, name, peer, rfl | rfl⟩
    · exact Or.inr (Or.inl (h.next htrace (by simp) ⟨_, hk', hdel'⟩ (hd ▸ h.uncommitted)))
    · rw [Unovertaken, htrace]
      exact Or.inr (Or.inr (.concat ⟨ts, id, name, peer, rfl⟩ h.unaccepted))
    · exact Or.inl ⟨.delivery ts id name peer, by rw [htrace]; simp⟩

/-- The commit cannot begin : the lock is held by the delivering task, or taken before it. -/
theorem Undecided.byCommit {a : DateTime × Action} (h : Undecided c d s) (hcd : d ≠ c)
    (horder : AuditOrder s) (ha : ¬Overtakes c d s a) (hstep : Step L roster s a s')
    (hconn : a.2.conn = d) : Undecided c d s' := by
  have hc : s'.pc c = s.pc c := pc_of_step hstep (hconn ▸ hcd.symm)
  obtain ⟨pc, hpc, hdel⟩ := h.delivering
  have htask := task_of_step hstep
  rw [hconn] at htask
  have hnext : ∀ {pc'}, s'.pc d = some pc' → pc'.committed = false →
      ∀ pc, s'.pc d = some pc → pc.committed = false := by
    intro pc' hpc' hcom pc hpc
    obtain rfl := Option.some.inj (hpc'.symm.trans hpc)
    exact hcom
  rcases htask with ⟨-, htrace, event, hpc'⟩ | ⟨k, k', obs, hk, hk', htrace, hstep'⟩
  · have htrace' : s'.trace = s.trace ++ [] := by simpa using htrace
    exact h.next htrace' (by simp) (hc ▸ h.delivering) (hnext hpc' rfl)
  have hcom := h.uncommitted k.pc (pc_eq_of_conns hk)
  rcases hstep' with hlocal | ⟨i, hshared, hlock⟩
  · refine h.next htrace (fun o ho => ?_) (hc ▸ h.delivering)
      (hnext hk' (committed_of_localStep hlocal hcom))
    rintro ⟨role, ts, x, rfl⟩
    exact not_accepted_of_localStep hlocal ho
  · rcases committed_of_sharedStep hshared hcom with ⟨hcom', hno⟩ | ⟨rfl, ⟨role, e, hwait⟩, -⟩
    · exact h.next htrace hno (hc ▸ h.delivering) (hnext hk' hcom')
    · obtain ⟨hlockd, hfree⟩ := hlock rfl
      obtain ⟨kc, hkc, rfl⟩ := pc_eq_some.1 hpc
      cases hpc' : kc.pc with
      | auditing phase event next =>
        rw [hpc'] at hdel
        cases phase with
        | waiting =>
          refine absurd ⟨hlockd, ⟨role, e, hwait ▸ pc_eq_of_conns hk⟩, kc.pc, hpc, ?_⟩ ha
          rw [hpc']
          cases event <;> first | rfl | cases hdel
        | locked =>
          have := horder.holder c kc hkc (by rw [hpc']; rfl)
          rw [hfree] at this
          cases this
        | appended => cases hdel
      | _ => simp [hpc', Pc.delivering] at hdel

theorem Unovertaken.step {a : DateTime × Action} (h : Unovertaken c d s) (hcd : d ≠ c)
    (horder : AuditOrder s) (ha : ¬Overtakes c d s a) (hstep : Step L roster s a s') :
    Unovertaken c d s' := by
  obtain ⟨obs, htrace, hobs⟩ := emits_of_step hstep
  rcases h with ⟨event, he⟩ | h | h
  · exact Or.inl ⟨event, by rw [htrace]; exact List.mem_append_left _ he⟩
  · by_cases hac : a.2.conn = c
    · exact h.byDelivery hcd hstep hac
    by_cases had : a.2.conn = d
    · exact Or.inr (Or.inl (h.byCommit hcd horder ha hstep had))
    · have hc : s'.pc c = s.pc c := pc_of_step hstep (Ne.symm hac)
      have hd : s'.pc d = s.pc d := pc_of_step hstep (Ne.symm had)
      refine Or.inr (Or.inl (h.next htrace (fun o ho => ?_) (hc ▸ h.delivering) (hd ▸ h.uncommitted)))
      rintro ⟨role, ts, x, rfl⟩
      exact had (hobs _ ho).symm
  · exact Or.inr (Or.inr (htrace ▸ h.append obs))

/-- A send whose verb is not read has not begun its commit. -/
theorem uncommitted_of_unread (h : Reach L roster audit s)
    (hunread : ∀ name line, .verb d name line ∉ s.trace) :
    (∀ pc, s.pc d = some pc → pc.committed = false) ∧ ∀ o ∈ s.trace, ¬o.Accepts d := by
  refine ⟨fun pc hpc => ?_, ?_⟩
  · obtain ⟨k, hk, rfl⟩ := pc_eq_some.1 hpc
    have hknown := (known_of_run (run_of_reach h hk)).1
    cases hpc' : k.pc with
    | committing phase role e =>
      rw [hpc'] at hknown
      obtain ⟨name, line, hverb⟩ := hknown.1.verb
      exact absurd (mem_traceOf.1 hverb).1 (hunread name line)
    | _ => rfl
  · rintro o ho ⟨role, ts, x, rfl⟩
    obtain ⟨name, line, hverb⟩ := (role_of_accepted h ho).verb
    exact hunread name line hverb

/-- When an envelope is written, the sends that are not read yet have not overtaken it. -/
theorem unovertaken_of_written (h : Reach L roster audit s) {x : Stamped} (hx : .written c x ∈ s.trace)
    (hunread : ∀ name line, .verb d name line ∉ s.trace) : d ≠ c ∧ Unovertaken c d s := by
  obtain ⟨hcom, hacc⟩ := uncommitted_of_unread h hunread
  obtain ⟨k, hk⟩ : ∃ k, s.conns c = some k := exists_conn_of_mem h hx
  refine ⟨?_, ?_⟩
  · rintro rfl
    obtain ⟨pre, hpre, hawaits⟩ := grounded_of_mem h hx
    obtain ⟨name, line, hverb⟩ := hawaits.choose_spec.verb
    exact hunread name line (mem_traceOf.1 (hpre hverb)).1
  · rcases delivering_of_run (run_of_reach h hk) (mem_traceOf.2 ⟨hx, rfl⟩) with
      hdel | ⟨o, ho, hlog | ⟨event, rfl⟩⟩
    · exact Or.inr (Or.inl ⟨⟨k.pc, pc_eq_of_conns hk, hdel⟩, hcom, hacc⟩)
    · exact Or.inr (Or.inr (.of_mem (mem_traceOf.1 ho).1 hlog hacc))
    · exact Or.inl ⟨event, (mem_traceOf.1 ho).1⟩

/-- The commit of `d` has begun, and the `delivery` event of `c` waits. -/
structure Overtaking (c d : ConnId) (s : Hub) : Prop where
  waiting : ∃ pc, s.pc c = some pc ∧ pc.awaitsLog = true
  locked : ∃ role e, s.pc d = some (.committing .locked role e)
  unlogged : ∀ o ∈ s.trace, ¬o.LogsDelivery c

/-- The `delivery` event of `c` has not come before the commit of `d`, but for a failed
append. -/
def Overtaken (c d : ConnId) (s : Hub) : Prop :=
  (∃ role e, .refused d role e ∈ s.trace) ∨ Overtaking c d s ∨
    Precedes (Obs.Accepts d) (Obs.LogsDelivery c) s.trace

theorem Overtaking.next {obs : List Obs} (h : Overtaking c d s) (htrace : s'.trace = s.trace ++ obs)
    (hobs : ∀ o ∈ obs, ¬o.LogsDelivery c) (hc : ∃ pc, s'.pc c = some pc ∧ pc.awaitsLog = true)
    (hd : ∃ role e, s'.pc d = some (.committing .locked role e)) : Overtaking c d s' := by
  refine ⟨hc, hd, fun o ho => ?_⟩
  rw [htrace] at ho
  exact (List.mem_append.1 ho).elim (h.unlogged o) (hobs o)

/-- The delivering task waits on. -/
theorem Overtaking.byDelivery {a : DateTime × Action} (h : Overtaking c d s) (hcd : d ≠ c)
    (horder : AuditOrder s) (hstep : Step L roster s a s') (hconn : a.2.conn = c) :
    Overtaking c d s' := by
  have hd : s'.pc d = s.pc d := pc_of_step hstep (hconn ▸ hcd)
  obtain ⟨pc, hpc, hwait⟩ := h.waiting
  have htask := task_of_step hstep
  rw [hconn] at htask
  rcases htask with ⟨hnone, -⟩ | ⟨k, k', obs, hk, hk', htrace, hlocal | ⟨i, hshared, hlock⟩⟩
  · simp [Hub.pc, hnone] at hpc
  · obtain rfl := Option.some.inj ((pc_eq_of_conns hk).symm.trans hpc)
    obtain ⟨hpc', rfl⟩ := peerClosed_of_localStep hlocal
      (locks_of_delivering (delivering_of_awaitsLog hwait))
    exact h.next htrace (by simp [Obs.LogsDelivery]) ⟨_, hk', hpc' ▸ hwait⟩ (hd ▸ h.locked)
  · -- the lock it would have to take is held by the commit
    obtain rfl := Option.some.inj ((pc_eq_of_conns hk).symm.trans hpc)
    obtain ⟨role, e, hpcd⟩ := h.locked
    obtain ⟨kd, hkd, hkd'⟩ := pc_eq_some.1 hpcd
    have hheld := horder.holder d kd hkd (by rw [hkd']; rfl)
    have hlocked : i = .locked := by
      cases hshared with
      | lockedAudit | lockedCommit => rfl
      | unlocked hpc' =>
        generalize k.pc = p at hpc' hwait
        unfold Conn.afterUnlock at hpc'
        split at hpc' <;> first | cases hwait | cases hpc'
      | logged hpc' | unlogged hpc' | accepted hpc' | refused hpc' | routed hpc' | took hpc' | parked hpc'
      | deregistered hpc' | raceLost hpc' | requeued hpc' =>
        rw [hpc'] at hwait
        cases hwait
    rw [(hlock hlocked).2] at hheld
    cases hheld

/-- The commit appends. -/
theorem Overtaking.byCommit {a : DateTime × Action} (h : Overtaking c d s) (hcd : d ≠ c)
    (hstep : Step L roster s a s') (hconn : a.2.conn = d) : Overtaken c d s' := by
  have hc : s'.pc c = s.pc c := pc_of_step hstep (hconn ▸ hcd.symm)
  obtain ⟨role, e, hpc⟩ := h.locked
  have htask := task_of_step hstep
  rw [hconn] at htask
  rcases htask with ⟨hnone, -⟩ | ⟨k, k', obs, hk, hk', htrace, hlocal | ⟨i, hshared, -⟩⟩
  · simp [Hub.pc, hnone] at hpc
  · have hpck := Option.some.inj ((pc_eq_of_conns hk).symm.trans hpc)
    obtain ⟨hpc', rfl⟩ := peerClosed_of_localStep hlocal (by rw [hpck]; rfl)
    exact Or.inr (Or.inl (h.next htrace (by simp [Obs.LogsDelivery]) (hc ▸ h.waiting)
      ⟨role, e, by rw [hk', hpc', hpck]⟩))
  · have hpck := Option.some.inj ((pc_eq_of_conns hk).symm.trans hpc)
    cases hshared with
    | accepted =>
      rw [Overtaken, htrace]
      exact Or.inr (Or.inr (.concat ⟨_, _, _, rfl⟩ h.unlogged))
    | @refused role' e' =>
      exact Or.inl ⟨role', e', by rw [htrace]; simp⟩
    | unlocked hpc' =>
      rw [hpck] at hpc'
      cases hpc'
    | lockedAudit hpc' | lockedCommit hpc' | logged hpc' | unlogged hpc' | routed hpc' | took hpc'
    | parked hpc' | deregistered hpc' | raceLost hpc' | requeued hpc' =>
      rw [hpck] at hpc'
      cases hpc'

theorem Overtaken.step {a : DateTime × Action} (h : Overtaken c d s) (hcd : d ≠ c)
    (horder : AuditOrder s) (hstep : Step L roster s a s') : Overtaken c d s' := by
  obtain ⟨obs, htrace, hobs⟩ := emits_of_step hstep
  rcases h with ⟨role, e, he⟩ | h | h
  · exact Or.inl ⟨role, e, by rw [htrace]; exact List.mem_append_left _ he⟩
  · by_cases hac : a.2.conn = c
    · exact Or.inr (Or.inl (h.byDelivery hcd horder hstep hac))
    by_cases had : a.2.conn = d
    · exact h.byCommit hcd hstep had
    · have hc : s'.pc c = s.pc c := pc_of_step hstep (Ne.symm hac)
      have hd : s'.pc d = s.pc d := pc_of_step hstep (Ne.symm had)
      refine Or.inr (Or.inl (h.next htrace (fun o ho => ?_) (hc ▸ h.waiting) (hd ▸ h.locked)))
      rintro ⟨ts, id, name, peer, rfl⟩
      exact hac (hobs _ ho).symm
  · exact Or.inr (Or.inr (htrace ▸ h.append obs))

/-- What a step that overtakes leads to. -/
theorem overtaking_of_overtakes {a : DateTime × Action} (h : Reach L roster audit s)
    (ha : Overtakes c d s a) (hcd : d ≠ c) (hstep : Step L roster s a s') : Overtaking c d s' := by
  obtain ⟨hlock, ⟨role, e, hpcd⟩, pc, hpc, hwait⟩ := ha
  have hconn : a.2.conn = d := by rw [hlock]; rfl
  have hc : s'.pc c = s.pc c := pc_of_step hstep (hconn ▸ hcd.symm)
  obtain ⟨k, hk, rfl⟩ := pc_eq_some.1 hpc
  have hnone : ∀ o ∈ s.trace, ¬o.LogsDelivery c := by
    rintro o ho ⟨ts, id, name, peer, rfl⟩
    have hdone := (delivered_of_run (run_of_reach h hk)).2
      ⟨_, mem_traceOf.2 ⟨ho, rfl⟩, ts, id, name, peer, rfl⟩
    generalize k.pc = pc at hwait hdone
    unfold Pc.awaitsLog at hwait
    split at hwait <;> first | cases hdone | cases hwait
  cases hstep with
  | lockAudit hfree hk' hstep =>
    cases hlock
    obtain ⟨kd, hkd, hpcd⟩ := pc_eq_some.1 hpcd
    obtain rfl := Option.some.inj (hk'.symm.trans hkd)
    cases hstep with
    | @lockedCommit role' e' hpc' =>
      exact ⟨⟨k.pc, hc ▸ hpc, hwait⟩, ⟨role', e', by simp [Hub.pc, put_conns]⟩, by simpa using hnone⟩
    | lockedAudit hpc' =>
      rw [hpcd] at hpc'
      cases hpc'
  | _ => cases hlock

/-- The connection that has written `x` logs the delivery of `x`. -/
theorem id_of_logged (h : Reach L roster audit s) {x : Stamped} (hx : .written c x ∈ s.trace)
    {ts : DateTime} {id name peer : String} (hlog : .logged c (.delivery ts id name peer) ∈ s.trace) :
    id = x.envelope.id := by
  obtain ⟨pre, hpre, -, y, hy, rfl⟩ := grounded_of_mem h hlog
  obtain ⟨n, hmarks⟩ := marked_of_reach h c
  cases hmarks.eq_of_mem (hpre hy) (mem_traceOf.2 ⟨hx, rfl⟩) rfl rfl
  rfl

/-- Let `x` be written on `c` before the verb of `d` is read, and `r` accepted on `d`, in a
run in which every append succeeds. The delivery of `x` stands in the log before the
acceptance of `r` exactly if in no step of the run the commit of `d` takes the audit lock
while the `delivery` event of `c` waits for it. -/
theorem causality (h₀ : Reach L roster audit s₀) (h : Machine.Reach (step L roster) s₀ s)
    (hsucceed : AppendsSucceed s) {x r : Stamped} {role : Role} {ts : DateTime}
    (hwritten : .written c x ∈ s₀.trace) (hunread : ∀ name line, .verb d name line ∉ s₀.trace)
    (haccepted : .accepted d role ts r ∈ s.trace) :
    DeliveryFirst s c x d r ↔
      Machine.ReachVia (step L roster) (fun s a => ¬Overtakes c d s a) s₀ s := by
  have hreach : Reach L roster audit s := h₀.trans h
  obtain ⟨hcd, hstart⟩ := unovertaken_of_written h₀ hwritten hunread
  constructor
  · rintro ⟨t₁, ts', name, peer, t₂, role', ts'', t₃, hsplit⟩
    have hlog : .logged c (.delivery ts' x.envelope.id name peer) ∈ s.trace := by rw [hsplit]; simp
    refine h.via fun s₁ a s₂ h₁ hs h₂ hover => ?_
    have hreach₁ : Reach L roster audit s₁ := h₀.trans h₁
    have hover₂ : Overtaken c d s₂ :=
      Or.inr (Or.inl (overtaking_of_overtakes hreach₁ hover hcd (step_cases hs)))
    have hend : Overtaken c d s := Machine.ReachVia.invariant (P := Overtaken c d) h₂ hover₂
      fun s₃ b s₄ hr hP _ hs' => hP.step hcd
        (auditOrder_of_reach ((hreach₁.next trivial hs).trans hr)) (step_cases hs')
    rcases hend with ⟨role, e, hr⟩ | hend | ⟨u₁, o, u₂, hsplit', ⟨role₂, ts₂, y, rfl⟩, hu₁⟩
    · exact hsucceed.2 d role e hr
    · exact hend.unlogged _ hlog ⟨ts', _, name, peer, rfl⟩
    · have hsplit'' : s.trace = (t₁ ++ .logged c (.delivery ts' x.envelope.id name peer) :: t₂) ++
          .accepted d role' ts'' r :: t₃ := by
        rw [hsplit, List.append_assoc, List.cons_append]
      have hmem : .logged c (.delivery ts' x.envelope.id name peer) ∈ u₁ := by
        rw [split_unique hreach hsplit' hsplit'' rfl rfl rfl]
        simp
      exact hu₁ _ hmem ⟨ts', _, name, peer, rfl⟩
  · intro hvia
    have hend : Unovertaken c d s := Machine.ReachVia.invariant (P := Unovertaken c d) hvia hstart
      fun s₁ a s₂ hr hP hq hs => hP.step hcd (auditOrder_of_reach (h₀.trans hr.reach)) hq (step_cases hs)
    rcases hend with ⟨event, hu⟩ | hend | hend
    · exact absurd hu (hsucceed.1 c event)
    · exact absurd ⟨role, ts, r, rfl⟩ (hend.unaccepted _ haccepted)
    · obtain ⟨t₁, o, t₂, t₃, hsplit, ts', id, name, peer, rfl⟩ := hend.split
        (by rintro o ⟨ts, id, name, peer, rfl⟩ ⟨role, ts', y, heq⟩; cases heq) haccepted ⟨role, ts, r, rfl⟩
      have hwritten' := (trace_prefix_of_reach h).subset hwritten
      have hlogged : .logged c (.delivery ts' id name peer) ∈ s.trace := by
        rw [hsplit]
        simp
      obtain rfl := id_of_logged hreach hwritten' hlogged
      exact ⟨t₁, ts', name, peer, t₂, role, ts, t₃, hsplit⟩

/-- The `accepted` events of a trace as `false`, the `delivery` events as `true`. -/
def deliveriesOf (trace : List Obs) : List Bool :=
  (recordsOf trace).filterMap fun
    | .accepted _ _ => some false
    | .delivery _ _ _ _ => some true
    | _ => none

theorem sublist_of_deliveryFirst {x r : Stamped} (h : DeliveryFirst s c x d r) :
    [true, false].Sublist (deliveriesOf s.trace) := by
  obtain ⟨t₁, ts, name, peer, t₂, role, ts', t₃, hsplit⟩ := h
  have hsub : [.logged c (.delivery ts x.envelope.id name peer), .accepted d role ts' r].Sublist s.trace := by
    rw [hsplit]
    refine List.sublist_append_of_sublist_right (.cons_cons _ ?_)
    exact List.sublist_append_of_sublist_right (.cons_cons _ (List.nil_sublist _))
  have hdeliveries : (deliveriesOf [.logged c (.delivery ts x.envelope.id name peer),
      .accepted d role ts' r]).Sublist (deliveriesOf s.trace) := (hsub.filterMap _).filterMap _
  exact hdeliveries

/-- `bob`'s task is written to `alice`, and she answers it before its delivery is logged. -/
theorem overtaking_run : ∃ s₀ s x r ts, SampleReach s₀ ∧
    Machine.Reach (step sampleLibs sampleRoster) s₀ s ∧ AppendsSucceed s ∧ Awaits 0 s₀.trace "alice" ∧
    .written 0 x ∈ s₀.trace ∧ s₀.conns 3 = none ∧ .accepted 3 (.send "alice") ts r ∈ s.trace ∧
    deliveriesOf s.trace = [false, false, true] := by
  obtain ⟨s₀, s, h₀, h, hP⟩ := @exists_of_runSample_append
    (opening 0 aliceHello.bytes awaitAny.bytes ++ [.await 0] ++
      opening 1 bobHello.bytes sendTask.bytes ++ committing 1 (sampleEnvelope "m1" "task") ++
      [.task 0 .polled, delivering 0 (sampleEnvelope "m1" "task")])
    (opening 3 aliceHello.bytes sendReply.bytes ++ committing 3 sampleReply ++
      [.lockAudit 0, .append 0 (whole (.delivery 0 "m1" "alice" "127.0.0.1:49152")), .unlockAudit 0])
    (fun s₀ s => (s.trace.all fun o => !o.fails) ∧
      ((writtenTo 0 s₀.trace).any fun x => x.envelope.to = "alice") ∧ (s₀.conns 3).isNone ∧
      s.trace.any (Obs.acceptsSend 3 "alice") ∧ deliveriesOf s.trace = [false, false, true])
    (by decide +kernel)
  obtain ⟨hsucceed, hwritten, hnew, haccepted, horder⟩ := of_decide_eq_true hP
  rw [List.all_eq_true] at hsucceed
  have hsucceed' : AppendsSucceed s :=
    ⟨fun c event hu => absurd (hsucceed _ hu) (by simp [Obs.fails]),
      fun c role e hr => absurd (hsucceed _ hr) (by simp [Obs.fails])⟩
  obtain ⟨x, hx, hto⟩ := List.any_eq_true.1 hwritten
  have hawaits : Awaits 0 s₀.trace x.envelope.to := for_of_held (p := .written 0) h₀ hx
  rw [of_decide_eq_true hto] at hawaits
  obtain ⟨o, ho, hacc⟩ := List.any_eq_true.1 haccepted
  cases o with
  | accepted d role ts r =>
    cases role with
    | send name =>
      obtain ⟨rfl, rfl⟩ := of_decide_eq_true hacc
      exact ⟨s₀, s, x, r, ts, h₀, h, hsucceed', hawaits, mem_writtenTo.1 hx, by simpa using hnew,
        ho, horder⟩
    | bounce => cases hacc
  | _ => cases hacc

/-- The log has `alice`'s answer before the delivery that she answers. -/
theorem exists_overtaking : ∃ s₀ s x r ts, SampleReach s₀ ∧
    Machine.Reach (step sampleLibs sampleRoster) s₀ s ∧ AppendsSucceed s ∧ Awaits 0 s₀.trace "alice" ∧
    .written 0 x ∈ s₀.trace ∧ s₀.conns 3 = none ∧ .accepted 3 (.send "alice") ts r ∈ s.trace ∧
    ¬DeliveryFirst s 0 x 3 r := by
  obtain ⟨s₀, s, x, r, ts, h₀, h, hsucceed, hawait, hwritten, hnew, haccepted, horder⟩ := overtaking_run
  refine ⟨s₀, s, x, r, ts, h₀, h, hsucceed, hawait, hwritten, hnew, haccepted, fun hfirst => ?_⟩
  have hsub := sublist_of_deliveryFirst hfirst
  rw [horder] at hsub
  exact absurd hsub (by decide)

/-- In that run the commit of the answer overtakes the delivery. -/
theorem causality_overtaking : ∃ s₀ s x, .written 0 x ∈ s₀.trace ∧
    Machine.Reach (step sampleLibs sampleRoster) s₀ s ∧
    ¬Machine.ReachVia (step sampleLibs sampleRoster) (fun s a => ¬Overtakes 0 3 s a) s₀ s := by
  obtain ⟨s₀, s, x, r, ts, h₀, h, hsucceed, -, hwritten, hnew, haccepted, horder⟩ := overtaking_run
  have hunread : ∀ name line, .verb 3 name line ∉ s₀.trace := by
    intro name line hverb
    obtain ⟨k, hk⟩ := exists_conn_of_mem h₀ hverb
    rw [show (Obs.verb 3 name line).conn = 3 from rfl, hnew] at hk
    cases hk
  refine ⟨s₀, s, x, hwritten, h, fun hvia => ?_⟩
  have hsub := sublist_of_deliveryFirst ((causality h₀ h hsucceed hwritten hunread haccepted).2 hvia)
  rw [horder] at hsub
  exact absurd hsub (by decide)

end Hub

end AgentHub
