import AgentHub.Lib.Marks
import AgentHub.Lib.Trace
import AgentHub.TaskSteps

/-!
# Runs of one task

A connection seen alone : its steps, and the changes other tasks make to its handoff
channel (`Conn.Run`). The trace of such a run holds what the connection emits.

A task passes through stages and never goes back (`Pc.stage`), and each observation that
marks progress comes at its stage (`Obs.stage`), at most one at a stage (`marked_of_run`).
What a task may rely on at a program point is in its trace (`Pc.Known`), and each
observation is grounded in earlier ones (`Obs.Grounded`). What an observation commits the
task to is shown step by step (`Conn.Run.pending_or_closed`).
-/

namespace AgentHub

/-- The runs of the connection `c`, with the trace of each. -/
inductive Conn.Run (L : Libs) (roster : Roster) (c : ConnId) : List Obs → Conn → Prop
  | accepted (now : DateTime) (peer : String) : Run L roster c [] (.accepted now peer)
  | «local» {now : DateTime} {t obs : List Obs} {k k' : Conn} (h : Run L roster c t k)
      (hstep : k.LocalStep L roster now c k' obs) : Run L roster c (t ++ obs) k'
  | shared {now : DateTime} {i : Input} {t obs : List Obs} {k k' : Conn} (h : Run L roster c t k)
      (hstep : k.SharedStep now c i k' obs) : Run L roster c (t ++ obs) k'
  | channel {t : List Obs} {k : Conn} {chan : Oneshot Stamped} (h : Run L roster c t k)
      (hrx : chan.rxAlive = k.chan.rxAlive) : Run L roster c t { k with chan }

/-- An observation that opens something pending at a program point : it is pending, as long
as every step keeps it so or emits what closes it. -/
theorem Conn.Run.pending_or_closed {L : Libs} {roster : Roster} {c : ConnId} {pending : Pc → Prop}
    {opens closes : Obs → Prop}
    (hlocal : ∀ {now : DateTime} {k k' : Conn} {obs : List Obs}, k.LocalStep L roster now c k' obs →
      (pending k.pc ∨ ∃ o ∈ obs, opens o) → pending k'.pc ∨ ∃ o ∈ obs, closes o)
    (hshared : ∀ {now : DateTime} {i : Input} {k k' : Conn} {obs : List Obs},
      k.SharedStep now c i k' obs →
      (pending k.pc ∨ ∃ o ∈ obs, opens o) → pending k'.pc ∨ ∃ o ∈ obs, closes o)
    {t : List Obs} {k : Conn} (h : Conn.Run L roster c t k) (ho : ∃ o ∈ t, opens o) :
    pending k.pc ∨ ∃ o ∈ t, closes o := by
  have happend : ∀ {pc pc' : Pc} {t obs : List Obs},
      ((∃ o ∈ t, opens o) → pending pc ∨ ∃ o ∈ t, closes o) →
      ((pending pc ∨ ∃ o ∈ obs, opens o) → pending pc' ∨ ∃ o ∈ obs, closes o) →
      (∃ o ∈ t ++ obs, opens o) → pending pc' ∨ ∃ o ∈ t ++ obs, closes o := by
    intro pc pc' t obs ih hstep ho
    simp only [List.mem_append, or_and_right, exists_or] at ho ⊢
    rcases ho with ho | ho
    · rcases ih ho with hp | hc
      · exact (hstep (Or.inl hp)).imp_right Or.inr
      · exact Or.inr (Or.inl hc)
    · exact (hstep (Or.inr ho)).imp_right Or.inr
  induction h with
  | accepted => simp at ho
  | «local» _ hstep ih => exact happend ih (hlocal hstep) ho
  | shared _ hstep ih => exact happend ih (hshared hstep) ho
  | channel _ _ ih => exact ih ho

/-! ## Stages -/

def AuditNext.stage : AuditNext → ℕ
  | .readHello => 0
  | .refuse _ => 4
  | .finish => 10

/-- How far a task has come. -/
def Pc.stage : Pc → ℕ
  | .auditing _ _ next => next.stage
  | .readHello _ => 1
  | .replying _ (.readVerb _) => 2
  | .readVerb _ _ => 3
  | .awaiting _ _ _ => 4
  | .parked _ _ _ => 5
  | .timerFired _ _ => 6
  | .lostRace _ => 7
  | .writing _ _ _ _ => 8
  | .requeueing _ _ _ => 9
  | .bouncing _ _ => 10
  | .committing .waiting _ _ => 11
  | .committing .locked _ _ => 12
  | .committing (.appended _) _ _ => 13
  | .committing (.routed _) _ _ => 14
  | .committing (.failed _) _ _ => 14
  | .replying _ .finish => 19
  | .finished => 20
  | .dead => 20

/-- The stage an observation marks. The three ends of a delivery mark one stage, and so do
the two results of an append for a commit. -/
def Obs.stage : Obs → Option ℕ
  | .authenticated _ _ => some 2
  | .verb _ _ _ => some 4
  | .parked _ _ _ => some 5
  | .took _ _ => some 8
  | .written _ _ | .lost _ _ | .routed _ _ .front _ => some 10
  | .accepted _ _ _ _ | .refused _ _ _ => some 13
  | .routed _ _ .back _ => some 14
  | .deregistered _ => some 19
  | .answered _ _ => some 20
  | .logged _ _ | .unlogged _ _ | .bytes _ _ | .peerClosed _ => none

section Stages

variable {L : Libs} {roster : Roster} {now : DateTime} {c : ConnId}

theorem advances_of_localStep {k k' : Conn} {obs : List Obs}
    (h : k.LocalStep L roster now c k' obs) : Advances Obs.stage k.pc.stage obs k'.pc.stage := by
  cases h with
  | helloRefused hpc hfill hrefuse | verbRefused hpc hfill hrefuse =>
    cases hrefuse <;> simp [Advances, hpc, Pc.stage, AuditNext.stage]
  | handed hwaits | channelLost hwaits =>
    generalize k.pc = pc at hwaits
    cases hwaits <;> simp [Advances, Pc.stage]
  | died hmortal =>
    generalize k.pc = pc at hmortal
    cases hmortal <;> simp [Advances, Pc.stage]
  | wroteAll hpc hobs =>
    rcases hobs with rfl | rfl <;>
      simp [Advances, hpc, Pc.stage, AuditNext.stage, Obs.stage, List.filterMap_cons]
  | peerClosed => simp [Advances, Obs.stage]
  | _ => simp [Advances, *, Pc.stage, Obs.stage]

theorem advances_of_sharedStep {k k' : Conn} {obs : List Obs} {i : Input}
    (h : k.SharedStep now c i k' obs) : Advances Obs.stage k.pc.stage obs k'.pc.stage := by
  cases h with
  | unlocked hpc =>
    generalize k.pc = p at hpc
    unfold Conn.afterUnlock at hpc
    split at hpc
    · rename_i next
      cases next <;> cases hpc <;> simp [Advances, Pc.stage, AuditNext.stage]
    all_goals cases hpc
    all_goals simp [Advances, Pc.stage]
  | _ => simp [Advances, *, Pc.stage, Obs.stage]

/-- The observations of a task come in the order of their stages, each at most once. -/
theorem marked_of_run {t : List Obs} {k : Conn} (h : Conn.Run L roster c t k) :
    MarkedUpTo Obs.stage t k.pc.stage := by
  induction h with
  | accepted => exact .nil
  | «local» _ hstep ih => exact ih.advance (advances_of_localStep hstep)
  | shared _ hstep ih => exact ih.advance (advances_of_sharedStep hstep)
  | channel _ _ ih => exact ih

/-- A task emits observations of its own connection only. -/
theorem conn_of_localStep {k k' : Conn} {obs : List Obs} (h : k.LocalStep L roster now c k' obs) :
    ∀ o ∈ obs, o.conn = c := by
  cases h with
  | wroteAll hpc hobs => rcases hobs with rfl | rfl <;> simp [Obs.conn]
  | _ => simp [Obs.conn]

theorem conn_of_sharedStep {k k' : Conn} {obs : List Obs} {i : Input}
    (h : k.SharedStep now c i k' obs) : ∀ o ∈ obs, o.conn = c := by
  cases h <;> simp [Obs.conn]

end Stages

/-! ## What a task knows -/

/-- Whether the step that emits the observation is one on the routing state. -/
def Obs.reroutes : Obs → Bool
  | .routed _ _ _ _ | .took _ _ | .parked _ _ _ | .deregistered _ => true
  | _ => false

section Known

variable (L : Libs) (c : ConnId) (t : List Obs)

/-- The verb of the connection is an await of the agent `name`. -/
def Awaits (name : String) : Prop :=
  ∃ replyTo kind timeoutSecs, .verb c name (.await replyTo kind timeoutSecs) ∈ t

/-- Nothing in the trace comes from a step on the routing state. -/
def Quiet : Prop :=
  ∀ o ∈ t, o.reroutes = false

/-- Where the envelope `e`, committed in that role, comes from. -/
def Role.Known (e : Envelope) : Role → Prop
  | .send name => ∃ e₀ : Envelope, e₀.validate L.parseFromRfc3339 = .ok () ∧
      .verb c name (.send e₀) ∈ t ∧ e = { e₀ with «from» := name }
  | .bounce x name => .lost c x ∈ t ∧ x.envelope.from ≠ hubName ∧ Awaits c t name ∧
      ∃ now uuid, e = bounceEnvelope L now uuid x.envelope.id x.envelope.from name
        "delivery failed after partial write"

def CommitPhase.Known (role : Role) (e : Envelope) : CommitPhase → Prop
  | .waiting | .locked | .failed _ => ∀ name, role = .send name → Quiet t
  | .appended x => x.envelope = e ∧ (∃ ts, .accepted c role ts x ∈ t) ∧
      ∀ name, role = .send name → Quiet t
  | .routed x => x.envelope = e ∧ (∃ ts, .accepted c role ts x ∈ t) ∧
      ∃ outcome, .routed c x .back outcome ∈ t

/-- What stands behind the last reply of a connection. -/
def ServerLine.Known : ServerLine → Prop
  | .accepted id => ∃ name ts x outcome, .accepted c (.send name) ts x ∈ t ∧
      .routed c x .back outcome ∈ t ∧ x.envelope.id = id
  | .timeout => .deregistered c ∈ t
  | .error _ => Quiet t ∨ ∃ name, Awaits c t name
  | _ => True

/-- What stands behind an event given to `audit_append`. -/
def AuditEvent.Known : AuditEvent → Prop
  | .accepted _ _ => False
  | .delivery _ id name _ => Awaits c t name ∧ ∃ x, .written c x ∈ t ∧ x.envelope.id = id
  | _ => True

def Pc.Known : Pc → Prop
  | .auditing _ event _ => event.Known c t
  | .replying line .finish => line.Known c t
  | .replying _ (.readVerb name) | .readVerb name _ => .authenticated c name ∈ t
  | .awaiting name filter timeoutSecs =>
      .verb c name (.await filter.replyTo filter.kind timeoutSecs) ∈ t
  | .parked name waiterId _ | .timerFired name waiterId =>
      Awaits c t name ∧ .parked c name waiterId ∈ t
  | .lostRace name => Awaits c t name ∧ ∃ waiterId, .parked c name waiterId ∈ t
  | .writing name x _ written => Awaits c t name ∧ (0 < written → .bytes c x ∈ t)
  | .requeueing name _ _ => Awaits c t name
  | .bouncing name x => .lost c x ∈ t ∧ x.envelope.from ≠ hubName ∧ Awaits c t name
  | .committing phase role e => role.Known L c t e ∧ phase.Known c t role e
  | _ => True

/-- What stands before an observation. -/
def Obs.Grounded (pre : List Obs) : Obs → Prop
  | .verb c name _ => .authenticated c name ∈ pre
  | .logged c event | .unlogged c event => event.Known c pre
  | .accepted c role _ x => role.Known L c pre x.envelope
  | .refused c role e => role.Known L c pre e
  | .routed c x .back _ => ∃ role ts, .accepted c role ts x ∈ pre
  | .parked c name _ => Quiet pre ∧ Awaits c pre name
  | .took c _ => Quiet pre ∧ ∃ name, Awaits c pre name
  | .deregistered c => ∃ name waiterId, Awaits c pre name ∧ .parked c name waiterId ∈ pre
  | .routed c _ .front _ | .bytes c _ | .written c _ => ∃ name, Awaits c pre name
  | .lost c x => .bytes c x ∈ pre ∧ ∃ name, Awaits c pre name
  | .answered c line => line.Known c pre
  | .authenticated _ _ | .peerClosed _ => True

end Known

section Run

variable {L : Libs} {roster : Roster} {now : DateTime} {c : ConnId} {t : List Obs} {n : ℕ}

theorem Quiet.append {obs : List Obs} (h : Quiet t) (hobs : Quiet obs) : Quiet (t ++ obs) :=
  fun o ho => (List.mem_append.1 ho).elim (h o) (hobs o)

theorem Awaits.mono {t' : List Obs} {name : String} (h : Awaits c t name) (ht : t ⊆ t') :
    Awaits c t' name := by
  obtain ⟨replyTo, kind, timeoutSecs, hmem⟩ := h
  exact ⟨replyTo, kind, timeoutSecs, ht hmem⟩

theorem Role.Known.mono {t' : List Obs} {e : Envelope} {role : Role} (h : role.Known L c t e)
    (ht : t ⊆ t') : role.Known L c t' e := by
  cases role with
  | send name =>
    obtain ⟨e₀, hvalid, hmem, he⟩ := h
    exact ⟨e₀, hvalid, ht hmem, he⟩
  | bounce x name =>
    obtain ⟨hlost, hfrom, hawaits, he⟩ := h
    exact ⟨ht hlost, hfrom, hawaits.mono ht, he⟩

theorem AuditEvent.Known.mono {t' : List Obs} {event : AuditEvent} (h : event.Known c t)
    (ht : t ⊆ t') : event.Known c t' := by
  cases event with
  | delivery ts id name peer =>
    obtain ⟨hawaits, x, hx, hid⟩ := h
    exact ⟨hawaits.mono ht, x, ht hx, hid⟩
  | _ => exact h

/-- Knowledge survives observations that come from no step on the routing state. -/
theorem Pc.Known.append {obs : List Obs} {pc : Pc} (h : pc.Known L c t) (hobs : Quiet obs) :
    pc.Known L c (t ++ obs) := by
  have ht : t ⊆ t ++ obs := List.subset_append_left t obs
  cases pc with
  | auditing phase event next => exact AuditEvent.Known.mono h ht
  | replying line next =>
    cases next with
    | readVerb name => exact ht h
    | finish =>
      cases line with
      | error message =>
        exact h.imp (fun hq => hq.append hobs) fun ha => ha.imp fun _ ha => ha.mono ht
      | accepted id =>
        obtain ⟨name, ts, x, outcome, ha, hr, hid⟩ := h
        exact ⟨name, ts, x, outcome, ht ha, ht hr, hid⟩
      | timeout => exact ht h
      | ok | envelope => trivial
  | readVerb name line => exact ht h
  | awaiting name filter timeoutSecs => exact ht h
  | parked name waiterId timeoutSecs => exact ⟨h.1.mono ht, ht h.2⟩
  | timerFired name waiterId => exact ⟨h.1.mono ht, ht h.2⟩
  | lostRace name => exact ⟨h.1.mono ht, h.2.imp fun _ hp => ht hp⟩
  | writing name x source written => exact ⟨h.1.mono ht, fun hw => ht (h.2 hw)⟩
  | requeueing name x source => exact Awaits.mono h ht
  | bouncing name x => exact ⟨ht h.1, h.2.1, h.2.2.mono ht⟩
  | committing phase role e =>
    refine ⟨h.1.mono ht, ?_⟩
    have hphase := h.2
    cases phase with
    | waiting | locked | failed => exact fun name hn => (hphase name hn).append hobs
    | appended x =>
      obtain ⟨he, ⟨ts, ha⟩, hq⟩ := hphase
      exact ⟨he, ⟨ts, ht ha⟩, fun name hn => (hq name hn).append hobs⟩
    | routed x =>
      obtain ⟨he, ⟨ts, ha⟩, outcome, hr⟩ := hphase
      exact ⟨he, ⟨ts, ht ha⟩, outcome, ht hr⟩
  | readHello | finished | dead => trivial

theorem five_le_stage {o : Obs} (h : o.reroutes = true) : ∃ i, o.stage = some i ∧ 5 ≤ i := by
  cases o with
  | routed c x placement outcome => cases placement <;> simp [Obs.stage]
  | took | parked | deregistered => simp [Obs.stage]
  | _ => cases h

/-- A task that has no verb yet, or just one, has made no step on the routing state. -/
theorem quiet_of_stage {k : Conn} (h : MarkedUpTo Obs.stage t k.pc.stage) (hk : k.pc.stage < 5) :
    Quiet t := by
  intro o ho
  by_contra hne
  obtain ⟨i, hi, h5⟩ := five_le_stage (by simpa using hne)
  have := h.le o ho i hi
  omega

theorem quiet_singleton {o : Obs} (h : o.reroutes = false) : Quiet [o] := by
  simpa [Quiet] using h

theorem grounded_singleton {o : Obs} (h : o.Grounded L t) :
    Justified (fun pre o => o.Grounded L (t ++ pre)) [o] :=
  (Justified.append_singleton (l := [])).2 ⟨.nil, by simpa using h⟩

/-- What a step that touches nothing shared leaves the task to know. -/
theorem known_of_localStep {k k' : Conn} {obs : List Obs} (h : k.LocalStep L roster now c k' obs)
    (hq : k.pc.stage < 5 → Quiet t) (hk : k.pc.Known L c t) :
    k'.pc.Known L c (t ++ obs) ∧ Justified (fun pre o => o.Grounded L (t ++ pre)) obs := by
  cases h with
  | helloMore hpc => exact ⟨trivial, .nil⟩
  | helloRefused hpc hfill hrefuse | verbRefused hpc hfill hrefuse =>
    have hquiet := hq (by simp [hpc, Pc.stage])
    cases hrefuse with
    | finished => exact ⟨trivial, .nil⟩
    | error message => exact ⟨Or.inl (by simpa using hquiet), .nil⟩
    | authFailure => exact ⟨trivial, .nil⟩
  | helloAccepted hpc => exact ⟨by simp [Pc.Known], grounded_singleton trivial⟩
  | verbMore hpc =>
    rw [hpc] at hk
    exact ⟨by simpa [Pc.Known] using hk, .nil⟩
  | verbInvalid hpc =>
    have hquiet := hq (by simp [hpc, Pc.stage])
    rw [hpc] at hk
    exact ⟨Or.inl (hquiet.append (quiet_singleton rfl)), grounded_singleton hk⟩
  | verbSend hpc hfill hvalid =>
    have hquiet := hq (by simp [hpc, Pc.stage])
    rw [hpc] at hk
    exact ⟨⟨⟨_, hvalid, by simp, rfl⟩, fun _ _ => hquiet.append (quiet_singleton rfl)⟩, grounded_singleton hk⟩
  | verbAwait hpc =>
    rw [hpc] at hk
    exact ⟨by simp [Pc.Known], grounded_singleton hk⟩
  | repliedVerb hpc =>
    rw [hpc] at hk
    exact ⟨by simpa [Pc.Known] using hk, .nil⟩
  | replyLost hpc => exact ⟨trivial, .nil⟩
  | answered hpc =>
    rw [hpc] at hk
    exact ⟨trivial, grounded_singleton hk⟩
  | handed hwaits hvalue =>
    generalize k.pc = pc at hwaits hk
    cases hwaits <;> exact ⟨⟨by simpa using hk.1, by simp⟩, .nil⟩
  | channelLost hwaits hvalue htx =>
    generalize k.pc = pc at hwaits hk
    cases hwaits <;> exact ⟨Or.inr ⟨_, by simpa using hk.1⟩, .nil⟩
  | timer hpc =>
    rw [hpc] at hk
    exact ⟨by simpa [Pc.Known] using hk, .nil⟩
  | wroteMore hpc hlt =>
    rw [hpc] at hk
    exact ⟨⟨hk.1.mono (by simp), by simp⟩, grounded_singleton ⟨_, hk.1⟩⟩
  | wroteAll hpc hobs =>
    rw [hpc] at hk
    refine ⟨⟨hk.1.mono (by simp), _, by simp, rfl⟩, ?_⟩
    rcases hobs with rfl | rfl
    · exact grounded_singleton ⟨_, hk.1⟩
    · exact Justified.append_singleton.2 ⟨grounded_singleton ⟨_, hk.1⟩, _, hk.1.mono (by simp)⟩
  | failedClean hpc =>
    rw [hpc] at hk
    exact ⟨by simpa [Pc.Known] using hk.1, .nil⟩
  | failedPartial hpc hpos hfrom =>
    rw [hpc] at hk
    exact ⟨⟨by simp, hfrom, hk.1.mono (by simp)⟩, grounded_singleton ⟨hk.2 hpos, _, hk.1⟩⟩
  | bounceLost hpc hpos hfrom =>
    rw [hpc] at hk
    exact ⟨trivial, grounded_singleton ⟨hk.2 hpos, _, hk.1⟩⟩
  | bounced hpc =>
    rw [hpc] at hk
    refine ⟨⟨⟨by simpa using hk.1, hk.2.1, by simpa using hk.2.2, _, _, rfl⟩, ?_⟩, .nil⟩
    intro name hn
    cases hn
  | died => exact ⟨trivial, .nil⟩
  | peerClosed => exact ⟨hk.append (quiet_singleton rfl), grounded_singleton trivial⟩

/-- What an operation under a lock leaves the task to know. -/
theorem known_of_sharedStep {k k' : Conn} {obs : List Obs} {i : Input} (h : k.SharedStep now c i k' obs)
    (hq : k.pc.stage < 5 → Quiet t) (hk : k.pc.Known L c t) :
    k'.pc.Known L c (t ++ obs) ∧ Justified (fun pre o => o.Grounded L (t ++ pre)) obs := by
  cases h with
  | lockedAudit hpc =>
    rw [hpc] at hk
    exact ⟨by simpa [Pc.Known] using hk, .nil⟩
  | lockedCommit hpc =>
    rw [hpc] at hk
    exact ⟨⟨hk.1.mono (by simp), by simpa [CommitPhase.Known] using hk.2⟩, .nil⟩
  | logged hpc | unlogged hpc =>
    rw [hpc] at hk
    exact ⟨AuditEvent.Known.mono hk (by simp), grounded_singleton hk⟩
  | accepted hpc =>
    rw [hpc] at hk
    refine ⟨⟨hk.1.mono (by simp), rfl, ⟨now, by simp⟩, fun name hn => ?_⟩, grounded_singleton hk.1⟩
    exact (hk.2 name hn).append (quiet_singleton rfl)
  | refused hpc =>
    rw [hpc] at hk
    refine ⟨⟨hk.1.mono (by simp), fun name hn => ?_⟩, grounded_singleton hk.1⟩
    exact (hk.2 name hn).append (quiet_singleton rfl)
  | routed hpc =>
    rw [hpc] at hk
    obtain ⟨hrole, he, ⟨ts, ha⟩, -⟩ := hk
    exact ⟨⟨hrole.mono (by simp), he, ⟨ts, by simp [ha]⟩, _,
      List.mem_append_right _ (List.mem_singleton_self _)⟩, grounded_singleton ⟨_, ts, ha⟩⟩
  | unlocked hpc =>
    refine ⟨?_, .nil⟩
    rw [List.append_nil]
    generalize k.pc = p at hpc hk hq
    unfold Conn.afterUnlock at hpc
    split at hpc
    · rename_i next
      cases next <;> cases hpc
      · trivial
      · exact Or.inl (hq (by simp [Pc.stage, AuditNext.stage]))
      · trivial
    · cases hpc
      obtain ⟨hrole, he, ⟨ts, ha⟩, outcome, hr⟩ := hk
      exact ⟨_, ts, _, outcome, ha, hr, by rw [he]⟩
    · cases hpc
      exact Or.inl (hk.2 _ rfl)
    · cases hpc
      trivial
    · cases hpc
      trivial
    · cases hpc
  | took hpc =>
    have hquiet := hq (by simp [hpc, Pc.stage])
    rw [hpc] at hk
    exact ⟨⟨Awaits.mono ⟨_, _, _, hk⟩ (by simp), by simp⟩,
      grounded_singleton ⟨hquiet, _, _, _, _, hk⟩⟩
  | parked hpc =>
    have hquiet := hq (by simp [hpc, Pc.stage])
    rw [hpc] at hk
    exact ⟨⟨Awaits.mono ⟨_, _, _, hk⟩ (by simp), by simp⟩, grounded_singleton ⟨hquiet, _, _, _, hk⟩⟩
  | deregistered hpc =>
    rw [hpc] at hk
    exact ⟨by simp [Pc.Known, ServerLine.Known], grounded_singleton ⟨_, _, hk⟩⟩
  | raceLost hpc =>
    rw [hpc] at hk
    exact ⟨⟨by simpa using hk.1, _, by simpa using hk.2⟩, .nil⟩
  | requeued hpc =>
    rw [hpc] at hk
    exact ⟨trivial, grounded_singleton ⟨_, hk⟩⟩

/-- At every point of a run the task knows what `Pc.Known` says, and what it emitted is
grounded. -/
theorem known_of_run {k : Conn} (h : Conn.Run L roster c t k) :
    k.pc.Known L c t ∧ Justified (Obs.Grounded L) t := by
  induction h with
  | accepted => exact ⟨trivial, .nil⟩
  | «local» h hstep ih =>
    obtain ⟨hk, hobs⟩ := known_of_localStep hstep (quiet_of_stage (marked_of_run h)) ih.1
    exact ⟨hk, ih.2.append hobs⟩
  | shared h hstep ih =>
    obtain ⟨hk, hobs⟩ := known_of_sharedStep hstep (quiet_of_stage (marked_of_run h)) ih.1
    exact ⟨hk, ih.2.append hobs⟩
  | channel _ _ ih => exact ih

/-- An await takes from the queue or parks, not both. -/
theorem not_took_of_parked (h : Justified (Obs.Grounded L) t) {name : String} {id : UInt64}
    {x : Stamped} (hparked : .parked c name id ∈ t) : .took c x ∉ t := by
  intro htook
  obtain ⟨pre, post, hsplit, hquiet, -⟩ := h.of_mem hparked
  obtain ⟨pre', post', hsplit', hquiet', -⟩ := h.of_mem htook
  rcases mem_before_or_mem_before hsplit hsplit' (by simp) with hmem | hmem
  · cases hquiet' _ hmem
  · cases hquiet _ hmem

theorem stage_le {o : Obs} {i : ℕ} (h : o.stage = some i) : i ≤ 20 := by
  cases o with
  | routed c x p outcome =>
    cases p <;> simp only [Obs.stage, Option.some.injEq] at h <;> omega
  | logged | unlogged | bytes | peerClosed => simp [Obs.stage] at h
  | _ => simp only [Obs.stage, Option.some.injEq] at h; omega

/-- A send answered with an error has made no step on the routing state. -/
theorem quiet_of_send_refused (hmarks : MarkedUpTo Obs.stage t n)
    (hground : Justified (Obs.Grounded L) t) {name message : String} {e : Envelope}
    (hverb : .verb c name (.send e) ∈ t) (hans : .answered c (.error message) ∈ t) : Quiet t := by
  obtain ⟨pre, post, hsplit, hquiet | ⟨name', replyTo, kind, secs, hawait⟩⟩ := hground.of_mem hans
  · intro o ho
    by_contra hne
    have hro : o.reroutes = true := by simpa using hne
    obtain ⟨i, hi, -⟩ := five_le_stage hro
    rw [hsplit, List.mem_append, List.mem_cons] at ho
    rcases ho with ho | rfl | ho
    · rw [hquiet o ho] at hro
      cases hro
    · cases hro
    · -- nothing comes after the last reply
      obtain ⟨pre', post', hsplit'⟩ := List.append_of_mem ho
      have hl : t = (pre ++ .answered c (.error message) :: pre') ++ o :: post' := by
        rw [hsplit, hsplit', List.append_assoc, List.cons_append]
      have hans' : Obs.answered c (.error message) ∈ pre ++ .answered c (.error message) :: pre' := by
        simp
      have := hmarks.lt_of_split hl hi hans' rfl
      exact absurd (stage_le hi) (by omega)
  · have hmem : .verb c name' (.await replyTo kind secs) ∈ t := by
      rw [hsplit]
      exact List.mem_append_left _ hawait
    have := hmarks.eq_of_mem hverb hmem rfl rfl
    cases this

end Run

end AgentHub
