import AgentHub.PeerClosed

/-!
# Delivery isolation

An envelope comes to the connection of an await by the queue, by the handoff of a send or by
that of a requeue, and each path looks it up by a name of its own. Whatever the path, what
the connection holds is addressed to its agent and passes its filter (`wanted_of_held`).

A task stops waiting when it starts to write an envelope line or removes its waiter, and
never waits again. So it starts to write at most one line, and no envelope is taken for it
or handed to it after that, whichever task routes it (`Hub.Shut`, `delivery_isolation`).
-/

namespace AgentHub

/-- The observation gives the connection an envelope. -/
def Obs.Gives (c : ConnId) : Obs → Prop
  | .took d _ => d = c
  | .routed _ _ _ (.handedOff d) => d = c
  | _ => False

/-- The envelope whose line the task writes. -/
def Pc.line : Pc → Option Stamped
  | .writing _ x _ _ => some x
  | _ => none

theorem Pc.stage_eq_of_line {pc : Pc} {x : Stamped} (h : pc.line = some x) : pc.stage = 8 := by
  cases pc with
  | writing => rfl
  | _ => cases h

theorem Pc.stage_le_of_waiting {pc : Pc} (h : pc.waiting ≠ none) : pc.stage ≤ 7 := by
  cases pc with
  | parked | timerFired | lostRace => simp [Pc.stage]
  | _ => exact absurd rfl h

theorem Quiet.gives {obs : List Obs} (h : Quiet obs) (c : ConnId) : ∀ o ∈ obs, ¬o.Gives c := by
  intro o ho hgives
  have := h o ho
  cases o with
  | took | routed => cases this
  | _ => exact hgives

theorem Pc.line_eq_some_of_stage {pc : Pc} (h : pc.stage = 8) : ∃ x, pc.line = some x := by
  cases pc with
  | writing name x source written => exact ⟨x, rfl⟩
  | auditing phase event next => cases next <;> cases h
  | replying line next => cases next <;> cases h
  | committing phase role e => cases phase <;> cases h
  | _ => cases h

namespace Hub

variable {L : Libs} {roster : Roster} {audit : AuditLog} {s s' : Hub} {c : ConnId} {x : Stamped}

/-! ## What an await is given -/

/-- The envelope is one the await of the connection asks for. -/
def Wanted (t : List Obs) (c : ConnId) (x : Stamped) : Prop :=
  ∃ filter : AwaitFilter, ∃ timeoutSecs,
    .verb c x.envelope.to (.await filter.replyTo filter.kind timeoutSecs) ∈ t ∧
    filter.matches x.envelope = true

theorem Wanted.mono {t t' : List Obs} (h : Wanted t c x) (ht : t ⊆ t') : Wanted t' c x := by
  obtain ⟨filter, timeoutSecs, hverb, hmatches⟩ := h
  exact ⟨filter, timeoutSecs, ht hverb, hmatches⟩

/-- An await takes an envelope for its agent that passes its filter. -/
theorem took_of_step {a : DateTime × Action} (h : Reach L roster audit s) (hstep : Step L roster s a s')
    (hx : .took c x ∈ s'.trace) : .took c x ∈ s.trace ∨ Wanted s.trace c x := by
  have hquiet : ∀ {obs : List Obs}, Quiet obs → .took c x ∈ s.trace ++ obs → .took c x ∈ s.trace :=
    fun hq hx => (List.mem_append.1 hx).resolve_right fun ho => hq.gives c _ ho rfl
  cases hstep with
  | accept | unlockAudit | loseRace => exact Or.inl (by simpa using hx)
  | task hk hstep => exact Or.inl (hquiet (quiet_of_localStep hstep) hx)
  | lockAudit hfree hk hstep | append hlock hk hevent hwrite hstep =>
    exact Or.inl (hquiet (quiet_of_auditStep hstep (by simp)) hx)
  | route | requeue | deregister => exact Or.inl (by simpa using hx)
  | park => exact Or.inl (by simpa using hx)
  | @take now d k name filter timeoutSecs y state hk hpc htake =>
    rcases List.mem_append.1 hx with hx | hx
    · exact Or.inl hx
    obtain ⟨rfl, rfl⟩ : c = d ∧ x = y := by simpa using hx
    obtain ⟨pre, post, hq, hmatches, -⟩ := takeQueued_eq_some htake
    have hto : x.envelope.to = name := (addressed_of_reach h).keyed name x (by rw [hq]; simp)
    have hverb := (known_of_run (run_of_reach h hk)).1
    rw [hpc] at hverb
    exact Or.inr ⟨filter, timeoutSecs, hto ▸ (mem_traceOf.1 hverb).1, hmatches⟩

theorem wanted_of_took (h : Reach L roster audit s) (hx : .took c x ∈ s.trace) :
    Wanted s.trace c x := by
  refine Machine.ReachVia.invariant (P := fun s => .took c x ∈ s.trace → Wanted s.trace c x) h
    (fun hx => by simp [Hub.init] at hx) (fun s a s' hr hP _ hs hx => ?_) hx
  have hstep := step_cases hs
  rcases took_of_step hr hstep hx with hx | hwanted
  · exact (hP hx).mono (trace_prefix_of_step hstep).subset
  · exact hwanted.mono (trace_prefix_of_step hstep).subset

/-- What a connection holds is what its await asks for. -/
theorem wanted_of_held (h : Reach L roster audit s) {p : Place} (hp : p.At c) (hx : x ∈ s.held p) :
    Wanted s.trace c x := by
  have hall := Machine.ReachVia.invariant
    (P := fun s => ∀ p : Place, p.At c → x ∈ s.held p → Wanted s.trace c x) h ?_ ?_
  · exact hall p hp hx
  · intro p hp hx
    cases p <;> simp [Hub.init, held, writtenTo, lostOn] at hx
  intro s a s' hr hP _ hs p hp hx
  have hstep := step_cases hs
  have hsub := (trace_prefix_of_step hstep).subset
  rcases at_of_step (registry_of_reach hr) hstep hp hx with ⟨q, hq, hxq⟩ | htook | ⟨-, placement, hout⟩
  · exact (hP q hq hxq).mono hsub
  · exact wanted_of_took (.next hr trivial hs) htook
  · exact Wanted.mono (waitsFor_of_handedOff (registry_of_reach hr) hout).2 hsub

/-! ## When a connection is done -/

/-- The step makes the task of `c` start to write the line of `x`. -/
def Starts (c : ConnId) (x : Stamped) (s s' : Hub) : Prop :=
  (s.pc c).bind Pc.line = none ∧ (s'.pc c).bind Pc.line = some x

/-- However the run goes on, no envelope is taken for `c` or handed to `c`, and its task
starts no envelope line. -/
def Shut (L : Libs) (roster : Roster) (c : ConnId) (s : Hub) : Prop :=
  ∀ s', Machine.Reach (step L roster) s s' →
    (∃ later, s'.trace = s.trace ++ later ∧ ∀ o ∈ later, ¬o.Gives c) ∧
    ∀ a s'' y, s'.step L roster a = some s'' → ¬Starts c y s' s''

/-- The task of `c` has come to the stage `n` at least. -/
def Beyond (n : ℕ) (c : ConnId) (s : Hub) : Prop :=
  ∃ pc, s.pc c = some pc ∧ n ≤ pc.stage

/-- A task never goes back. -/
theorem Beyond.step {n : ℕ} {a : DateTime × Action} (h : Beyond n c s) (hstep : Step L roster s a s') :
    Beyond n c s' := by
  obtain ⟨pc, hpc, hn⟩ := h
  have hadvance : ∀ {i j : ℕ} {obs : List Obs}, Advances Obs.stage i obs j → i ≤ j :=
    fun h => (MarkedUpTo.of_advances h).2.2
  by_cases hc : c = a.2.conn
  · subst hc
    rcases task_of_step hstep with ⟨hnone, -⟩ | ⟨k, k', obs, hk, hk', -, hlocal | ⟨i, hshared, -⟩⟩
    · simp [Hub.pc, hnone] at hpc
    · obtain rfl : k.pc = pc := by simpa [Hub.pc, hk] using hpc
      exact ⟨k'.pc, hk', hn.trans (hadvance (advances_of_localStep hlocal))⟩
    · obtain rfl : k.pc = pc := by simpa [Hub.pc, hk] using hpc
      exact ⟨k'.pc, hk', hn.trans (hadvance (advances_of_sharedStep hshared))⟩
  · exact ⟨pc, by rw [pc_of_step hstep hc, hpc], hn⟩

/-- Only a task that waits, or looks into its queue, is given an envelope. -/
theorem not_gives_of_beyond {a : DateTime × Action} (h : Reach L roster audit s)
    (hc : Beyond 8 c s) (hstep : Step L roster s a s') :
    ∃ obs, s'.trace = s.trace ++ obs ∧ ∀ o ∈ obs, ¬o.Gives c := by
  obtain ⟨pc, hpc, hn⟩ := hc
  have hrouting : ∀ {d : ConnId} {y : Stamped} {p : QueuePlacement},
      ¬Obs.Gives c (.routed d y p (routeEnvelope s.closed s.state y p).2) := by
    intro d y p hgives
    cases hout : (routeEnvelope s.closed s.state y p).2 with
    | queued depth =>
      rw [hout] at hgives
      exact hgives
    | handedOff tx =>
      rw [hout] at hgives
      obtain rfl : tx = c := hgives
      obtain ⟨pre, w, post, -, rfl, hopen, -⟩ := handedOff_spec s.closed s.state y p hout
      obtain ⟨k, hk, hwait⟩ := (allAlone_of_reach h).closed_eq_false.1 hopen
      obtain rfl : k.pc = pc := by simpa [Hub.pc, hk] using hpc
      have := Pc.stage_le_of_waiting hwait
      omega
  cases hstep with
  | accept | unlockAudit | loseRace => exact ⟨_, rfl, by simp⟩
  | task hk hstep => exact ⟨_, rfl, (quiet_of_localStep hstep).gives c⟩
  | lockAudit hfree hk hstep | append hlock hk hevent hwrite hstep =>
    exact ⟨_, rfl, (quiet_of_auditStep hstep (by simp)).gives c⟩
  | route hk hpc' | requeue hk hpc' =>
    exact ⟨_, routing_trace _ _ _ _ _ _, by simpa using hrouting⟩
  | park => exact ⟨_, rfl, by simp [Obs.Gives]⟩
  | deregister => exact ⟨_, onChan_trace _ _ _, by simp [Obs.Gives]⟩
  | @take now d k name filter timeoutSecs y state hk hpc' htake =>
    refine ⟨_, rfl, fun o ho hgives => ?_⟩
    rw [List.mem_singleton.1 ho] at hgives
    obtain rfl : d = c := hgives
    obtain rfl : k.pc = pc := by simpa [Hub.pc, hk] using hpc
    rw [hpc'] at hn
    simp [Pc.stage] at hn

/-- A task that has started a line, or is past that, is done with envelopes. -/
theorem shut_of_beyond (h : Reach L roster audit s) (hc : Beyond 8 c s) : Shut L roster c s := by
  intro s' hs'
  have hlater := Machine.ReachVia.invariant
    (P := fun s' => Beyond 8 c s' ∧ ∃ later, s'.trace = s.trace ++ later ∧ ∀ o ∈ later, ¬o.Gives c)
    hs' ⟨hc, [], by simp, by simp⟩ ?_
  · obtain ⟨⟨pc, hpc, hn⟩, hlater⟩ := hlater
    refine ⟨hlater, fun a s'' y hs hstarts => ?_⟩
    obtain ⟨hnone, hsome⟩ := hstarts
    -- a task that is not in the loop at this stage is past it
    have hpast : Beyond 9 c s' := by
      refine ⟨pc, hpc, ?_⟩
      by_contra hle
      obtain ⟨z, hz⟩ := Pc.line_eq_some_of_stage (show pc.stage = 8 by omega)
      simp [hpc, hz] at hnone
    obtain ⟨pc', hpc', hn'⟩ := hpast.step (step_cases hs)
    have := Pc.stage_eq_of_line (show pc'.line = some y by simpa [hpc'] using hsome)
    omega
  · rintro s₁ a s₂ hr ⟨hbeyond, later, htrace, hgives⟩ _ hs
    obtain ⟨obs, htrace', hgives'⟩ := not_gives_of_beyond (h.trans hr) hbeyond (step_cases hs)
    refine ⟨hbeyond.step (step_cases hs), later ++ obs, by rw [htrace', htrace, List.append_assoc], ?_⟩
    exact fun o ho => (List.mem_append.1 ho).elim (hgives o) (hgives' o)

theorem beyond_of_marked (h : Reach L roster audit s) {o : Obs} {i n : ℕ} (ho : o ∈ s.trace)
    (hi : o.stage = some i) (hn : n ≤ i) : Beyond n o.conn s := by
  obtain ⟨k, hk⟩ := exists_conn_of_mem h ho
  refine ⟨k.pc, pc_eq_some.2 ⟨k, hk, rfl⟩, hn.trans ?_⟩
  exact (marked_of_run (run_of_reach h hk)).le o (mem_traceOf.2 ⟨ho, rfl⟩) i hi

theorem wanted_of_starts (h : Reach L roster audit s') (hstarts : Starts c x s s') :
    Wanted s'.trace c x := by
  obtain ⟨pc, hpc, hline⟩ : ∃ pc, s'.pc c = some pc ∧ pc.line = some x :=
    Option.bind_eq_some_iff.1 hstarts.2
  obtain ⟨k, hk, rfl⟩ := pc_eq_some.1 hpc
  have hcarried : k.pc.carried = some x := by
    generalize k.pc = pc at hline
    cases pc with
    | writing => exact hline
    | _ => cases hline
  refine wanted_of_held h (p := .task c) rfl ?_
  rw [held_task hk, hcarried]
  exact List.mem_singleton_self x

theorem shut_of_starts (h : Reach L roster audit s') (hstarts : Starts c x s s') :
    Shut L roster c s' := by
  obtain ⟨pc, hpc, hline⟩ : ∃ pc, s'.pc c = some pc ∧ pc.line = some x :=
    Option.bind_eq_some_iff.1 hstarts.2
  exact shut_of_beyond h ⟨pc, hpc, (Pc.stage_eq_of_line hline).ge⟩

/-- Let `c` be the connection of an await of `n`. The hub starts to write at most one
envelope line on it, of an envelope for `n` that passes both filters; once it has started,
and once the await has timed out, no envelope is ever taken for or handed to `c`. -/
theorem delivery_isolation (h : Reach L roster audit s) {n : String} {replyTo kind : Option String}
    {timeoutSecs : Option UInt64} (hverb : .verb c n (.await replyTo kind timeoutSecs) ∈ s.trace) :
    (∀ s₁ a s₂ x, Reach L roster audit s₁ → s₁.step L roster a = some s₂ →
      Machine.Reach (step L roster) s₂ s → Starts c x s₁ s₂ →
      x.envelope.to = n ∧ AwaitFilter.matches ⟨replyTo, kind⟩ x.envelope = true ∧
        Shut L roster c s₂) ∧
    (.deregistered c ∈ s.trace ∨ .answered c .timeout ∈ s.trace → Shut L roster c s) := by
  refine ⟨fun s₁ a s₂ x h₁ hs hs₂ hstarts => ?_, fun hdone => ?_⟩
  · have h₂ : Reach L roster audit s₂ := .next h₁ trivial hs
    obtain ⟨filter, secs, hverb', hmatches⟩ := (wanted_of_starts h₂ hstarts).mono
      (trace_prefix_of_reach hs₂).subset
    obtain ⟨rfl, heq⟩ := verb_unique h hverb hverb'
    obtain ⟨rfl, rfl, rfl⟩ := ClientLine.await.inj heq
    exact ⟨rfl, hmatches, shut_of_starts h₂ hstarts⟩
  · refine shut_of_beyond h ?_
    rcases hdone with hd | hd
    · exact beyond_of_marked h hd rfl (by omega)
    · exact beyond_of_marked h hd rfl (by omega)

/-- `alice` waits on the connection `0` and is handed a task. -/
def handed : List Action :=
  opening 0 aliceHello.bytes awaitAny.bytes ++ [.await 0] ++ opening 1 bobHello.bytes sendTask.bytes ++
  committing 1 (sampleEnvelope "m1" "task")

/-- The write of the task fails, and it is queued again : the await that failed to write it
is done. -/
theorem delivery_isolation_requeued : ∃ s₁ s₂ s x, SampleReach s₁ ∧
    s₁.step sampleLibs sampleRoster (0, .task 0 .polled) = some s₂ ∧
    Machine.Reach (step sampleLibs sampleRoster) s₂ s ∧ Starts 0 x s₁ s₂ ∧
    (s.state.queue "alice").map Stamped.seq = [x.seq] ∧ Shut sampleLibs sampleRoster 0 s₂ := by
  have hrun : ((runSample handed).any fun s₁ => ((s₁.pc 0).bind Pc.line).isNone ∧
      (s₁.step sampleLibs sampleRoster (0, .task 0 .polled)).any fun s₂ =>
      (((s₂.pc 0).bind Pc.line).any fun x => x.seq = 0) ∧
      (Machine.run (step sampleLibs sampleRoster) s₂
        [(0, .task 0 (.wrote (.err (.other "Broken pipe")))), (0, .requeue 0)]).any fun s =>
      (s.state.queue "alice").map Stamped.seq = [0]) = true := by decide +kernel
  obtain ⟨s₁, hs₁, hP⟩ := Option.any_eq_true _ _ |>.1 hrun
  obtain ⟨hnone, hP⟩ := of_decide_eq_true hP
  obtain ⟨s₂, hs₂, hP⟩ := Option.any_eq_true _ _ |>.1 hP
  obtain ⟨hline, hP⟩ := of_decide_eq_true hP
  obtain ⟨s, hs, hqueue⟩ := Option.any_eq_true _ _ |>.1 hP
  obtain ⟨x, hx, hseq⟩ := Option.any_eq_true _ _ |>.1 hline
  have h₁ : SampleReach s₁ := Machine.reach_of_run hs₁
  have h₂ : SampleReach s₂ := .next h₁ trivial hs₂
  have hlater : Machine.Reach (step sampleLibs sampleRoster) s₂ s := Machine.reach_of_run hs
  have hstarts : Starts 0 x s₁ s₂ := ⟨by simpa using hnone, hx⟩
  obtain ⟨filter, timeoutSecs, hverb, -⟩ := (wanted_of_starts h₂ hstarts).mono
    (trace_prefix_of_reach hlater).subset
  exact ⟨s₁, s₂, s, x, h₁, hs₂, hlater, hstarts, by rw [of_decide_eq_true hqueue, of_decide_eq_true hseq],
    ((delivery_isolation (h₂.trans hlater) hverb).1 s₁ _ s₂ x h₁ hs₂ hlater hstarts).2.2⟩

end Hub

end AgentHub
