import AgentHub.HubSteps

/-!
# Conversations

What one client brings the hub to do, from any state in which the audit log is free and the
connection is new. The hub dispatches the verb of a client that authenticates
(`reach_verb`), an await that finds nothing queued parks (`reach_parked`), a valid send is
committed and routed (`reach_committed`), and the timer of a parked await may fire
(`reach_timerFired`). The socket gives whole lines here, and no write fails.

The states are given up to what the audit file holds and what the task has read and
written : `Hub.Became` says which connection has changed, and how.
-/

namespace AgentHub

open Function

/-- Everything the hub writes serializes. -/
structure Libs.Serializes (L : Libs) : Prop where
  server : ∀ line, ∃ text, L.serverLineToString line = .ok text
  audit : ∀ event, ∃ text, L.auditEventToString event = .ok text

/-- The bytes of a line a client sends. -/
structure ClientLine.Bytes (L : Libs) (line : ClientLine) where
  bytes : List UInt8
  text : String
  newline_notMem : newline ∉ bytes
  length_le : bytes.length ≤ maxLineBytes
  utf8 : fromUtf8 bytes = some text
  decodes : L.clientLineFromStr text = .ok line

namespace Hub

variable {L : Libs} {roster : Roster} {s s₁ s₂ : Hub} {now : DateTime} {c : ConnId} {k : Conn}

/-! ## Single steps -/

section Enabled

variable {i : Input} {k' : Conn} {obs : List Obs}

theorem step_task (hk : s.conns c = some k) (hi : i.isLocal = true)
    (hstep : k.step L roster now c i = some (k', obs)) :
    s.step L roster (now, .task c i) = some (s.put c k' obs) := by
  simp [step, hi, taskStep, hk, hstep, put]

theorem step_accept (hnew : s.conns c = none) (now : DateTime) (peer : String) :
    s.step L roster (now, .accept c peer) = some (s.put c (.accepted now peer) []) := by
  simp [step, hnew, put]

theorem step_lockAudit (hfree : s.auditLock = none) (hk : s.conns c = some k)
    (hstep : k.step L roster now c .locked = some (k', obs)) :
    s.step L roster (now, .lockAudit c) = some { s.put c k' obs with auditLock := some c } := by
  simp [step, hfree, taskStep, hk, hstep, put]

theorem step_append {os : List WriteResult} {event : AuditEvent} {audit : AuditLog}
    {r : Except AuditError Unit} (hlock : s.auditLock = some c) (hk : s.conns c = some k)
    (hevent : pendingEvent now k.pc = some event)
    (hwrite : s.audit.write L.auditEventToString event os = some (audit, r))
    (hstep : k.step L roster now c (.appended (r.map fun _ => (acceptedOf s.trace).length)) =
      some (k', obs)) :
    s.step L roster (now, .append c os) = some { s.put c k' obs with audit } := by
  simp [step, hlock, Hub.pc, hk, hevent, hwrite, taskStep, hstep, put]

theorem step_unlockAudit (hlock : s.auditLock = some c) (hk : s.conns c = some k)
    (hstep : k.step L roster now c .unlocked = some (k', obs)) :
    s.step L roster (now, .unlockAudit c) = some { s.put c k' obs with auditLock := none } := by
  simp [step, hlock, taskStep, hk, hstep, put]

theorem step_route {x : Stamped} {role : Role} {e : Envelope} (hk : s.conns c = some k)
    (hpc : k.pc = .committing (.appended x) role e) :
    s.step L roster (now, .route c) =
      some (s.routing c k (.committing (.routed x) role e) x .back) := by
  simp [step, Hub.pc, hk, hpc, taskStep, Conn.step, routing, put]

theorem step_park {name : String} {filter : AwaitFilter} {timeoutSecs : Option UInt64}
    (hk : s.conns c = some k) (hpc : k.pc = .awaiting name filter timeoutSecs)
    (htake : takeQueued s.state name filter = none) :
    s.step L roster (now, .await c) = some
      { s.put c { k with pc := .parked name s.state.nextWaiterId timeoutSecs, chan := .fresh }
          [.parked c name s.state.nextWaiterId] with
        state := s.state.park name filter c } := by
  simp [step, Hub.pc, hk, hpc, htake, taskStep, Conn.step, put]

theorem step_deregister {name : String} {id : UInt64} {w : Waiter} {state : HubState Stamped}
    (hk : s.conns c = some k) (hpc : k.pc = .timerFired name id)
    (hremove : removeWaiter s.state name id = some (w, state)) :
    s.step L roster (now, .deregister c) = some
      ({ s.put c { k with pc := .replying .timeout .finish, chan := k.chan.dropRx }
          [.deregistered c] with state }.onChan w.tx Oneshot.dropTx) := by
  simp [step, Hub.pc, hk, hpc, hremove, taskStep, Conn.step, put]

end Enabled

/-! ## One connection at a time -/

/-- From `s` the hub reaches `s'`, where the task of `c` stands at `pc` with the channel
`chan`, and has emitted `obs`. Only `c` has acted, and nothing else has changed but the audit file. -/
structure Became (L : Libs) (roster : Roster) (s : Hub) (c : ConnId) (pc : Pc)
    (chan : Oneshot Stamped) (obs : List Obs) (s' : Hub) : Prop where
  reach : Machine.ReachVia (step L roster) (fun _ a => a.2.conn = c) s s'
  conns : ∃ k, s'.conns = update s.conns c (some k) ∧ k.pc = pc ∧ k.chan = chan ∧ k.buf = []
  state : s'.state = s.state
  auditLock : s'.auditLock = s.auditLock
  trace : s'.trace = s.trace ++ obs

namespace Became

variable {pc pc' : Pc} {chan chan' : Oneshot Stamped} {obs obs' : List Obs}

theorem trans (h : Became L roster s c pc chan obs s₁) (h' : Became L roster s₁ c pc' chan' obs' s₂) :
    Became L roster s c pc' chan' (obs ++ obs') s₂ := by
  obtain ⟨k, hk, -⟩ := h.conns
  obtain ⟨k', hk', hpc, hchan, hbuf⟩ := h'.conns
  refine ⟨h.reach.trans h'.reach, ⟨k', ?_, hpc, hchan, hbuf⟩, h'.state.trans h.state,
    h'.auditLock.trans h.auditLock, ?_⟩
  · rw [hk', hk, update_idem]
  · rw [h'.trace, h.trace, List.append_assoc]

theorem conn (h : Became L roster s c pc chan obs s₁) :
    ∃ k, s₁.conns c = some k ∧ k.pc = pc ∧ k.chan = chan ∧ k.buf = [] := by
  obtain ⟨k, hk, hrest⟩ := h.conns
  exact ⟨k, by rw [hk, update_self], hrest⟩

theorem conns_of_ne (h : Became L roster s c pc chan obs s₁) {d : ConnId} (hd : d ≠ c) :
    s₁.conns d = s.conns d := by
  obtain ⟨k, hk, -⟩ := h.conns
  rw [hk, update_of_ne hd]

end Became

/-- One step of a task on its own. -/
theorem became_of_step {i : Input} {k' : Conn} {obs : List Obs} (hk : s.conns c = some k)
    (hi : i.isLocal = true) (hstep : k.step L roster now c i = some (k', obs)) (hbuf : k'.buf = []) :
    Became L roster s c k'.pc k'.chan obs (s.put c k' obs) :=
  ⟨.next .init rfl (step_task hk hi hstep), ⟨k', rfl, rfl, rfl, hbuf⟩, rfl, rfl, rfl⟩

theorem became_accepted (hnew : s.conns c = none) (now : DateTime) (peer : String) :
    Became L roster s c (.auditing .waiting (.connection now peer) .readHello) .unused []
      (s.put c (.accepted now peer) []) :=
  ⟨.next .init rfl (step_accept hnew now peer), ⟨_, rfl, rfl, rfl, rfl⟩, rfl, rfl,
    by simp⟩

/-- An event is logged. -/
theorem became_logged (hL : L.Serializes) (hfree : s.auditLock = none) (hk : s.conns c = some k)
    {event : AuditEvent} {next : AuditNext} (hpc : k.pc = .auditing .waiting event next)
    (hbuf : k.buf = []) {pc : Pc} (hnext : Conn.afterUnlock (.auditing .appended event next) = some pc) :
    ∃ s', Became L roster s c pc k.chan [.logged c event] s' := by
  obtain ⟨line, hline⟩ := hL.audit event
  let k₁ : Conn := { k with pc := .auditing .locked event next }
  let k₂ : Conn := { k with pc := .auditing .appended event next }
  have h₁ := @step_lockAudit L roster s 0 c k k₁ [] hfree hk (by simp [Conn.step, hpc, k₁])
  have h₂ := @step_append L roster { s.put c k₁ [] with auditLock := some c } 0 c k₁ k₂
    [.logged c event] _ event _ _ rfl (by simp [put_conns]) rfl (s.audit.write_once hline) rfl
  refine ⟨_, ⟨.next (.next (.next .init rfl h₁) rfl h₂) rfl (@step_unlockAudit L roster _ 0 c
    k₂ { k with pc } [] rfl (by simp [put_conns]) (by simp [Conn.step, k₂, hnext])),
    ⟨{ k with pc }, ?_, rfl, rfl, hbuf⟩, rfl, hfree.symm, ?_⟩⟩
  · simp [put, update_idem]
  · simp [put]

/-- A reply other than the last one is written. -/
theorem became_replied (hL : L.Serializes) {name : String} {line : ServerLine}
    (hk : s.conns c = some k) (hpc : k.pc = .replying line (.readVerb name)) (hbuf : k.buf = []) :
    ∃ s', Became L roster s c (.readVerb name []) k.chan [] s' := by
  obtain ⟨text, htext⟩ := hL.server line
  have hstep : k.step L roster 0 c (.replied (.ok ())) = some
      ({ k with pc := .readVerb name [], out := k.out ++ asBytes (text ++ "\n") }, []) := by
    simp [Conn.step, hpc, Conn.reply, toJsonl, htext]
  exact ⟨_, became_of_step hk rfl hstep hbuf⟩

/-- A line arrives whole. -/
theorem step_recv {line : ClientLine} (b : line.Bytes L) (hbuf : k.buf = []) :
    k.step L roster now c (.recv (.ok (b.bytes ++ [newline]))) =
      { k with received := k.received ++ (b.bytes ++ [newline]) }.readRound L roster now c
        (.ok (b.bytes ++ [newline])) ∧
    readLineStep [] (.ok (b.bytes ++ [newline])) = .done (.ok (some b.text)) [] :=
  ⟨by simp [Conn.step, hbuf], readLineStep_of_line b.newline_notMem b.length_le b.utf8⟩

/-- The hub authenticates a client and reads its verb. -/
theorem reach_verb (hL : L.Serializes) (hfree : s.auditLock = none) (hnew : s.conns c = none)
    {name token : String} {verb : ClientLine} (hello : (ClientLine.hello name token).Bytes L)
    (hroster : roster.get name = some token) (line : verb.Bytes L) (peer : String) :
    ∃ s', Became L roster s c (onVerbLine L c name (.ok (some line.text))).1 .unused
      (.logged c (.connection 0 peer) :: .authenticated c name ::
        (onVerbLine L c name (.ok (some line.text))).2) s' := by
  have h₁ := @became_accepted L roster s c hnew 0 peer
  obtain ⟨k₁, hk₁, hpc₁, hchan₁, hbuf₁⟩ := h₁.conn
  obtain ⟨s₂, h₂⟩ := @became_logged L roster _ c k₁ hL (h₁.auditLock.trans hfree) hk₁ _ _ hpc₁ hbuf₁ _ rfl
  have h₂' := h₁.trans h₂
  obtain ⟨k₂, hk₂, hpc₂, hchan₂, hbuf₂⟩ := h₂.conn
  have hread : k₂.step L roster 0 c (.recv (.ok (hello.bytes ++ [newline]))) = some
      ({ k₂ with
          received := k₂.received ++ (hello.bytes ++ [newline]), buf := []
          pc := .replying .ok (.readVerb name) }, [.authenticated c name]) := by
    obtain ⟨hrecv, hline⟩ := @step_recv L roster 0 c k₂ _ hello hbuf₂
    rw [hrecv]
    simp [Conn.readRound, hpc₂, hline, onHelloLine, fromJsonl, hello.decodes, handleHello, hroster]
  have h₃ := became_of_step hk₂ rfl hread rfl
  obtain ⟨k₃, hk₃, hpc₃, hchan₃, hbuf₃⟩ := h₃.conn
  obtain ⟨s₄, h₄⟩ := @became_replied L roster _ c k₃ hL _ _ hk₃ hpc₃ hbuf₃
  obtain ⟨k₄, hk₄, hpc₄, hchan₄, hbuf₄⟩ := h₄.conn
  have hverb : k₄.step L roster 0 c (.recv (.ok (line.bytes ++ [newline]))) = some
      ({ k₄ with
          received := k₄.received ++ (line.bytes ++ [newline]), buf := []
          pc := (onVerbLine L c name (.ok (some line.text))).1 },
        (onVerbLine L c name (.ok (some line.text))).2) := by
    obtain ⟨hrecv, hline⟩ := @step_recv L roster 0 c k₄ _ line hbuf₄
    rw [hrecv]
    simp [Conn.readRound, hpc₄, hline]
  have h₅ := became_of_step hk₄ rfl hverb rfl
  have h := ((h₂'.trans h₃).trans h₄).trans h₅
  simp only [hchan₁, hchan₂, hchan₃, hchan₄, List.nil_append, List.cons_append, List.append_nil] at h
  exact ⟨_, h⟩

/-! ## Awaits and sends -/

/-- An await that finds nothing queued parks. -/
theorem reach_parked (hL : L.Serializes) (hfree : s.auditLock = none) (hnew : s.conns c = none)
    {name token : String} {replyTo kind : Option String} {timeoutSecs : Option UInt64}
    (hello : (ClientLine.hello name token).Bytes L) (hroster : roster.get name = some token)
    (line : (ClientLine.await replyTo kind timeoutSecs).Bytes L) (hreplyTo : replyTo ≠ some "")
    (hkind : kind ≠ some "") (hnone : takeQueued s.state name ⟨replyTo, kind⟩ = none)
    (peer : String) :
    ∃ s' k, Machine.ReachVia (step L roster) (fun _ a => a.2.conn = c) s s' ∧ s'.auditLock = none ∧
      s'.state = s.state.park name ⟨replyTo, kind⟩ c ∧ s'.conns = update s.conns c (some k) ∧
      k.pc = .parked name s.state.nextWaiterId timeoutSecs ∧ k.chan = .fresh ∧
      s'.trace = s.trace ++ [.logged c (.connection 0 peer), .authenticated c name,
        .verb c name (.await replyTo kind timeoutSecs), .parked c name s.state.nextWaiterId] := by
  obtain ⟨s₁, h⟩ := reach_verb (s := s) (c := c) hL hfree hnew hello hroster line peer
  have hverb : onVerbLine L c name (.ok (some line.text)) =
      (.awaiting name ⟨replyTo, kind⟩ timeoutSecs, [.verb c name (.await replyTo kind timeoutSecs)]) := by
    simp [onVerbLine, fromJsonl, line.decodes, handleAwait, hreplyTo, hkind]
  rw [hverb] at h
  obtain ⟨k, hconns, hpc, hchan, hbuf⟩ := h.conns
  have hstep := @step_park L roster s₁ 0 c k _ _ _ (by rw [hconns, update_self]) hpc (h.state ▸ hnone)
  refine ⟨_, { k with pc := .parked name s.state.nextWaiterId timeoutSecs, chan := .fresh },
    .next h.reach rfl hstep, h.auditLock.trans hfree, by rw [h.state], ?_, rfl, rfl, ?_⟩
  · simp [put, hconns, update_idem, h.state]
  · simp [h.trace, h.state]

/-- A commit takes the audit lock and appends. -/
theorem reach_appended (hL : L.Serializes) (hfree : s.auditLock = none) (hk : s.conns c = some k)
    {role : Role} {e : Envelope} (hpc : k.pc = .committing .waiting role e) {x : Stamped}
    (hx : x = ⟨e, (acceptedOf s.trace).length⟩) :
    ∃ s', Machine.ReachVia (step L roster) (fun _ a => a.2.conn = c) s s' ∧ s'.auditLock = some c ∧ s'.state = s.state ∧
      s'.conns = update s.conns c (some { k with pc := .committing (.appended x) role e }) ∧
      s'.trace = s.trace ++ [.accepted c role 0 x] := by
  obtain ⟨text, htext⟩ := hL.audit (.accepted 0 e)
  let k₁ : Conn := { k with pc := .committing .locked role e }
  let k₂ : Conn := { k with pc := .committing (.appended x) role e }
  have hlock := @step_lockAudit L roster s 0 c k k₁ [] hfree hk (by simp [Conn.step, hpc, k₁])
  have happend := @step_append L roster { s.put c k₁ [] with auditLock := some c } 0 c k₁ k₂
    [.accepted c role 0 x] _ (.accepted 0 e) _ _ rfl (by simp [put_conns]) rfl
    (s.audit.write_once htext) (by simp [Conn.step, k₁, k₂, Except.map, hx])
  refine ⟨_, .next (.next .init rfl hlock) rfl happend, rfl, rfl, ?_, ?_⟩
  · simp [put, update_idem, k₂]
  · simp

/-- A commit whose append succeeds routes its envelope. -/
theorem reach_commit (hL : L.Serializes) (hfree : s.auditLock = none) (hk : s.conns c = some k)
    {role : Role} {e : Envelope} (hpc : k.pc = .committing .waiting role e) {x : Stamped}
    (hx : x = ⟨e, (acceptedOf s.trace).length⟩) :
    ∃ s', Machine.ReachVia (step L roster) (fun _ a => a.2.conn = c) s s' ∧ s'.auditLock = none ∧
      s'.state = (routeEnvelope s.closed s.state x .back).1 ∧
      (∀ d, d ≠ c → s'.conns d = (s.conns d).map fun k =>
        if (routeEnvelope s.closed s.state x .back).2 = .handedOff d then
          { k with chan := k.chan.send x } else k) ∧
      s'.trace = s.trace ++ [.accepted c role 0 x,
        .routed c x .back (routeEnvelope s.closed s.state x .back).2] := by
  obtain ⟨s₂, hreach, hlock, hstate, hconns, htrace⟩ := @reach_appended L roster s c k hL hfree hk _ _ hpc _ hx
  have hk₂ : s₂.conns c = some { k with pc := .committing (.appended x) role e } := by
    rw [hconns, update_self]
  have hclosed : s₂.closed = s.closed := by
    rw [← @closed_put s c k { k with pc := .committing (.appended x) role e } [] hk rfl]
    unfold closed
    rw [hconns]
    rfl
  have hroute := @step_route L roster s₂ 0 c _ x role e hk₂ rfl
  obtain ⟨k₃, hk₃, hpc₃⟩ : ∃ k₃, (s₂.routing c { k with pc := .committing (.appended x) role e }
      (.committing (.routed x) role e) x .back).conns c = some k₃ ∧
      k₃.pc = .committing (.routed x) role e := by
    rw [routing_conns, if_pos rfl, Option.map_some]
    refine ⟨_, rfl, ?_⟩
    split_ifs <;> rfl
  obtain ⟨pc, hnext⟩ : ∃ pc, Conn.afterUnlock (.committing (.routed x) role e) = some pc := by
    cases role <;> exact ⟨_, rfl⟩
  have hunlock := @step_unlockAudit L roster _ 0 c k₃ { k₃ with pc } [] (by rw [routing_auditLock, hlock])
    hk₃ (by simp [Conn.step, hpc₃, hnext])
  refine ⟨_, .next (.next hreach rfl hroute) rfl hunlock, rfl, ?_, fun d hd => ?_, ?_⟩
  · simp [hclosed, hstate]
  · simp [put_conns, hd, routing_conns, hclosed, hstate, hconns]
  · simp [htrace, hclosed, hstate]

/-- A valid send is committed and routed. -/
theorem reach_committed (hL : L.Serializes) (hfree : s.auditLock = none) (hnew : s.conns c = none)
    {name token : String} {e : Envelope} (hello : (ClientLine.hello name token).Bytes L)
    (hroster : roster.get name = some token) (line : (ClientLine.send e).Bytes L)
    (hvalid : e.validate L.parseFromRfc3339 = .ok ()) (peer : String) {x : Stamped}
    (hx : x = ⟨{ e with «from» := name }, (acceptedOf s.trace).length⟩) :
    ∃ s', Machine.ReachVia (step L roster) (fun _ a => a.2.conn = c) s s' ∧ s'.auditLock = none ∧
      s'.state = (routeEnvelope s.closed s.state x .back).1 ∧
      (∀ d, d ≠ c → s'.conns d = (s.conns d).map fun k =>
        if (routeEnvelope s.closed s.state x .back).2 = .handedOff d then
          { k with chan := k.chan.send x } else k) ∧
      s'.trace = s.trace ++ [.logged c (.connection 0 peer), .authenticated c name,
        .verb c name (.send e), .accepted c (.send name) 0 x,
        .routed c x .back (routeEnvelope s.closed s.state x .back).2] := by
  obtain ⟨s₁, h⟩ := reach_verb (s := s) (c := c) hL hfree hnew hello hroster line peer
  have hverb : onVerbLine L c name (.ok (some line.text)) =
      (.committing .waiting (.send name) x.envelope, [.verb c name (.send e)]) := by
    simp [onVerbLine, fromJsonl, line.decodes, handleSend, hvalid, hx]
  rw [hverb] at h
  obtain ⟨k, hconns, hpc, hchan, hbuf⟩ := h.conns
  have hk : s₁.conns c = some k := by rw [hconns, update_self]
  have hclosed : s₁.closed = s.closed := by
    funext d
    unfold closed
    rw [hconns]
    by_cases hd : d = c
    · simp [hd, hnew, hchan, Oneshot.unused]
    · rw [update_of_ne hd]
  have hseq : x = ⟨x.envelope, (acceptedOf s₁.trace).length⟩ := by
    rw [h.trace, hx]
    simp [acceptedOf]
  obtain ⟨s₂, hreach, hlock, hstate, hothers, htrace⟩ :=
    @reach_commit L roster s₁ c k hL (h.auditLock.trans hfree) hk _ _ hpc x hseq
  rw [hclosed, h.state] at hstate htrace
  refine ⟨s₂, h.reach.trans hreach, hlock, hstate, fun d hd => ?_, ?_⟩
  · rw [hothers d hd, hconns, update_of_ne hd, hclosed, h.state]
  · rw [htrace, h.trace]
    simp

/-- The timer of a parked await fires. -/
theorem reach_timerFired {name : String} {id secs : UInt64} (hk : s.conns c = some k)
    (hpc : k.pc = .parked name id (some secs)) :
    Machine.ReachVia (step L roster) (fun _ a => a.2.conn = c) s
      (s.put c { k with pc := .timerFired name id } []) :=
  .next .init rfl (@step_task L roster s 0 c k .timer _ _ hk rfl (by simp [Conn.step, hpc]))

end Hub

end AgentHub
