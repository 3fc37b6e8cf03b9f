import AgentHub.AuditFile
import AgentHub.Custody

/-!
# Who acts, and in whose name

A connection acts only for the agent its first line authenticates. The reading loop keeps
the bytes it has received in hand until the first newline (`Conn.HelloFirst`), so what the
task goes by is the first line of the byte stream, and a task that acts on shared state has
a hello of the roster behind it (`authenticated_of_acts`).

From there the provenance of every envelope : it was sent, stamped, on a connection that is
authenticated as its sender, or it is a bounce the hub has built (`authentication_gate`).
-/

namespace AgentHub

/-- The first line of the bytes decodes to a hello for `name` that is in the roster. -/
def FirstHello (L : Libs) (roster : Roster) (received : List UInt8) (name : String) : Prop :=
  ∃ line rest text token, received = line ++ newline :: rest ∧ newline ∉ line ∧
    fromUtf8 line = some text ∧ L.clientLineFromStr text = .ok (.hello name token) ∧
    roster.get name = some token

theorem FirstHello.mono {L : Libs} {roster : Roster} {received received' : List UInt8} {name : String}
    (h : FirstHello L roster received name) (hpre : received <+: received') :
    FirstHello L roster received' name := by
  obtain ⟨line, rest, text, token, hline, hnl, htext, hdecode, hroster⟩ := h
  obtain ⟨more, rfl⟩ := hpre
  exact ⟨line, rest ++ more, text, token, by simp [hline], hnl, htext, hdecode, hroster⟩

theorem FirstHello.get {L : Libs} {roster : Roster} {received : List UInt8} {name : String}
    (h : FirstHello L roster received name) : ∃ token, roster.get name = some token := by
  obtain ⟨-, -, -, token, -, -, -, -, hroster⟩ := h
  exact ⟨token, hroster⟩

/-- The first line is for one agent. -/
theorem FirstHello.unique {L : Libs} {roster : Roster} {received : List UInt8} {name name' : String}
    (h : FirstHello L roster received name) (h' : FirstHello L roster received name') : name = name' := by
  obtain ⟨line, rest, text, token, hline, hnl, htext, hdecode, -⟩ := h
  obtain ⟨line', rest', text', token', hline', hnl', htext', hdecode', -⟩ := h'
  obtain ⟨rfl, -⟩ := split_at_first (hline.symm.trans hline') hnl hnl'
  obtain rfl := Option.some.inj (htext.symm.trans htext')
  have heq := Except.ok.inj (hdecode.symm.trans hdecode')
  exact (ClientLine.hello.inj heq).1

/-- What a task has of its first line, while it has not read it. -/
def Pc.firstLine : Pc → Option (List UInt8)
  | .auditing _ _ .readHello => some []
  | .readHello line => some line
  | _ => none

theorem Pc.firstLine_auditing (phase phase' : AuditPhase) (event : AuditEvent) (next : AuditNext) :
    (Pc.auditing phase event next).firstLine = (Pc.auditing phase' event next).firstLine := by
  cases next <;> rfl

/-- Until the first newline all bytes received are in hand, and an authentication goes by
the first line. -/
structure Conn.HelloFirst (L : Libs) (roster : Roster) (k : Conn) (t : List Obs) : Prop where
  reading : ∀ line, k.pc.firstLine = some line → k.received = line ∧ newline ∉ line ∧ k.buf = []
  hello : ∀ c name, .authenticated c name ∈ t → FirstHello L roster k.received name

section Task

variable {L : Libs} {roster : Roster} {now : DateTime} {c : ConnId} {k k' : Conn} {t obs : List Obs}

theorem Conn.Fill.prefix {r : Except String (List UInt8)} {received : List UInt8}
    (h : k.Fill r received) : k.received <+: received := by
  cases h with
  | bytes => exact List.prefix_append _ _
  | error | buffered => exact List.prefix_rfl

theorem received_prefix_of_localStep (h : k.LocalStep L roster now c k' obs) :
    k.received <+: k'.received := by
  cases h with
  | helloMore hpc hfill | helloRefused hpc hfill | helloAccepted hpc hfill | verbMore hpc hfill
  | verbRefused hpc hfill | verbInvalid hpc hfill | verbSend hpc hfill | verbAwait hpc hfill =>
    exact hfill.prefix
  | _ => exact List.prefix_rfl

theorem received_eq_of_sharedStep {i : Input} (h : k.SharedStep now c i k' obs) :
    k'.received = k.received := by
  cases h <;> rfl

/-- Reading the first line, a task has all bytes in hand. -/
theorem Conn.HelloFirst.received_of_fill {r : Except String (List UInt8)} {received line buf : List UInt8}
    (h : k.HelloFirst L roster t) (hpc : k.pc = .readHello line) (hfill : k.Fill r received)
    (hr : r = .ok buf) : received = line ++ buf ∧ newline ∉ line := by
  obtain ⟨hreceived, hnl, hbuf⟩ := h.reading line (by rw [hpc]; rfl)
  cases hfill with
  | bytes =>
    cases hr
    exact ⟨by rw [hreceived], hnl⟩
  | error => cases hr
  | buffered hne => exact absurd hbuf hne

/-- A step that does not begin with the first line. -/
theorem Conn.HelloFirst.next (h : k.HelloFirst L roster t) (hpre : k.received <+: k'.received)
    (hpc : k'.pc.firstLine = none) (hobs : ∀ d name, .authenticated d name ∉ obs) :
    k'.HelloFirst L roster (t ++ obs) where
  reading line hline := by
    rw [hpc] at hline
    cases hline
  hello d name hm := (h.hello d name ((List.mem_append.1 hm).resolve_right (hobs d name))).mono hpre

theorem Conn.HelloFirst.localStep (h : k.HelloFirst L roster t)
    (hstep : k.LocalStep L roster now c k' obs) : k'.HelloFirst L roster (t ++ obs) := by
  have hpre := received_prefix_of_localStep hstep
  cases hstep with
  | helloMore hpc hfill hline =>
    obtain ⟨buf, hr, rfl, hnl⟩ := readLineStep_eq_more hline
    obtain ⟨hreceived, hnl'⟩ := h.received_of_fill hpc hfill hr
    refine ⟨?_, fun d name hm => (h.hello d name (by simpa using hm)).mono hpre⟩
    rintro line ⟨⟩
    refine ⟨hreceived, ?_, rfl⟩
    rw [List.mem_append]
    exact fun hm => hm.elim hnl' hnl
  | @helloAccepted r received line rest text name token hpc hfill hline hdecode hroster =>
    obtain ⟨pre, hr, hnl, -, htext⟩ := readLineStep_eq_line hline
    obtain ⟨hreceived, hnl'⟩ := h.received_of_fill hpc hfill hr
    refine ⟨(fun line hp => by cases hp), fun d name' hm => ?_⟩
    rcases List.mem_append.1 hm with hm | hm
    · exact (h.hello d name' hm).mono hpre
    · obtain ⟨-, rfl⟩ := Obs.authenticated.inj (List.mem_singleton.1 hm)
      refine ⟨line ++ pre, rest, text, token, by rw [hreceived, List.append_assoc], ?_, htext, hdecode,
        hroster⟩
      rw [List.mem_append]
      exact fun hm => hm.elim hnl' hnl
  | helloRefused hpc hfill hrefuse | verbRefused hpc hfill hrefuse =>
    refine h.next hpre ?_ (by simp)
    cases hrefuse <;> rfl
  | peerClosed => exact ⟨h.reading, fun d name hm => (h.hello d name (by simpa using hm)).mono hpre⟩
  | wroteAll hpc hobs =>
    refine h.next hpre rfl ?_
    rcases hobs with rfl | rfl <;> simp
  | _ => exact h.next hpre rfl (by simp)

theorem firstLine_of_afterUnlock {pc : Pc} (h : Conn.afterUnlock k.pc = some pc) :
    pc.firstLine = k.pc.firstLine := by
  generalize k.pc = p at h
  unfold Conn.afterUnlock at h
  split at h
  · rename_i next
    cases next <;> cases h <;> rfl
  · cases h
    rfl
  · cases h
    rfl
  · cases h
    rfl
  · cases h
    rfl
  · cases h

theorem Conn.HelloFirst.sharedStep {i : Input} (h : k.HelloFirst L roster t)
    (hstep : k.SharedStep now c i k' obs) : k'.HelloFirst L roster (t ++ obs) := by
  have hpre : k.received <+: k'.received := received_eq_of_sharedStep hstep ▸ List.prefix_rfl
  cases hstep with
  | lockedAudit hpc | logged hpc | unlogged hpc =>
    refine ⟨fun line hp => h.reading line ?_, fun d name hm => h.hello d name (by simpa using hm)⟩
    rw [hpc]
    exact (Pc.firstLine_auditing _ _ _ _).trans hp
  | unlocked hpc =>
    refine ⟨fun line hp => h.reading line ?_, fun d name hm => h.hello d name (by simpa using hm)⟩
    rw [← firstLine_of_afterUnlock hpc]
    exact hp
  | _ => exact h.next hpre rfl (by simp)

/-- An authenticated connection has the first line of a hello. -/
theorem helloFirst_of_run (h : Conn.Run L roster c t k) : k.HelloFirst L roster t := by
  induction h with
  | accepted => exact ⟨by rintro line ⟨⟩; exact ⟨rfl, by simp, rfl⟩, by simp⟩
  | «local» _ hstep ih => exact ih.localStep hstep
  | shared _ hstep ih => exact ih.sharedStep hstep
  | channel _ _ ih => exact ⟨ih.reading, ih.hello⟩

end Task

/-! ## Who acts -/

/-- An event of the protocol after authentication. -/
def AuditEvent.isProtocol : AuditEvent → Bool
  | .accepted _ _ | .delivery _ _ _ _ => true
  | .connection _ _ | .authFailure _ _ _ _ => false

/-- The next step of the task may change the routing state or append such an event. -/
def Pc.acts : Pc → Bool
  | .committing _ _ _ | .awaiting _ _ _ | .timerFired _ _ | .requeueing _ _ _ => true
  | .auditing _ event _ => event.isProtocol
  | _ => false

/-- The dispatch of a verb of the connection `c`. -/
def Obs.isVerbOf (c : ConnId) : Obs → Bool
  | .verb d _ _ => d = c
  | _ => false

section Verb

variable {L : Libs} {c : ConnId} {t : List Obs}

theorem Awaits.verb {name : String} (h : Awaits c t name) : ∃ name line, .verb c name line ∈ t := by
  obtain ⟨replyTo, kind, secs, hverb⟩ := h
  exact ⟨_, _, hverb⟩

theorem Role.Known.verb {role : Role} {e : Envelope} (h : role.Known L c t e) :
    ∃ name line, .verb c name line ∈ t := by
  cases role with
  | send name =>
    obtain ⟨e₀, -, hverb, -⟩ := h
    exact ⟨_, _, hverb⟩
  | bounce x name => exact h.2.2.1.verb

/-- A task acts for a verb of its connection. -/
theorem verb_of_acts {pc : Pc} (hknown : pc.Known L c t) (hacts : pc.acts = true) :
    ∃ name line, .verb c name line ∈ t := by
  cases pc with
  | committing phase role e => exact hknown.1.verb
  | awaiting name filter secs => exact ⟨_, _, hknown⟩
  | timerFired name id => exact hknown.1.verb
  | requeueing name x source => exact Awaits.verb hknown
  | auditing phase event next =>
    cases event with
    | accepted ts e => exact hknown.elim
    | delivery ts id name peer => exact hknown.1.verb
    | connection | authFailure => cases hacts
  | _ => cases hacts

end Verb

namespace Hub

variable {L : Libs} {roster : Roster} {audit : AuditLog} {s s' : Hub}

/-- The bytes the hub has received on `c` begin with the hello of `name`. -/
def Hello (L : Libs) (roster : Roster) (s : Hub) (c : ConnId) (name : String) : Prop :=
  ∃ k, s.conns c = some k ∧ FirstHello L roster k.received name

/-- The `accepted` and `delivery` events of a trace whose append returned `Ok`. -/
def protocolRecords (trace : List Obs) : List AuditEvent :=
  (recordsOf trace).filter AuditEvent.isProtocol

theorem Hello.get {c : ConnId} {name : String} (h : Hello L roster s c name) :
    ∃ token, roster.get name = some token := by
  obtain ⟨k, -, hfirst⟩ := h
  exact FirstHello.get hfirst

theorem Hello.unique {c : ConnId} {name name' : String} (h : Hello L roster s c name)
    (h' : Hello L roster s c name') : name = name' := by
  obtain ⟨k, hk, hfirst⟩ := h
  obtain ⟨k', hk', hfirst'⟩ := h'
  obtain rfl := Option.some.inj (hk.symm.trans hk')
  exact FirstHello.unique hfirst hfirst'

/-- A verb is dispatched for the agent of the first line. -/
theorem hello_of_verb (h : Reach L roster audit s) {c : ConnId} {name : String} {line : ClientLine}
    (hverb : .verb c name line ∈ s.trace) : Hello L roster s c name := by
  obtain ⟨k, hk⟩ := exists_conn_of_mem h hverb
  obtain ⟨pre, hpre, hauth⟩ := grounded_of_mem h hverb
  exact ⟨k, hk, (helloFirst_of_run (run_of_reach h hk)).hello c name (hpre hauth)⟩

/-- A connection performs one verb. -/
theorem countP_verb_le_one (h : Reach L roster audit s) (c : ConnId) :
    s.trace.countP (Obs.isVerbOf c) ≤ 1 := by
  obtain ⟨n, hmarks⟩ := marked_of_reach h c
  have hmark : ∀ o, Obs.isVerbOf c o = true → o.conn = c ∧ o.stage = some 4 := by
    intro o ho
    cases o with
    | verb d name line => exact ⟨of_decide_eq_true ho, rfl⟩
    | _ => cases ho
  have hcount : s.trace.countP (Obs.isVerbOf c) = (s.traceOf c).countP (Obs.isVerbOf c) := by
    rw [traceOf, List.countP_filter]
    refine List.countP_congr fun o _ => ?_
    have := hmark o
    simp only [Bool.and_eq_true, decide_eq_true_eq]
    tauto
  rw [hcount]
  exact hmarks.countP_le_one fun o ho => (hmark o ho).2

/-- Only a task that acts changes the routing state or appends an `accepted` or `delivery`
event. -/
theorem acts_of_step {a : DateTime × Action} (h : Step L roster s a s')
    (hne : s'.state ≠ s.state ∨ protocolRecords s'.trace ≠ protocolRecords s.trace) :
    ∃ k, s.conns a.2.conn = some k ∧ k.pc.acts = true := by
  have hquiet : ∀ {obs : List Obs}, recordsOf obs = [] → s'.state = s.state →
      s'.trace = s.trace ++ obs → False := by
    intro obs hobs hstate htrace
    have hrecords : protocolRecords s'.trace = protocolRecords s.trace := by
      rw [protocolRecords, htrace, recordsOf_append, hobs, List.append_nil, protocolRecords]
    exact hne.elim (fun h => h hstate) fun h => h hrecords
  cases h with
  | accept | unlockAudit | loseRace => exact (hquiet rfl rfl rfl).elim
  | task hk hstep => exact (hquiet (recordsOf_localStep hstep) rfl rfl).elim
  | lockAudit hfree hk hstep => exact (hquiet (recordsOf_sharedStep hstep (by simp)) rfl rfl).elim
  | route hk hpc | take hk hpc | park hk hpc | deregister hk hpc | requeue hk hpc =>
    exact ⟨_, hk, by rw [hpc]; rfl⟩
  | @append now c os k k' obs event audit' r hlock hk hevent hwrite hstep =>
    refine ⟨k, hk, ?_⟩
    have hobs := recordsOf_appended hstep hevent
    generalize k.pc = pc at hevent
    cases pc with
    | auditing phase event' next =>
      cases phase with
      | locked =>
        cases hevent
        by_contra hno
        have hevent : event.isProtocol = false := by simpa [Pc.acts] using hno
        have hrecords : protocolRecords (s.trace ++ obs) = protocolRecords s.trace := by
          rw [protocolRecords, recordsOf_append, hobs, List.filter_append, protocolRecords]
          split_ifs <;> simp [hevent]
        exact hne.elim (fun h => h rfl) fun h => h hrecords
      | waiting | appended => cases hevent
    | committing phase role e => rfl
    | _ => cases hevent

/-! ## Where envelopes come from -/

/-- The envelope was sent and stamped on a connection authenticated as its sender. -/
def SentBy (L : Libs) (roster : Roster) (s : Hub) (x : Stamped) (name : String) : Prop :=
  name ≠ hubName ∧ (∃ token, roster.get name = some token) ∧ x.envelope.from = name ∧
    ∃ c ts e, Hello L roster s c name ∧ .verb c name (.send e) ∈ s.trace ∧
      .accepted c (.send name) ts x ∈ s.trace ∧ x.envelope = { e with «from» := name }

/-- The envelope is a bounce that the hub has built. -/
def BuiltByHub (L : Libs) (s : Hub) (x : Stamped) : Prop :=
  x.envelope.from = hubName ∧ ∃ c lost name ts now uuid, .accepted c (.bounce lost name) ts x ∈ s.trace ∧
    x.envelope = bounceEnvelope L now uuid lost.envelope.id lost.envelope.from name
      "delivery failed after partial write"

theorem role_of_accepted (h : Reach L roster audit s) {c : ConnId} {role : Role} {ts : DateTime}
    {x : Stamped} (hx : .accepted c role ts x ∈ s.trace) : role.Known L c s.trace x.envelope := by
  obtain ⟨pre, hpre, hrole⟩ := grounded_of_mem h hx
  exact Role.Known.mono hrole (List.Subset.trans hpre (traceOf_subset s c))

/-- An envelope is accepted from its sender, or built by the hub. -/
theorem origin_of_accepted (hroster : roster.Accepted) (h : Reach L roster audit s) {x : Stamped}
    (hx : x ∈ acceptedOf s.trace) : (∃ name, SentBy L roster s x name) ∨ BuiltByHub L s x := by
  obtain ⟨c, role, ts, hx⟩ := mem_acceptedOf.1 hx
  have hrole := role_of_accepted h hx
  cases role with
  | send name =>
    obtain ⟨e, -, hverb, he⟩ := hrole
    have hhello := hello_of_verb h hverb
    obtain ⟨token, htoken⟩ := hhello.get
    exact Or.inl ⟨name, hroster.ne_hubName htoken, ⟨token, htoken⟩, by rw [he], c, ts, e, hhello, hverb, hx,
      he⟩
  | bounce lost name =>
    obtain ⟨-, -, -, now, uuid, he⟩ := hrole
    exact Or.inr ⟨by rw [he]; rfl, c, lost, name, ts, now, uuid, hx, he⟩

/-- With any roster that `load` accepts : what changes the routing state or appends an
`accepted` or a `delivery` event is a connection whose first line is a hello of the roster,
for the one verb it performs; what it commits for its client is stamped with the name of
that hello; and every envelope that is accepted or in some place was sent by an agent of
the roster on a connection authenticated as it, or is a bounce the hub has built. -/
theorem authentication_gate {readToString : String → Except String String}
    {fromStr : String → Except String Roster} {path : String}
    (hroster : Roster.load readToString fromStr path = .ok roster) (h : Reach L roster audit s) :
    (∀ a s', s.step L roster a = some s' →
      (s'.state ≠ s.state ∨ protocolRecords s'.trace ≠ protocolRecords s.trace) →
        ∃ name line, name ≠ hubName ∧ Hello L roster s a.2.conn name ∧
          .verb a.2.conn name line ∈ s.trace) ∧
    (∀ c, s.trace.countP (Obs.isVerbOf c) ≤ 1) ∧
    (∀ c name ts x, .accepted c (.send name) ts x ∈ s.trace → Hello L roster s c name ∧
      (∀ n, Hello L roster s c n → x.envelope.from = n) ∧
        ∃ e, .verb c name (.send e) ∈ s.trace ∧ x.envelope = { e with «from» := name }) ∧
    ∀ x, (x ∈ acceptedOf s.trace ∨ ∃ p, x ∈ s.held p) →
      (∃ name, SentBy L roster s x name) ∨ BuiltByHub L s x := by
  have haccepted := Roster.accepted_of_load hroster
  refine ⟨fun a s' hs hne => ?_, fun c => ?_, fun c name ts x hx => ?_, fun x hx => ?_⟩
  · obtain ⟨k, hk, hacts⟩ := acts_of_step (step_cases hs) hne
    obtain ⟨name, line, hverb⟩ := verb_of_acts (known_of_run (run_of_reach h hk)).1 hacts
    have hverb' := (mem_traceOf.1 hverb).1
    have hhello := hello_of_verb h hverb'
    obtain ⟨token, htoken⟩ := hhello.get
    exact ⟨name, line, haccepted.ne_hubName htoken, hhello, hverb'⟩
  · exact countP_verb_le_one h c
  · obtain ⟨e, -, hverb, he⟩ := role_of_accepted h hx
    have hhello := hello_of_verb h hverb
    exact ⟨hhello, fun n hn => by rw [he, hhello.unique hn], e, hverb, he⟩
  · refine origin_of_accepted haccepted h ?_
    rcases hx with hx | ⟨p, hx⟩
    · exact hx
    · exact mem_acceptedOf_of_routed h ((custody_of_reach h).routed p x hx)

theorem authentication_gate_exchange : ∃ s, SampleReach s ∧ (acceptedOf s.trace).length = 2 ∧
    ∀ x ∈ acceptedOf s.trace, (∃ name, SentBy sampleLibs sampleRoster s x name) ∨
      BuiltByHub sampleLibs s x := by
  obtain ⟨s, h, hs⟩ := @exists_of_runSample exchange (fun s => (acceptedOf s.trace).length = 2)
    (by decide +kernel)
  exact ⟨s, h, of_decide_eq_true hs, fun x hx =>
    (authentication_gate load_sampleRoster h).2.2.2 x (Or.inl hx)⟩

end Hub

end AgentHub
