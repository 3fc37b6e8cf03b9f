import AgentHub.Connection

/-!
# What one step of a task can do

The steps of a connection task as rules, one for each way a step can go, with its guards :
`Conn.LocalStep` for the inputs that touch nothing shared, `Conn.SharedStep` for the
results of operations under a lock (`localStep_of_step`, `sharedStep_of_step`). Facts about
tasks are proved by cases on the rules and never unfold `Conn.step`.
-/

namespace AgentHub

section Rules

variable (L : Libs) (roster : Roster) (now : DateTime) (c : ConnId)

/-- What `fill_buf` returns, `r`, with the bytes received after it : a socket read once the
buffer is empty, the buffer before that. -/
inductive Conn.Fill (k : Conn) : Except String (List UInt8) → List UInt8 → Prop
  | bytes {bytes : List UInt8} (hbuf : k.buf = []) : Fill k (.ok bytes) (k.received ++ bytes)
  | error {e : String} (hbuf : k.buf = []) : Fill k (.error e) k.received
  | buffered (hbuf : k.buf ≠ []) : Fill k (.ok k.buf) k.received

/-- A program point at which the connection is given up before or instead of a verb : the
task ends, answers with an error, or logs a failed authentication first. -/
inductive Pc.Refusing : Pc → Prop
  | finished : Refusing .finished
  | error (message : String) : Refusing (.replying (.error message) .finish)
  | authFailure (ts : DateTime) (peer name message : String) (reason : AuthFailureReason) :
      Refusing (.auditing .waiting (.authFailure ts peer name reason) (.refuse message))

/-- The task waits on its handoff channel. -/
inductive Pc.Waits (name : String) : Pc → Prop
  | parked (waiterId : UInt64) (timeoutSecs : Option UInt64) :
      Waits name (.parked name waiterId timeoutSecs)
  | lostRace : Waits name (.lostRace name)

/-- The task waits on its handoff channel or for the state lock of its timer branch. -/
inductive Pc.Mortal : Pc → Prop
  | parked (name : String) (waiterId : UInt64) (timeoutSecs : Option UInt64) :
      Mortal (.parked name waiterId timeoutSecs)
  | timerFired (name : String) (waiterId : UInt64) : Mortal (.timerFired name waiterId)
  | lostRace (name : String) : Mortal (.lostRace name)

/-- The rules for the inputs that touch nothing shared. -/
inductive Conn.LocalStep (k : Conn) : Conn → List Obs → Prop
  | helloMore {r : Except String (List UInt8)} {received line line' : List UInt8}
      (hpc : k.pc = .readHello line) (hfill : k.Fill r received)
      (hline : readLineStep line r = .more line') :
      LocalStep k { k with received, buf := [], pc := .readHello line' } []
  | helloRefused {r : Except String (List UInt8)} {received line rest : List UInt8}
      {pc : Pc} (hpc : k.pc = .readHello line) (hfill : k.Fill r received) (hrefuse : pc.Refusing) :
      LocalStep k { k with received, buf := rest, pc } []
  | helloAccepted {r : Except String (List UInt8)} {received line rest : List UInt8}
      {text name token : String} (hpc : k.pc = .readHello line) (hfill : k.Fill r received)
      (hline : readLineStep line r = .done (.ok (some text)) rest)
      (hdecode : L.clientLineFromStr text = .ok (.hello name token))
      (hroster : roster.get name = some token) :
      LocalStep k { k with received, buf := rest, pc := .replying .ok (.readVerb name) }
        [.authenticated c name]
  | verbMore {r : Except String (List UInt8)} {received line line' : List UInt8}
      {name : String} (hpc : k.pc = .readVerb name line) (hfill : k.Fill r received)
      (hline : readLineStep line r = .more line') :
      LocalStep k { k with received, buf := [], pc := .readVerb name line' } []
  | verbRefused {r : Except String (List UInt8)} {received line rest : List UInt8}
      {name : String} {pc : Pc} (hpc : k.pc = .readVerb name line) (hfill : k.Fill r received)
      (hrefuse : pc.Refusing) : LocalStep k { k with received, buf := rest, pc } []
  | verbInvalid {r : Except String (List UInt8)} {received line rest : List UInt8}
      {name message : String} {verb : ClientLine} (hpc : k.pc = .readVerb name line)
      (hfill : k.Fill r received) :
      LocalStep k { k with received, buf := rest, pc := .replying (.error message) .finish }
        [.verb c name verb]
  | verbSend {r : Except String (List UInt8)} {received line rest : List UInt8}
      {name : String} {e : Envelope} (hpc : k.pc = .readVerb name line)
      (hfill : k.Fill r received) (hvalid : e.validate L.parseFromRfc3339 = .ok ()) :
      LocalStep k
        { k with
          received, buf := rest
          pc := .committing .waiting (.send name) { e with «from» := name } }
        [.verb c name (.send e)]
  | verbAwait {r : Except String (List UInt8)} {received line rest : List UInt8}
      {name : String} {replyTo kind : Option String} {timeoutSecs : Option UInt64}
      (hpc : k.pc = .readVerb name line) (hfill : k.Fill r received)
      (hreplyTo : replyTo ≠ some "") (hkind : kind ≠ some "") :
      LocalStep k { k with received, buf := rest, pc := .awaiting name ⟨replyTo, kind⟩ timeoutSecs }
        [.verb c name (.await replyTo kind timeoutSecs)]
  | repliedVerb {line : ServerLine} {name : String} {out : List UInt8}
      (hpc : k.pc = .replying line (.readVerb name)) :
      LocalStep k { k with pc := .readVerb name [], out } []
  | replyLost {line : ServerLine} {name : String} {out : List UInt8}
      (hpc : k.pc = .replying line (.readVerb name)) :
      LocalStep k { k with pc := .finished, out } []
  | answered {line : ServerLine} {out : List UInt8}
      (hpc : k.pc = .replying line .finish) :
      LocalStep k { k with pc := .finished, out } [.answered c line]
  | handed {x : Stamped} {name : String} (hpc : k.pc.Waits name)
      (hvalue : k.chan.value = some x) :
      LocalStep k { k with pc := .writing name x "handoff" 0, chan := k.chan.dropRx } []
  | channelLost {name : String} (hpc : k.pc.Waits name) (hvalue : k.chan.value = none)
      (htx : k.chan.txAlive = false) :
      LocalStep k
        { k with
          pc := .replying (.error "internal error: await handoff lost") .finish
          chan := k.chan.dropRx } []
  | timer {name : String} {waiterId secs : UInt64}
      (hpc : k.pc = .parked name waiterId (some secs)) :
      LocalStep k { k with pc := .timerFired name waiterId } []
  | wroteMore {name source : String} {x : Stamped} {written written' : ℕ} {out : List UInt8}
      (hpc : k.pc = .writing name x source written) (hlt : written < written') :
      LocalStep k { k with pc := .writing name x source written', out } [.bytes c x]
  | wroteAll {name source : String} {x : Stamped} {written : ℕ} {out : List UInt8}
      {obs : List Obs} (hpc : k.pc = .writing name x source written)
      (hobs : obs = [] ∨ obs = [.bytes c x]) :
      LocalStep k
        { k with pc := .auditing .waiting (.delivery now x.envelope.id name k.peer) .finish, out }
        (obs ++ [.written c x])
  | failedClean {name source : String} {x : Stamped} {out : List UInt8}
      (hpc : k.pc = .writing name x source 0) :
      LocalStep k { k with pc := .requeueing name x source, out } []
  | failedPartial {name source : String} {x : Stamped} {written : ℕ}
      {out : List UInt8} (hpc : k.pc = .writing name x source written) (hpos : 0 < written)
      (hfrom : x.envelope.from ≠ hubName) :
      LocalStep k { k with pc := .bouncing name x, out } [.lost c x]
  | bounceLost {name source : String} {x : Stamped} {written : ℕ}
      {out : List UInt8} (hpc : k.pc = .writing name x source written) (hpos : 0 < written)
      (hfrom : x.envelope.from = hubName) :
      LocalStep k { k with pc := .finished, out } [.lost c x]
  | bounced {uuid name : String} {x : Stamped} (hpc : k.pc = .bouncing name x) :
      LocalStep k
        { k with
          pc := .committing .waiting (.bounce x name)
            (bounceEnvelope L now uuid x.envelope.id x.envelope.from name
              "delivery failed after partial write") } []
  | died (hpc : k.pc.Mortal) (hvalue : k.chan.value = none) :
      LocalStep k { k with pc := .dead, chan := k.chan.dropRx } []
  | peerClosed : LocalStep k { k with peerClosed := true } [.peerClosed c]

/-- The rules for the results of what the task does under a lock. -/
inductive Conn.SharedStep (k : Conn) : Input → Conn → List Obs → Prop
  | lockedAudit {event : AuditEvent} {next : AuditNext} (hpc : k.pc = .auditing .waiting event next) :
      SharedStep k .locked { k with pc := .auditing .locked event next } []
  | lockedCommit {role : Role} {e : Envelope} (hpc : k.pc = .committing .waiting role e) :
      SharedStep k .locked { k with pc := .committing .locked role e } []
  | logged {event : AuditEvent} {next : AuditNext} {seq : ℕ}
      (hpc : k.pc = .auditing .locked event next) :
      SharedStep k (.appended (.ok seq)) { k with pc := .auditing .appended event next }
        [.logged c event]
  | unlogged {event : AuditEvent} {next : AuditNext} {e : AuditError}
      (hpc : k.pc = .auditing .locked event next) :
      SharedStep k (.appended (.error e)) { k with pc := .auditing .appended event next }
        [.unlogged c event]
  | accepted {role : Role} {e : Envelope} {seq : ℕ} (hpc : k.pc = .committing .locked role e) :
      SharedStep k (.appended (.ok seq)) { k with pc := .committing (.appended ⟨e, seq⟩) role e }
        [.accepted c role now ⟨e, seq⟩]
  | refused {role : Role} {e : Envelope} {cause : AuditError}
      (hpc : k.pc = .committing .locked role e) :
      SharedStep k (.appended (.error cause)) { k with pc := .committing (.failed cause.display) role e }
        [.refused c role e]
  | routed {x : Stamped} {role : Role} {e : Envelope} {outcome : SendOutcome}
      (hpc : k.pc = .committing (.appended x) role e) :
      SharedStep k (.routed outcome) { k with pc := .committing (.routed x) role e }
        [.routed c x .back outcome]
  | unlocked {pc : Pc} (hpc : Conn.afterUnlock k.pc = some pc) : SharedStep k .unlocked { k with pc } []
  | took {x : Stamped} {name : String} {filter : AwaitFilter} {timeoutSecs : Option UInt64}
      (hpc : k.pc = .awaiting name filter timeoutSecs) :
      SharedStep k (.took x) { k with pc := .writing name x "queue" 0 } [.took c x]
  | parked {waiterId : UInt64} {name : String} {filter : AwaitFilter}
      {timeoutSecs : Option UInt64} (hpc : k.pc = .awaiting name filter timeoutSecs) :
      SharedStep k (.parked waiterId)
        { k with pc := .parked name waiterId timeoutSecs, chan := .fresh }
        [.parked c name waiterId]
  | deregistered {name : String} {waiterId : UInt64} (hpc : k.pc = .timerFired name waiterId) :
      SharedStep k (.deregistered true)
        { k with pc := .replying .timeout .finish, chan := k.chan.dropRx } [.deregistered c]
  | raceLost {name : String} {waiterId : UInt64} (hpc : k.pc = .timerFired name waiterId) :
      SharedStep k (.deregistered false) { k with pc := .lostRace name } []
  | requeued {name source : String} {x : Stamped} {outcome : SendOutcome}
      (hpc : k.pc = .requeueing name x source) :
      SharedStep k (.requeued outcome) { k with pc := .finished } [.routed c x .front outcome]

end Rules

section Inversion

variable {L : Libs} {roster : Roster} {now : DateTime} {c : ConnId}

theorem onHelloLine_refusing {peer : String} {r : Except ReadLineError (Option String)}
    (h : ∀ text name token, r = .ok (some text) → L.clientLineFromStr text = .ok (.hello name token) →
      roster.get name ≠ some token) :
    (onHelloLine L roster now c peer r).1.Refusing ∧ (onHelloLine L roster now c peer r).2 = [] := by
  unfold onHelloLine
  split
  · exact ⟨.finished, rfl⟩
  · exact ⟨.error _, rfl⟩
  rename_i text
  unfold fromJsonl
  cases hdecode : L.clientLineFromStr text with
  | error e => exact ⟨.error _, rfl⟩
  | ok line =>
    cases line with
    | send e => exact ⟨.error _, rfl⟩
    | await replyTo kind timeoutSecs => exact ⟨.error _, rfl⟩
    | hello name token =>
      have hroster := h text name token rfl hdecode
      dsimp only
      unfold handleHello
      cases hget : roster.get name with
      | none => exact ⟨.authFailure _ _ _ _ _, rfl⟩
      | some expected =>
        have hne : expected ≠ token := fun heq => hroster (by rw [hget, heq])
        dsimp only
        rw [if_pos hne]
        exact ⟨.authFailure _ _ _ _ _, rfl⟩

/-- What a first line makes of the task. -/
theorem onHelloLine_cases (peer : String) (r : Except ReadLineError (Option String)) :
    (onHelloLine L roster now c peer r).1.Refusing ∧ (onHelloLine L roster now c peer r).2 = [] ∨
      ∃ text name token, r = .ok (some text) ∧
        L.clientLineFromStr text = .ok (.hello name token) ∧ roster.get name = some token ∧
        onHelloLine L roster now c peer r = (.replying .ok (.readVerb name), [.authenticated c name]) := by
  by_cases h : ∀ text name token, r = .ok (some text) →
      L.clientLineFromStr text = .ok (.hello name token) → roster.get name ≠ some token
  · exact Or.inl (onHelloLine_refusing h)
  · push Not at h
    obtain ⟨text, name, token, rfl, hdecode, hroster⟩ := h
    refine Or.inr ⟨text, name, token, rfl, hdecode, hroster, ?_⟩
    simp [onHelloLine, fromJsonl, hdecode, handleHello, hroster]

/-- What a second line makes of the task. -/
theorem onVerbLine_cases (name : String) (r : Except ReadLineError (Option String)) :
    (onVerbLine L c name r).1.Refusing ∧ (onVerbLine L c name r).2 = [] ∨
      (∃ verb message, onVerbLine L c name r =
        (.replying (.error message) .finish, [.verb c name verb])) ∨
      (∃ e, e.validate L.parseFromRfc3339 = .ok () ∧ onVerbLine L c name r =
        (.committing .waiting (.send name) { e with «from» := name }, [.verb c name (.send e)])) ∨
      ∃ replyTo kind timeoutSecs, replyTo ≠ some "" ∧ kind ≠ some "" ∧ onVerbLine L c name r =
        (.awaiting name ⟨replyTo, kind⟩ timeoutSecs, [.verb c name (.await replyTo kind timeoutSecs)]) := by
  unfold onVerbLine
  split
  · exact Or.inl ⟨.finished, rfl⟩
  · exact Or.inl ⟨.error _, rfl⟩
  rename_i text
  unfold fromJsonl
  cases L.clientLineFromStr text with
  | error e => exact Or.inl ⟨.error _, rfl⟩
  | ok line =>
    cases line with
    | hello name token => exact Or.inl ⟨.error _, rfl⟩
    | send e =>
      dsimp only [handleSend]
      cases hvalid : e.validate L.parseFromRfc3339 with
      | error cause => exact Or.inr (Or.inl ⟨_, _, rfl⟩)
      | ok u => exact Or.inr (Or.inr (Or.inl ⟨e, hvalid, rfl⟩))
    | await replyTo kind timeoutSecs =>
      dsimp only [handleAwait]
      by_cases hreplyTo : replyTo = some ""
      · rw [if_pos hreplyTo]
        exact Or.inr (Or.inl ⟨_, _, rfl⟩)
      by_cases hkind : kind = some ""
      · rw [if_neg hreplyTo, if_pos hkind]
        exact Or.inr (Or.inl ⟨_, _, rfl⟩)
      · rw [if_neg hreplyTo, if_neg hkind]
        exact Or.inr (Or.inr (Or.inr ⟨_, _, _, hreplyTo, hkind, rfl⟩))

/-- A round of reading changes the buffer and the program point, and nothing else. -/
theorem frame_of_readRound {k k' : Conn} {obs : List Obs} {r : Except String (List UInt8)}
    (h : k.readRound L roster now c r = some (k', obs)) : ∃ buf pc, k' = { k with buf, pc } := by
  unfold Conn.readRound at h
  split at h
  · split at h
    · exact ⟨_, _, (Prod.mk.inj (Option.some.inj h)).1.symm⟩
    · exact ⟨_, _, (Prod.mk.inj (Option.some.inj h)).1.symm⟩
  · split at h
    · exact ⟨_, _, (Prod.mk.inj (Option.some.inj h)).1.symm⟩
    · exact ⟨_, _, (Prod.mk.inj (Option.some.inj h)).1.symm⟩
  · cases h

/-- A task reads its first line or its second. -/
theorem pc_of_readRound {k k' : Conn} {obs : List Obs} {r : Except String (List UInt8)}
    (h : k.readRound L roster now c r = some (k', obs)) :
    (∃ line, k.pc = .readHello line) ∨ ∃ name line, k.pc = .readVerb name line := by
  unfold Conn.readRound at h
  split at h
  · rename_i line hpc
    exact Or.inl ⟨line, hpc⟩
  · rename_i name line hpc
    exact Or.inr ⟨name, line, hpc⟩
  · cases h

/-- A round of reading, on what `fill_buf` returned. -/
theorem localStep_of_readRound {k k' : Conn} {obs : List Obs} {r : Except String (List UInt8)}
    {received : List UInt8} (hfill : k.Fill r received)
    (h : { k with received }.readRound L roster now c r = some (k', obs)) :
    k.LocalStep L roster now c k' obs := by
  unfold Conn.readRound at h
  dsimp only at h
  split at h
  · rename_i line hpc
    split at h
    · rename_i line' hline
      cases h
      exact .helloMore hpc hfill hline
    · rename_i result rest hline
      obtain ⟨rfl, rfl⟩ := Prod.mk.inj (Option.some.inj h)
      rcases @onHelloLine_cases L roster now c k.peer result with
        ⟨hrefuse, hobs⟩ | ⟨text, name, token, rfl, hdecode, hroster, heq⟩
      · rw [hobs]
        exact .helloRefused hpc hfill hrefuse
      · rw [heq]
        exact .helloAccepted hpc hfill hline hdecode hroster
  · rename_i name line hpc
    split at h
    · rename_i line' hline
      cases h
      exact .verbMore hpc hfill hline
    · rename_i result rest hline
      obtain ⟨rfl, rfl⟩ := Prod.mk.inj (Option.some.inj h)
      rcases @onVerbLine_cases L c name result with
        ⟨hrefuse, hobs⟩ | ⟨verb, message, heq⟩ | ⟨e, hvalid, heq⟩ |
        ⟨replyTo, kind, timeoutSecs, hreplyTo, hkind, heq⟩
      · rw [hobs]
        exact .verbRefused hpc hfill hrefuse
      · rw [heq]
        exact .verbInvalid hpc hfill
      · rw [heq]
        exact .verbSend hpc hfill hvalid
      · rw [heq]
        exact .verbAwait hpc hfill hreplyTo hkind
  · cases h

/-- The end of the writing loop on a write that accepted nothing. -/
theorem localStep_of_classify {k : Conn} {name source : String} {x : Stamped} {len written : ℕ}
    {out : List UInt8} (hpc : k.pc = .writing name x source written) :
    k.LocalStep L roster now c
      { k with pc := (Conn.afterWrite now c k name x source (classifyWrite len written)).1, out }
      (Conn.afterWrite now c k name x source (classifyWrite len written)).2 := by
  unfold classifyWrite
  split_ifs with hall hzero
  · exact Conn.LocalStep.wroteAll hpc (Or.inl rfl)
  · subst hzero
    exact .failedClean hpc
  · by_cases hfrom : x.envelope.from ≠ hubName
    · simp only [Conn.afterWrite, if_pos hfrom]
      exact .failedPartial hpc (Nat.pos_of_ne_zero hzero) hfrom
    · simp only [Conn.afterWrite, if_neg hfrom]
      exact .bounceLost hpc (Nat.pos_of_ne_zero hzero) (not_not.1 hfrom)

/-- A write of the envelope line. -/
theorem localStep_of_write {k k' : Conn} {obs : List Obs} {name source : String} {x : Stamped}
    {written : ℕ} {r : WriteResult} (hpc : k.pc = .writing name x source written)
    (h : k.write L now c name x source written r = some (k', obs)) :
    k.LocalStep L roster now c k' obs := by
  unfold Conn.write at h
  split at h
  · cases h
  rename_i jsonl hjsonl
  dsimp only at h
  split at h
  · cases h
  · rename_i written' hround
    obtain ⟨rfl, rfl⟩ := Prod.mk.inj (Option.some.inj h)
    rcases writeRound_cases hround with ⟨n, hn, rfl, hle, hstep⟩ | ⟨-, hstep⟩
    · split_ifs at hstep with hlt
      obtain rfl := WriteStep.more.inj hstep
      have hne : ((asBytes jsonl).drop written).take n ≠ [] := by
        rw [Ne, List.take_eq_nil_iff, List.drop_eq_nil_iff]
        omega
      rw [if_neg hne]
      exact .wroteMore hpc (by omega)
    · cases hstep
  · rename_i outcome hround
    obtain ⟨rfl, rfl⟩ := Prod.mk.inj (Option.some.inj h)
    rcases writeRound_cases hround with ⟨n, hn, rfl, hle, hstep⟩ | ⟨hr, hstep⟩
    · split_ifs at hstep with hlt
      obtain rfl := WriteStep.done.inj hstep
      refine .wroteAll hpc ?_
      split_ifs <;> simp
    · obtain rfl := WriteStep.done.inj hstep
      rcases hr with rfl | ⟨e, rfl⟩
      · simpa using localStep_of_classify hpc
      · exact localStep_of_classify hpc

/-- A return of `write_line`. -/
theorem localStep_of_reply {k k' : Conn} {obs : List Obs} {line : ServerLine} {next : ReplyNext}
    {r : Except ℕ Unit} (hpc : k.pc = .replying line next)
    (h : k.reply L c line next r = some (k', obs)) : k.LocalStep L roster now c k' obs := by
  unfold Conn.reply at h
  cases next with
  | finish =>
    dsimp only at h
    split at h
    · cases h
      exact .answered hpc
    · cases h
    · split_ifs at h
      cases h
      exact .answered hpc
    · cases h
      exact .answered hpc
  | readVerb name =>
    dsimp only at h
    split at h
    · cases h
      exact .replyLost hpc
    · cases h
    · split_ifs at h
      cases h
      exact .replyLost hpc
    · cases h
      exact .repliedVerb hpc

/-- A receiver that is ready yields its envelope, or is lost. -/
theorem polled_cases {k k' : Conn} {obs : List Obs}
    (h : k.step L roster now c .polled = some (k', obs)) : obs = [] ∧ ∃ name, k.pc.Waits name ∧
      ((∃ x, k.chan.value = some x ∧
        k' = { k with pc := .writing name x "handoff" 0, chan := k.chan.dropRx }) ∨
      k.chan.value = none ∧ k.chan.txAlive = false ∧
        k' = { k with
          pc := .replying (.error "internal error: await handoff lost") .finish
          chan := k.chan.dropRx }) := by
  have hwaits : ∀ {pc : Pc} {name : String}, k.pc = pc → pc.Waits name → k.pc.Waits name :=
    fun hpc h => hpc ▸ h
  cases hvalue : k.chan.value with
  | some x =>
    simp only [Conn.step, hvalue] at h
    split at h
    · rename_i hpc
      cases h
      exact ⟨rfl, _, hwaits hpc (.parked _ _), Or.inl ⟨x, rfl, rfl⟩⟩
    · rename_i hpc
      cases h
      exact ⟨rfl, _, hwaits hpc .lostRace, Or.inl ⟨x, rfl, rfl⟩⟩
    · cases h
  | none =>
    simp only [Conn.step, hvalue] at h
    split at h
    · rename_i hpc
      split_ifs at h with htx
      cases h
      exact ⟨rfl, _, hwaits hpc (.parked _ _), Or.inr ⟨rfl, by simpa using htx, rfl⟩⟩
    · rename_i hpc
      split_ifs at h with htx
      cases h
      exact ⟨rfl, _, hwaits hpc .lostRace, Or.inr ⟨rfl, by simpa using htx, rfl⟩⟩
    · cases h

/-- A step that touches nothing shared. -/
theorem localStep_of_step {k k' : Conn} {obs : List Obs} {i : Input} (hi : i.isLocal = true)
    (h : k.step L roster now c i = some (k', obs)) : k.LocalStep L roster now c k' obs := by
  cases i with
  | recv r =>
    simp only [Conn.step] at h
    split_ifs at h with hbuf
    cases r with
    | ok bytes => exact localStep_of_readRound (.bytes hbuf) h
    | error e => exact localStep_of_readRound (.error hbuf) h
  | refill =>
    simp only [Conn.step] at h
    split_ifs at h with hbuf
    exact localStep_of_readRound (.buffered hbuf) h
  | replied r =>
    simp only [Conn.step] at h
    split at h
    · rename_i hpc
      exact localStep_of_reply hpc h
    · cases h
  | polled =>
    obtain ⟨rfl, name, hwaits, ⟨x, hvalue, rfl⟩ | ⟨hvalue, htx, rfl⟩⟩ := polled_cases h
    · exact .handed hwaits hvalue
    · exact .channelLost hwaits hvalue htx
  | timer =>
    simp only [Conn.step] at h
    split at h
    · rename_i hpc
      cases h
      exact .timer hpc
    · cases h
  | wrote r =>
    simp only [Conn.step] at h
    split at h
    · rename_i hpc
      exact localStep_of_write hpc h
    · cases h
  | unserializable =>
    simp only [Conn.step] at h
    split at h
    · rename_i hpc
      split at h
      · cases h
        exact .failedClean hpc
      · cases h
    · cases h
  | bounced uuid =>
    simp only [Conn.step] at h
    split at h
    · rename_i hpc
      cases h
      exact .bounced hpc
    · cases h
  | died =>
    simp only [Conn.step] at h
    split at h
    · rename_i hpc hvalue
      cases h
      exact .died (hpc ▸ .parked _ _ _) hvalue
    · rename_i hpc hvalue
      cases h
      exact .died (hpc ▸ .timerFired _ _) hvalue
    · rename_i hpc hvalue
      cases h
      exact .died (hpc ▸ .lostRace _) hvalue
    · cases h
  | peerClosed =>
    cases h
    exact .peerClosed
  | locked | appended | routed | unlocked | took | parked | deregistered | requeued => cases hi

/-- Death takes a task that waits while its channel is empty. -/
theorem mortal_of_died {k k' : Conn} {obs : List Obs} (h : k.step L roster now c .died = some (k', obs)) :
    k.pc.Mortal ∧ k' = { k with pc := .dead, chan := k.chan.dropRx } ∧ obs = [] := by
  simp only [Conn.step] at h
  split at h
  · rename_i hpc _
    obtain ⟨rfl, rfl⟩ := Prod.mk.inj (Option.some.inj h)
    exact ⟨hpc ▸ .parked _ _ _, rfl, rfl⟩
  · rename_i hpc _
    obtain ⟨rfl, rfl⟩ := Prod.mk.inj (Option.some.inj h)
    exact ⟨hpc ▸ .timerFired _ _, rfl, rfl⟩
  · rename_i hpc _
    obtain ⟨rfl, rfl⟩ := Prod.mk.inj (Option.some.inj h)
    exact ⟨hpc ▸ .lostRace _, rfl, rfl⟩
  · cases h

/-- A step on the result of an operation under a lock. -/
theorem sharedStep_of_step {k k' : Conn} {obs : List Obs} {i : Input} (hi : i.isLocal = false)
    (h : k.step L roster now c i = some (k', obs)) : k.SharedStep now c i k' obs := by
  cases i with
  | locked =>
    simp only [Conn.step] at h
    split at h
    · rename_i hpc
      cases h
      exact .lockedAudit hpc
    · rename_i hpc
      cases h
      exact .lockedCommit hpc
    · cases h
  | appended r =>
    simp only [Conn.step] at h
    split at h
    · rename_i hpc
      cases h
      exact .logged hpc
    · rename_i hpc
      cases h
      exact .unlogged hpc
    · rename_i hpc
      cases h
      exact .accepted hpc
    · rename_i hpc
      cases h
      exact .refused hpc
    · cases h
  | routed outcome =>
    simp only [Conn.step] at h
    split at h
    · rename_i hpc
      cases h
      exact .routed hpc
    · cases h
  | unlocked =>
    simp only [Conn.step] at h
    obtain ⟨pc, hpc, heq⟩ := Option.map_eq_some_iff.1 h
    cases heq
    exact .unlocked hpc
  | took x =>
    simp only [Conn.step] at h
    split at h
    · rename_i hpc
      cases h
      exact .took hpc
    · cases h
  | parked waiterId =>
    simp only [Conn.step] at h
    split at h
    · rename_i hpc
      cases h
      exact .parked hpc
    · cases h
  | deregistered removed =>
    simp only [Conn.step] at h
    split at h
    · rename_i hpc
      cases removed with
      | true =>
        cases h
        exact .deregistered hpc
      | false =>
        cases h
        exact .raceLost hpc
    · cases h
  | requeued outcome =>
    simp only [Conn.step] at h
    split at h
    · rename_i hpc
      cases h
      exact .requeued hpc
    · cases h
  | recv | refill | replied | polled | timer | wrote | unserializable | bounced | died | peerClosed =>
    cases hi

/-- The next step of the task is under a lock, or it has ended. -/
def Pc.locks : Pc → Bool
  | .auditing _ _ _ | .committing _ _ _ | .awaiting _ _ _ | .requeueing _ _ _ | .finished | .dead => true
  | _ => false

/-- On its own such a task only sees its peer close. -/
theorem peerClosed_of_localStep {k k' : Conn} {obs : List Obs} (h : k.LocalStep L roster now c k' obs)
    (hk : k.pc.locks = true) : k'.pc = k.pc ∧ obs = [.peerClosed c] := by
  cases h with
  | peerClosed => exact ⟨rfl, rfl⟩
  | handed hwaits | channelLost hwaits =>
    generalize k.pc = pc at hwaits hk
    cases hwaits <;> cases hk
  | died hmortal =>
    generalize k.pc = pc at hmortal hk
    cases hmortal <;> cases hk
  | helloMore hpc | helloRefused hpc | helloAccepted hpc | verbMore hpc | verbRefused hpc
  | verbInvalid hpc | verbSend hpc | verbAwait hpc | repliedVerb hpc | replyLost hpc | answered hpc
  | timer hpc | bounced hpc | wroteMore hpc | wroteAll hpc | failedClean hpc | failedPartial hpc
  | bounceLost hpc =>
    rw [hpc] at hk
    cases hk

end Inversion

end AgentHub
