import AgentHub.ExitCodes
import AgentHub.Representation
import AgentHub.Timeout
import AgentHub.TokenFile
import AgentHub.Wraparound

/-!
# What the end of an invocation tells

Where no socket operation fails, an invocation that has connected ends with the hub's error message,
with the id of an envelope that the hub has accepted as the command line gives it, with an envelope
that the await asks for, or with the timeout that the hub has answered (`Session.agrees_of_exited`).
-/

namespace AgentHub

/-- No other connection acts. -/
def Event.isOwn (c : ConnId) : Event → Bool
  | .hub _ a => a.conn = c
  | _ => true

theorem Oneshot.eq_fresh {ε : Type} {ch : Oneshot ε} (hvalue : ch.value = none) (htx : ch.txAlive = true)
    (hrx : ch.rxAlive = true) : ch = .fresh := by
  cases ch
  subst hvalue htx hrx
  rfl

namespace Session

/-- What the end of an invocation tells about the hub. -/
inductive Agrees (F : Floats) (S : SerdeJson) (args : Args) (env : Surroundings) (c : ConnId) (t : List Obs) :
    Except ClientError Exit → Prop
  | refused {message : String} (hans : .answered c (.error message) ∈ t) :
      Agrees F S args env c t (.error (.hub message))
  | accepted {recipient kind text : String} {correlationId : Option String} {body : Value} {ts : DateTime}
      {x : Stamped} (hcommand : args.command = .send recipient kind correlationId text)
      (hbody : resolveBody S env text = .ok body) (hx : .accepted c (.send args.asName) ts x ∈ t)
      (hfrom : x.envelope.from = args.asName) (hto : x.envelope.to = recipient)
      (hkind : x.envelope.kind = kind) (hcorrelation : x.envelope.correlationId = correlationId)
      (hvalue : body.Made Number.IsInteger → x.envelope.body = body) :
      Agrees F S args env c t (.ok (.success (x.envelope.id ++ "\n")))
  | delivered {replyTo kind : Option String} {secs : Option UInt64} {x : Stamped} {v : Value} {jsonl : String}
      (hcommand : args.command = .await replyTo kind secs) (hx : .written c x ∈ t)
      (hto : x.envelope.to = args.asName) (hmatches : AwaitFilter.matches ⟨replyTo, kind⟩ x.envelope = true)
      (hv : Value.decode F (x.envelope.body.encode F) = some v)
      (hjsonl : toJsonl S.envelopeToString { x.envelope with body := v } = .ok jsonl) :
      Agrees F S args env c t (.ok (.success jsonl))
  | timedOut {replyTo kind : Option String} {secs : Option UInt64}
      (hcommand : args.command = .await replyTo kind secs) (hans : .answered c .timeout ∈ t)
      (hunserved : parks t ≤ 2 ^ 64 → handedTo c t = [] ∧ ∀ x, .took c x ∉ t) :
      Agrees F S args env c t (.ok .timeout)

/-! ## From the command line to the verb -/

section

variable {S : SerdeJson} {args : Args} {env : Surroundings} {inv : Invocation}

theorem assemble_of_prepare (h : prepare S args env = .ok inv) :
    inv.name = args.asName ∧ assemble S args env = .ok inv.verb := by
  unfold prepare at h
  cases hverb : assemble S args env with
  | error e =>
    rw [hverb] at h
    cases h
  | ok verb =>
    cases htoken : readToken env args.tokenFile with
    | error e =>
      rw [hverb, htoken] at h
      cases h
    | ok token =>
      rw [hverb, htoken] at h
      rw [← Except.ok.inj h]
      exact ⟨rfl, rfl⟩

theorem send_of_assemble {e : Envelope} (h : assemble S args env = .ok (.send e)) :
    ∃ recipient kind correlationId text, args.command = .send recipient kind correlationId text ∧
      resolveBody S env text = .ok e.body ∧
      e = ⟨env.uuid, args.asName, recipient, env.ts, kind, correlationId, e.body⟩ := by
  unfold assemble at h
  split at h
  · rename_i recipient kind correlationId text hcommand
    cases hbody : resolveBody S env text with
    | error err => rw [hbody] at h; cases h
    | ok body =>
      rw [hbody] at h
      obtain rfl := ClientLine.send.inj (Except.ok.inj h)
      exact ⟨recipient, kind, correlationId, text, hcommand, hbody, rfl⟩
  · cases h

theorem await_of_assemble {replyTo kind : Option String} {secs : Option UInt64}
    (h : assemble S args env = .ok (.await replyTo kind secs)) :
    args.command = .await replyTo kind secs := by
  unfold assemble at h
  split at h
  · rename_i recipient kind correlationId text hcommand
    cases hbody : resolveBody S env text with
    | error err => rw [hbody] at h; cases h
    | ok body => rw [hbody] at h; cases h
  · rename_i hcommand
    rw [hcommand]
    obtain ⟨rfl, rfl, rfl⟩ := ClientLine.await.inj (Except.ok.inj h)
    rfl

end

/-! ## What the hub has seen -/

variable {L : Libs} {F : Floats} {S : SerdeJson} {formatTs : DateTime → String} {roster : Roster}
  {args : Args} {env : Surroundings} {inv : Invocation} {c : ConnId} {audit : AuditLog} {fine : Bool}
  {s : Session} {r : Except ClientError Exit}

/-- The hub performs the verb in the name of the invocation. -/
theorem Paired.name_of_verb (hS : S.Derived F formatTs) (h : s.Paired L F S roster inv c audit fine)
    {name : String} {read : ClientLine} (hverb : .verb c name read ∈ s.hub.trace) : name = inv.name := by
  obtain ⟨k, hk, hello, rest, text, token, hreceived, hnl, htext, hread, -⟩ :=
    Hub.hello_of_verb h.reach hverb
  have hpre : hello ++ [newline] <+: inv.bytes F :=
    List.IsPrefix.trans ⟨rest, by simp [hreceived]⟩ (h.received_isPrefix hk)
  have hline : inv.hello.bytes F = hello ++ [newline] :=
    (ClientLine.isLine_bytes _).unique ⟨hello, hnl, rfl⟩ (List.prefix_append _ _) hpre
  have hdecode := decode_of_line hS hline htext hread
  rw [ClientLine.decode_encode_plain _ (by simp [Invocation.hello])] at hdecode
  exact (ClientLine.hello.inj (Option.some.inj hdecode)).1.symm

/-- A send that was accepted on the connection is that of the invocation. -/
theorem Paired.accepted (hS : S.Derived F formatTs) (h : s.Paired L F S roster inv c audit fine)
    (hprepare : prepare S args env = .ok inv) {e : Envelope} (hverb : inv.verb = .send e) {id : String}
    (hans : .answered c (.accepted id) ∈ s.hub.trace) :
    Agrees F S args env c s.hub.trace (.ok (.success (id ++ "\n"))) := by
  obtain ⟨hname, hassemble⟩ := assemble_of_prepare hprepare
  rw [hverb] at hassemble
  obtain ⟨recipient, kind, correlationId, text, hcommand, hbody, he⟩ := send_of_assemble hassemble
  obtain ⟨pre, hpre, name, ts, x, outcome, hx, -, rfl⟩ := Hub.exists_grounded h.reach hans
  obtain ⟨read, -, hread, hstamped⟩ := Hub.role_of_accepted h.reach (hpre hx)
  obtain rfl : name = args.asName := (h.name_of_verb hS hread).trans hname
  have hdecode := h.decode_of_verb hS hread
  rw [hverb] at hdecode
  obtain ⟨e₀, he₀, v, hv, rfl⟩ := send_of_decode_line hdecode
  obtain rfl := ClientLine.send.inj he₀
  refine .accepted hcommand hbody (hpre hx) ?_ ?_ ?_ ?_ fun hmade => ?_
  · rw [hstamped]
  · rw [hstamped, he]
  · rw [hstamped, he]
  · rw [hstamped, he]
  · rw [Value.decode_encode hmade] at hv
    rw [hstamped]
    exact (Option.some.inj hv).symm

/-- An envelope that was written to the connection is one that the invocation awaits. -/
theorem Paired.delivered (hS : S.Derived F formatTs) (h : s.Paired L F S roster inv c audit fine)
    (hprepare : prepare S args env = .ok inv) {replyTo kind : Option String} {secs : Option UInt64}
    (hverb : inv.verb = .await replyTo kind secs) {x : Stamped} (hx : .written c x ∈ s.hub.trace) {v : Value}
    (hv : Value.decode F (x.envelope.body.encode F) = some v) {jsonl : String}
    (hjsonl : toJsonl S.envelopeToString { x.envelope with body := v } = .ok jsonl) :
    Agrees F S args env c s.hub.trace (.ok (.success jsonl)) := by
  obtain ⟨hname, hassemble⟩ := assemble_of_prepare hprepare
  rw [hverb] at hassemble
  obtain ⟨filter, secs', hread, hmatches⟩ :=
    Hub.wanted_of_held h.reach (p := .written c) rfl (mem_writtenTo.2 hx)
  have hdecode := h.decode_of_verb hS hread
  have hline := await_of_decode_line hdecode
  rw [hverb] at hline
  obtain ⟨rfl, rfl, -⟩ := ClientLine.await.inj hline
  exact .delivered (await_of_assemble hassemble) hx ((h.name_of_verb hS hread).trans hname) hmatches hv hjsonl

/-- In every run in which no socket operation fails before the client exits, hub and client agree on the
end of an invocation that has connected. -/
theorem agrees_of_exited (hS : S.Derived F formatTs) (hF : F.Lawful) (hprepare : prepare S args env = .ok inv)
    (h : Machine.ReachVia (step (L.withSerde S) S roster inv c) (fun _ e => e.fails = false) (init audit) s)
    (hexit : s.client.pc = .exited r) : Agrees F S args env c s.hub.trace r := by
  have hpaired : s.Paired L F S roster inv c audit true :=
    paired_of_reach hS (h.mono fun _ _ hfine hfails => absurd hfails (by simp [hfine]))
  have hends := hpaired.client
  unfold Client.Follows at hends
  rw [hexit] at hends
  cases hends with
  | refused hsent hans => exact .refused hans
  | last hsent hlast =>
    have hsettled := Hub.settled_of_last hS hF hpaired.reach (fun _ _ => hpaired.decode_of_verb hS) hlast
    generalize finish S inv.verb _ = r at hsettled
    cases hsettled with
    | refused hans => exact .refused hans
    | accepted hverb hans => exact hpaired.accepted hS hprepare hverb hans
    | timedOut hverb hans =>
      have hassemble := (assemble_of_prepare hprepare).2
      rw [hverb] at hassemble
      exact .timedOut (await_of_assemble hassemble) hans fun hparks => Hub.unserved_of_timeout hpaired.reach
        (fun k hk => (Hub.handoffs_of_reach hpaired.reach hparks).account hk) hans
    | delivered hverb hx hv hjsonl => exact hpaired.delivered hS hprepare hverb hx hv hjsonl
  | severed _ hfine => cases hfine

/-! ## Sample invocations -/

/-- `bob` sends the sample envelope. -/
def sendArgs (body : String) : Args :=
  ⟨"bob", "bob.token", .send "alice" "task" none body⟩

/-- What `bob` has around him. -/
def bobAtHome : Surroundings where
  readFile _ := .ok "b-token\n"
  stdin := .ok ""
  uuid := "m1"
  ts := epoch

theorem prepare_sendArgs : prepare sampleSerde (sendArgs "null") bobAtHome = .ok bobSending := by
  rfl

/-- The hub accepts the envelope, and the client prints its id. -/
def acceptance : List Event :=
  introducing bobSending ++ requesting bobSending ++ [.hub 0 (.lockAudit 0),
    appending (.accepted 0 (sampleEnvelope "m1" "task")), .hub 0 (.route 0), .hub 0 (.unlockAudit 0),
    .hub 0 (.task 0 (.replied (.ok ()))), .client (.read ((ServerLine.accepted "m1").bytes noFloats))]

theorem agrees_of_exited_accepted : ∃ s, Machine.Reach (sampleStep bobSending) (init sampleAudit) s ∧
    s.client.pc = .exited (.ok (.success "m1\n")) ∧
    Agrees noFloats sampleSerde (sendArgs "null") bobAtHome 0 s.hub.trace (.ok (.success "m1\n")) := by
  have hS : sampleSerde.Derived noFloats fun _ => epoch := SerdeJson.derived_ofDerives _ _
  obtain ⟨s, hs, hexit⟩ := Option.any_eq_true _ _ |>.1
    (by decide +kernel : (Machine.run (sampleStep bobSending) (init sampleAudit) acceptance).any
      (fun s => s.client.pc = .exited (.ok (.success "m1\n"))) = true)
  have hexit := of_decide_eq_true hexit
  have hreach : Machine.ReachVia (sampleStep bobSending) (fun _ e => e.fails = false) (init sampleAudit) s :=
    Machine.reachVia_of_run hs fun _ => by decide +kernel
  exact ⟨s, hreach.reach, hexit, agrees_of_exited hS lawful_noFloats prepare_sendArgs hreach hexit⟩

/-! ## A timeout that consumes an envelope -/

/-- The other clients act. -/
theorem reach_others {hub : Hub}
    (h : Machine.ReachVia (Hub.step L roster) (fun _ a => a.2.conn ≠ c) s.hub hub) :
    Machine.ReachVia (step L S roster inv c) (fun _ e => e.fails = false) s { s with hub } := by
  induction h with
  | init => exact .init
  | @next hub₁ hub₂ a _ hne hs ih =>
    obtain ⟨now, a⟩ := a
    have hpermits : ∀ s : Session, s.permits c a = true := by
      intro s
      cases a with
      | accept d peer => exact decide_eq_true (show d ≠ c from hne)
      | task d i => simp [permits, show d ≠ c from hne]
      | _ => rfl
    have hstep : step L S roster inv c { s with hub := hub₁ } (.hub now a) = some { s with hub := hub₂ } := by
      simp only [step, hpermits, if_true, hs, Option.map_some]
    exact .next ih rfl hstep

/-- Only the session's own connection has been accepted. -/
theorem conns_of_own (h : Machine.ReachVia (step L S roster inv c) (fun _ e => e.isOwn c = true) (init audit) s)
    {d : ConnId} (hd : d ≠ c) : s.hub.conns d = none := by
  refine Machine.ReachVia.invariant (P := fun s => s.hub.conns d = none) h rfl
    fun s e s' _ hnone hown hs => ?_
  have hstep : ∀ {hub : Hub} {a : DateTime × Action}, a.2.conn = c → s.hub.step L roster a = some hub →
      hub.conns d = none := by
    intro hub a ha hstep
    by_contra hne
    obtain ⟨k', hk'⟩ := Option.ne_none_iff_exists'.1 hne
    cases Hub.effect_of_step hstep hk' with
    | frame hk => cases hnone.symm.trans hk
    | accepted haccept => exact hd (by rw [← ha, haccept]; rfl)
    | step hk => cases hnone.symm.trans hk
  cases e with
  | hub now a =>
    simp only [step] at hs
    split_ifs at hs
    obtain ⟨hub, hhub, rfl⟩ := Option.map_eq_some_iff.1 hs
    exact hstep (a := (now, a)) (of_decide_eq_true hown) hhub
  | connect now peer =>
    obtain ⟨hub, hhub, hs⟩ := Option.bind_eq_some_iff.1 hs
    obtain ⟨client, -, rfl⟩ := Option.map_eq_some_iff.1 hs
    exact hstep rfl hhub
  | client i =>
    simp only [step] at hs
    split_ifs at hs
    obtain ⟨client, -, rfl⟩ := Option.map_eq_some_iff.1 hs
    exact hnone
  | breaks =>
    obtain rfl := Option.some.inj hs
    exact hnone

/-- `alice` awaits with a timeout. -/
def aliceAwaiting : Invocation :=
  ⟨"alice", "a-token", .await none none (some 1)⟩

/-- The await of `alice` has parked, and nothing has been accepted. -/
def hasParked (s : Session) : Bool :=
  s.client.pc = .readingReply && s.hub.auditLock = none && acceptedOf s.hub.trace = [] &&
    parks s.hub.trace = 1 && s.hub.state.registered "alice" = [⟨0, ⟨none, none⟩, 0⟩] &&
    s.hub.state.nextWaiterId = 1 && (s.hub.conns 0).any fun k =>
      match k.pc with
      | .parked "alice" 0 (some 1) => k.chan.value.isNone && k.chan.txAlive && k.chan.rxAlive
      | _ => false

/-- While nothing has been accepted nothing is queued. -/
theorem queues_of_nothing_accepted {hub : Hub} (h : Hub.Reach L roster audit hub)
    (hnone : acceptedOf hub.trace = []) (name : String) : hub.state.queues name = none := by
  by_contra hne
  obtain ⟨x, hx⟩ := List.exists_mem_of_ne_nil _ ((Hub.compact_of_reach h).queues.getD_ne_nil hne)
  have haccepted : x ∈ acceptedOf hub.trace :=
    Hub.mem_acceptedOf_of_routed h ((Hub.custody_of_reach h).routed (.queue name) x hx)
  rw [hnone] at haccepted
  cases haccepted

theorem exists_hasParked : ∃ s, Machine.ReachVia (sampleStep aliceAwaiting) (fun _ e => e.fails = false)
    (init sampleAudit) s ∧ s.client.pc = .readingReply ∧
    Hub.Crowd (sampleLibs.withSerde sampleSerde) s.hub 0 s.hub := by
  have hS : sampleSerde.Derived noFloats fun _ => epoch := SerdeJson.derived_ofDerives _ _
  obtain ⟨s, hs, hparked⟩ := Option.any_eq_true _ _ |>.1
    (by decide +kernel : (Machine.run (sampleStep aliceAwaiting) (init sampleAudit)
      (introducing aliceAwaiting ++ requesting aliceAwaiting ++ [.hub 0 (.await 0)])).any hasParked = true)
  have hreach : Machine.ReachVia (sampleStep aliceAwaiting) (fun _ e => e.fails = false ∧ e.isOwn 0 = true)
      (init sampleAudit) s := Machine.reachVia_of_run hs fun _ => by decide +kernel
  have hpaired : s.Paired sampleLibs noFloats sampleSerde sampleRoster aliceAwaiting 0 sampleAudit false :=
    paired_of_reach hS (hreach.mono fun _ _ _ _ => rfl)
  simp only [hasParked, Bool.and_eq_true, decide_eq_true_eq] at hparked
  obtain ⟨⟨⟨⟨⟨⟨hpc, hfree⟩, hnone⟩, hparks⟩, halice⟩, hnext⟩, hconn⟩ := hparked
  obtain ⟨k, hk, hmatch⟩ := Option.any_eq_true _ _ |>.1 hconn
  refine ⟨s, hreach.mono fun _ _ => And.left, hpc, .init, hfree,
    queues_of_nothing_accepted hpaired.reach hnone, halice, hnext, ⟨k, hk, ?_⟩, fun d hd => ?_, hparks⟩
  · split at hmatch
    · rename_i hpc
      simp only [Bool.and_eq_true, Option.isNone_iff_eq_none] at hmatch
      exact ⟨hpc, Oneshot.eq_fresh hmatch.1.1 hmatch.1.2 hmatch.2⟩
    · cases hmatch
  · exact conns_of_own (hreach.mono fun _ _ => And.right) (Nat.pos_iff_ne_zero.1 hd)

/-- The task of the session makes its step. -/
theorem reach_own {now : DateTime} {a : Action} {hub : Hub} (hpermits : s.permits c a = true)
    (hstep : s.hub.step L roster (now, a) = some hub) :
    Machine.ReachVia (step L S roster inv c) (fun _ e => e.fails = false) s { s with hub } := by
  refine .next .init rfl (?_ : step L S roster inv c s (.hub now a) = _)
  simp only [step, hpermits, if_true, hstep, Option.map_some]

theorem step_replied (hL : L.Speaks F) {now : DateTime} {k : Conn} {line : ServerLine}
    (hpc : k.pc = .replying line .finish) : k.step L roster now c (.replied (.ok ())) =
      some ({ k with pc := .finished, out := k.out ++ line.bytes F }, [.answered c line]) := by
  simp only [Conn.step, hpc, Conn.reply]
  rw [hL line]
  rfl

/-- The timer of a parked await finds a waiter, and the client reads `timeout`. -/
theorem reach_timeout (hS : S.Derived F formatTs)
    (h : Machine.ReachVia (step (L.withSerde S) S roster inv c) (fun _ e => e.fails = false) (init audit) s)
    (hclient : s.client.pc = .readingReply) {replyTo kind : Option String} {secs : Option UInt64}
    (hverb : inv.verb = .await replyTo kind secs) {k : Conn} (hk : s.hub.conns c = some k) {name : String}
    {id secs' : UInt64} (hpc : k.pc = .parked name id (some secs')) {w : Waiter} {state : HubState Stamped}
    (hremove : removeWaiter s.hub.state name id = some (w, state)) (hw : w.tx ≠ c) :
    ∃ s', Machine.ReachVia (step (L.withSerde S) S roster inv c) (fun _ e => e.fails = false) s s' ∧
      s'.client.pc = .exited (.ok .timeout) ∧ s.hub.trace <+: s'.hub.trace := by
  -- the timer
  let k₁ : Conn := { k with pc := .timerFired name id }
  have htimer := @Hub.step_task (L.withSerde S) roster s.hub 0 c k .timer k₁ [] hk rfl
    (by simp [Conn.step, hpc, k₁])
  have hreach₁ := @reach_own (L.withSerde S) S roster inv c s 0 (.task c .timer) _
    (by simp [permits, hk, hubIo]) htimer
  have hk₁ : (s.hub.put c k₁ []).conns c = some k₁ := by rw [Hub.put_conns, if_pos rfl]
  -- the hub takes the waiter out
  have hderegister := @Hub.step_deregister (L.withSerde S) roster _ 0 c k₁ _ _ _ _ hk₁ rfl hremove
  generalize hhub₂ : Hub.onChan _ _ _ = hub₂ at hderegister
  have hreach₂ := hreach₁.trans (@reach_own (L.withSerde S) S roster inv c { s with hub := s.hub.put c k₁ [] }
    0 (.deregister c) _ rfl hderegister)
  obtain ⟨k₂, hk₂, hpc₂⟩ : ∃ k₂, hub₂.conns c = some k₂ ∧ k₂.pc = .replying .timeout .finish := by
    rw [← hhub₂, Hub.onChan_conns]
    simp [Hub.put_conns, Ne.symm hw]
  -- up to here it has said `ok`, and the client has read it
  have hpaired : ({ s with hub := hub₂ } : Session).Paired L F S roster inv c audit true :=
    paired_of_reach hS ((h.trans hreach₂).mono fun _ _ hfine hfails => absurd hfails (by simp [hfine]))
  have hout : k₂.out = ServerLine.ok.bytes F := by
    have hsaid := hpaired.said k₂ hk₂ (by simp [Client.hasExited, hclient])
    unfold Conn.Said at hsaid
    rw [hpc₂] at hsaid
    exact hsaid.2.resolve_left (by simp)
  have hconsumed : s.client.consumed = ServerLine.ok.bytes F := by
    have hfollows := hpaired.client
    unfold Client.Follows at hfollows
    rw [show ({ s with hub := hub₂ } : Session).client.pc = .readingReply from hclient] at hfollows
    exact hfollows.2.resolve_right (by simp)
  -- it answers
  let k₃ : Conn := { k₂ with pc := .finished, out := k₂.out ++ ServerLine.timeout.bytes F }
  have hreply := @Hub.step_task (L.withSerde S) roster hub₂ 0 c k₂ (.replied (.ok ())) k₃ [.answered c .timeout]
    hk₂ rfl (step_replied (speaks_of_derived hS L) hpc₂)
  have hreach₃ := hreach₂.trans (@reach_own (L.withSerde S) S roster inv c { s with hub := hub₂ } 0
    (.task c (.replied (.ok ()))) _ (by simp [permits, hk₂, hubIo]) hreply)
  -- and the client reads the answer
  have hline : IsLine newline (ServerLine.timeout.bytes F) := ServerLine.isLine_bytes _
  let client : Client :=
    { s.client with pc := .exited (.ok .timeout), consumed := s.client.consumed ++ ServerLine.timeout.bytes F }
  have hread : step (L.withSerde S) S roster inv c { s with hub := hub₂.put c k₃ [.answered c .timeout] }
      (.client (.read (ServerLine.timeout.bytes F))) =
      some { s with hub := hub₂.put c k₃ [.answered c .timeout], client } := by
    have hoffers : ({ s with hub := hub₂.put c k₃ [.answered c .timeout] } : Session).offers c
        (.read (ServerLine.timeout.bytes F)) = true := by
      obtain ⟨pre, hpre, heq⟩ := hline
      have hunread : (k₂.out ++ ServerLine.timeout.bytes F).drop s.client.consumed.length =
          ServerLine.timeout.bytes F := by
        rw [hout, hconsumed, List.drop_left]
      simp only [offers, Hub.put_conns, if_true, clientIo, k₃, hunread, if_pos (ServerLine.isLine_bytes _).mem]
      simp [heq, hpre]
    have hfinish : finish S inv.verb (ServerLine.timeout.bytes F) = .ok .timeout := by
      rw [hverb, finish, finishAwait, readReply_of_plain hS _ (by simp)]
      · rfl
      · simp
    simp only [step, hoffers, if_true, Client.step, hclient, hfinish]
    rfl
  refine ⟨_, .next hreach₃ rfl hread, rfl, ?_⟩
  rw [Hub.put_trace, ← hhub₂]
  simp [List.append_assoc]

/-- An invocation may end before it connects, with an error of its own. And `alice` may exit with the
code of a timeout when an envelope has been handed to her await : after `2 ^ 64` other awaits the hub
finds the waiter of another one. -/
theorem exists_disagreement :
    (∃ args env e, prepare sampleSerde args env = .error e ∧ ∀ message, e ≠ .hub message) ∧
    ∃ s x, Machine.ReachVia (sampleStep aliceAwaiting) (fun _ e => e.fails = false) (init sampleAudit) s ∧
      s.client.pc = .exited (.ok .timeout) ∧ x ∈ handedTo 0 s.hub.trace := by
  have hS : sampleSerde.Derived noFloats fun _ => epoch := SerdeJson.derived_ofDerives _ _
  refine ⟨⟨sendArgs "x", bobAtHome, .bodyNotJson "invalid value", rfl, by simp⟩, ?_⟩
  obtain ⟨s₀, hreach₀, hclient, h₀⟩ := exists_hasParked
  have alice : (ClientLine.hello "alice" "a-token").Bytes (sampleLibs.withSerde sampleSerde) :=
    Hub.bytesOfWritten hS sampleLibs (ClientLine.decode_encode trivial) (by decide +kernel) (by decide +kernel)
  have bob : (ClientLine.hello "bob" "b-token").Bytes (sampleLibs.withSerde sampleSerde) :=
    Hub.bytesOfWritten hS sampleLibs (ClientLine.decode_encode trivial) (by decide +kernel) (by decide +kernel)
  have line : (ClientLine.await none none (some 1)).Bytes (sampleLibs.withSerde sampleSerde) :=
    Hub.bytesOfWritten hS sampleLibs (ClientLine.decode_encode trivial) (by decide +kernel) (by decide +kernel)
  have task : (ClientLine.send (sampleEnvelope "m1" "task")).Bytes (sampleLibs.withSerde sampleSerde) :=
    Hub.bytesOfWritten hS sampleLibs (ClientLine.decode_encode .null) (by decide +kernel) (by decide +kernel)
  obtain ⟨hub₁, k, x, w, state, hothers, -, hk, hpc, hvalue, hremove, hw⟩ :=
    Hub.exists_shared_id (Hub.serializes_withSerde hS sampleLibs) bob line alice task rfl h₀
  have hreach₁ : Machine.ReachVia (sampleStep aliceAwaiting) (fun _ e => e.fails = false) (init sampleAudit)
      { s₀ with hub := hub₁ } := hreach₀.trans (reach_others hothers)
  have hhub₁ : Hub.Reach (sampleLibs.withSerde sampleSerde) sampleRoster sampleAudit hub₁ :=
    (@paired_of_reach _ noFloats _ _ _ _ _ _ false _ hS (hreach₁.mono fun _ _ _ _ => rfl)).reach
  have hx : x ∈ handedTo 0 hub₁.trace := by
    rw [((Hub.shares_of_reach hhub₁).share hk).waiting (by simp [hpc, Pc.waiting]), hvalue]
    exact List.mem_singleton_self x
  obtain ⟨s, hreach, hexit, later, htrace⟩ := reach_timeout hS hreach₁ hclient rfl hk hpc hremove hw
  refine ⟨s, x, hreach₁.trans hreach, hexit, ?_⟩
  rw [← htrace, handedTo_append]
  exact List.mem_append_left _ hx

end Session

end AgentHub
