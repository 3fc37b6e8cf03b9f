import AgentHub.Follower
import AgentHub.Sample

/-!
# Bodies and the service log

What a step logs for the file is the same on the blanked hub (`records_bodiless`) : only
`trace_payload` looks at a body, and its records are for the console. So two runs that come
to the same outcomes, bodies aside, route alike and fill the file alike
(`bodies_unobserved`).
-/

namespace AgentHub

open Record FieldValue

/-! ## What the file keeps -/

/-- A value without its count of bytes. -/
def FieldValue.uncounted : FieldValue → FieldValue
  | .bytes _ => .bytes 0
  | v => v

/-- A record without its counts of bytes. -/
def Record.uncounted (r : Record) : Record :=
  { r with fields := r.fields.map fun f => (f.1, f.2.uncounted) }

/-- What the file keeps of a record, counts of bytes aside. -/
def Record.kept (r : Record) : Option Record :=
  if r.inFile then some r.uncounted else none

theorem filterMap_kept (rs : List Record) :
    rs.filterMap Record.kept = (rs.filter Record.inFile).map Record.uncounted := by
  induction rs with
  | nil => rfl
  | cons r rs ih =>
    by_cases hr : r.inFile = true <;> simp [Record.kept, hr, ih]

/-- The two texts of a body that the service log renders are there : a JSON value always
serializes. -/
def LogTexts.Renders (T : LogTexts) : Prop :=
  ∀ body, ∃ text, T.prettyBody body = .ok text

section Records

variable {L : Libs} {T : LogTexts} {roster : Roster} {s s' : Hub} {k : Conn} {now : DateTime} {c : ConnId}

/-- The payload trace is for the console alone. -/
theorem kept_tracePayload (hT : T.Renders) (direction : String) (e : Envelope) :
    (tracePayload T direction e).kept = none := by
  obtain ⟨body, hbody⟩ := hT e.body
  simp only [tracePayload, hbody]
  rfl

theorem filterMap_tracePayload (hT : T.Renders) (direction : String) (e : Envelope) :
    [tracePayload T direction e].filterMap Record.kept = [] := by
  rw [List.filterMap_cons_none (kept_tracePayload hT direction e), List.filterMap_nil]

theorem helloRecords_bodiless (peer : String) (r : LineRead) :
    helloRecords roster peer r.bodiless = helloRecords roster peer r := by
  cases r with
  | error e => rfl
  | ok line =>
    rcases line with _ | _ | verb
    · rfl
    · rfl
    · cases verb <;> rfl

theorem verbRecords_bodiless (hT : T.Renders) (peer name : String) (r : LineRead) :
    (verbRecords L T peer name r.bodiless).filterMap Record.kept =
      (verbRecords L T peer name r).filterMap Record.kept := by
  cases r with
  | error e => rfl
  | ok line =>
    rcases line with _ | _ | verb
    · rfl
    · rfl
    cases verb with
    | hello | await => rfl
    | send e =>
      change (sendRecords L T peer name e.bodiless).filterMap Record.kept =
        (sendRecords L T peer name e).filterMap Record.kept
      simp only [sendRecords, validate_bodiless]
      cases e.validate L.parseFromRfc3339 with
      | error cause => rfl
      | ok u => simp only [filterMap_tracePayload hT]

theorem lineRecords_bodiless (hT : T.Renders) (k : Conn) (r : LineRead) :
    (lineRecords L T roster k.bodiless r.bodiless).filterMap Record.kept =
      (lineRecords L T roster k r).filterMap Record.kept := by
  unfold lineRecords
  rw [Conn.bodiless_pc]
  cases k.pc with
  | readHello line => exact congrArg _ (helloRecords_bodiless k.peer r)
  | readVerb name line => exact verbRecords_bodiless hT k.peer name r
  | _ => rfl

theorem replyRecords_bodiless (hL : L.Serializes) (k : Conn) (done : Bool) (cause : String) :
    replyRecords L k.bodiless done cause = replyRecords L k done cause := by
  unfold replyRecords
  rw [Conn.bodiless_pc]
  cases k.pc with
  | replying line next =>
    obtain ⟨text, htext⟩ := hL.server line
    obtain ⟨text', htext'⟩ := hL.server line.bodiless
    simp only [Pc.bodiless, toJsonl, htext, htext', Conn.bodiless_peer]
  | _ => rfl

theorem appendRecords_bodiless (k : Conn) (r : Except AuditError Unit) :
    appendRecords T k.bodiless r = appendRecords T k r := by
  cases r with
  | ok => rfl
  | error e =>
    unfold appendRecords
    rw [Conn.bodiless_pc]
    cases k.pc <;> rfl

theorem writeRecords_bodiless (k : Conn) (result : EnvelopeWrite) (stop : Option WriteResult) :
    (writeRecords k.bodiless result.uncounted stop).filterMap Record.kept =
      (writeRecords k result stop).filterMap Record.kept := by
  unfold writeRecords
  rw [Conn.bodiless_pc]
  cases k.pc with
  | writing name x source written =>
    rcases stop with _ | ⟨n⟩ | ⟨e⟩ <;> cases result <;> rfl
  | _ => rfl

theorem bounceRecords_bodiless (hT : T.Renders) (k : Conn) (uuid : String) :
    (bounceRecords L T now k.bodiless uuid).filterMap Record.kept =
      (bounceRecords L T now k uuid).filterMap Record.kept := by
  unfold bounceRecords
  rw [Conn.bodiless_pc]
  cases k.pc with
  | bouncing name x => simp only [Pc.bodiless, filterMap_tracePayload hT]
  | _ => rfl

theorem purged_bodiless (closed : ConnId → Bool) (state : HubState Stamped) (x : Stamped) :
    purged closed (state.map Stamped.bodiless) x.bodiless = purged closed state x := by
  have hbests : ∀ ws, best x.bodiless.envelope ws = best x.envelope ws :=
    best_congr fun filter => sameAddress_bodiless.accepts filter x
  fun_induction purged closed state x with
  | case1 state hws =>
    rw [purged]
    split
    · rfl
    · rename_i hws'
      cases hws.symm.trans hws'
  | case2 state ws hws hbest =>
    rw [purged]
    split
    · rfl
    · rename_i hws'
      obtain rfl := Option.some.inj (hws.symm.trans hws')
      rw [hbests, hbest]
  | case3 state ws hws i hbest hclosed ih =>
    rw [purged]
    split
    · rename_i hws'
      cases hws.symm.trans hws'
    · rename_i hws'
      obtain rfl := Option.some.inj (hws.symm.trans hws')
      rw [hbests, hbest]
      dsimp only
      rw [if_pos hclosed]
      exact congrArg _ ih
  | case4 state ws hws i hbest hclosed =>
    rw [purged]
    split
    · rfl
    · rename_i hws'
      obtain rfl := Option.some.inj (hws.symm.trans hws')
      rw [hbests, hbest]
      dsimp only
      rw [if_neg hclosed]

theorem purgeRecords_bodiless (s : Hub) (x : Stamped) :
    purgeRecords s.bodiless x.bodiless = purgeRecords s x := by
  rw [purgeRecords, purgeRecords, Hub.bodiless_closed, Hub.bodiless_state, purged_bodiless]
  rfl

theorem routeRecords_bodiless (s : Hub) (k : Conn) :
    routeRecords s.bodiless k.bodiless = routeRecords s k := by
  unfold routeRecords
  rw [Conn.bodiless_pc]
  cases k.pc with
  | committing phase role e =>
    cases phase with
    | appended x => exact purgeRecords_bodiless s x
    | _ => rfl
  | requeueing name x source =>
    simp only [Pc.bodiless, purgeRecords_bodiless, Hub.bodiless_closed, Hub.bodiless_state,
      routeEnvelope_map sameAddress_bodiless]
    rfl
  | _ => rfl

theorem committedTo_bodiless (trace : List Obs) (c : ConnId) :
    committedTo (trace.filterMap Obs.bodiless) c = committedTo trace c := by
  have hblank : ∀ o : Obs, o.bodiless.bind (Obs.committedBy c) = (o.committedBy c).map id := by
    intro o
    cases o with
    | routed d x p outcome => cases p <;> simp [Obs.bodiless, Obs.committedBy]
    | _ => rfl
  rw [committedTo, Hub.filterMap_bodiless hblank, List.map_id]
  rfl

theorem waiterOf_bodiless (trace : List Obs) (c : ConnId) :
    waiterOf (trace.filterMap Obs.bodiless) c = waiterOf trace c := by
  have hblank : ∀ o : Obs, o.bodiless.bind (Obs.parkedBy c) = (o.parkedBy c).map id := by
    intro o
    cases o with
    | parked d name waiterId => simp [Obs.bodiless]
    | _ => rfl
  rw [waiterOf, Hub.filterMap_bodiless hblank, List.map_id]
  rfl

theorem delivered_bodiless (trace : List Obs) (c : ConnId) :
    delivered (trace.filterMap Obs.bodiless) c = (delivered trace c).map Envelope.bodiless := by
  have hblank : ∀ o : Obs, o.bodiless.bind (Obs.deliveredBy c) =
      (o.deliveredBy c).map Envelope.bodiless := by
    intro o
    cases o with
    | written d x => by_cases hd : d = c <;> simp [Obs.bodiless, Obs.deliveredBy, hd, Stamped.bodiless]
    | _ => rfl
  rw [delivered, Hub.filterMap_bodiless hblank, List.getLast?_map]
  rfl

theorem deliveredFrom_bodiless (trace : List Obs) (c : ConnId) :
    deliveredFrom (trace.filterMap Obs.bodiless) c = deliveredFrom trace c := by
  have hblank : ∀ o : Obs, o.bodiless.any (Obs.tookBy c) = o.tookBy c := by
    intro o
    cases o <;> rfl
  have hany : (trace.filterMap Obs.bodiless).any (Obs.tookBy c) = trace.any (Obs.tookBy c) := by
    rw [List.any_filterMap]
    exact congrArg _ (funext hblank)
  rw [deliveredFrom, hany]
  rfl

theorem unlockRecords_bodiless (trace : List Obs) (c : ConnId) (k : Conn) :
    unlockRecords (trace.filterMap Obs.bodiless) c k.bodiless = unlockRecords trace c k := by
  unfold unlockRecords
  rw [Conn.bodiless_pc]
  cases k.pc with
  | auditing phase event next =>
    cases event with
    | delivery ts id name peer =>
      cases next with
      | finish =>
        simp only [Pc.bodiless, delivered_bodiless, deliveredFrom_bodiless]
        cases delivered trace c <;> rfl
      | _ => rfl
    | _ => rfl
  | committing phase role e =>
    cases phase with
    | routed x =>
      cases role <;> simp only [Pc.bodiless, CommitPhase.bodiless, Role.bodiless, committedTo_bodiless] <;>
        rcases committedTo trace c with _ | _ | _ <;> rfl
    | failed cause => cases role <;> rfl
    | _ => rfl
  | _ => rfl

theorem startRecords_bodiless (hT : T.Renders) (s : Hub) (k : Conn) :
    (startRecords T s.bodiless k.bodiless).filterMap Record.kept =
      (startRecords T s k).filterMap Record.kept := by
  unfold startRecords
  rw [Conn.bodiless_pc]
  cases k.pc with
  | awaiting name filter timeoutSecs =>
    simp only [Pc.bodiless, Hub.bodiless_state, takeQueued_map sameAddress_bodiless]
    cases takeQueued s.state name filter with
    | none => rfl
    | some p => simp only [Option.map_some, filterMap_tracePayload hT]
  | _ => rfl

theorem timeoutRecords_bodiless (s : Hub) (k : Conn) :
    timeoutRecords s.bodiless k.bodiless = timeoutRecords s k := by
  unfold timeoutRecords
  rw [Conn.bodiless_pc]
  cases k.pc with
  | timerFired name waiterId =>
    simp only [Pc.bodiless, Hub.bodiless_state, removeWaiter_map]
    cases removeWaiter s.state name waiterId <;> rfl
  | _ => rfl

theorem handoffRecords_bodiless (hT : T.Renders) (trace : List Obs) (c : ConnId) (k : Conn) :
    (handoffRecords T (trace.filterMap Obs.bodiless) c k.bodiless).filterMap Record.kept =
      (handoffRecords T trace c k).filterMap Record.kept := by
  unfold handoffRecords
  rw [Conn.bodiless_pc, waiterOf_bodiless, Conn.bodiless_chan]
  cases k.pc with
  | parked | lostRace =>
    cases hvalue : k.chan.value with
    | none => simp only [Pc.bodiless, Oneshot.map, hvalue, Option.map_none, Conn.bodiless_peer]
    | some x => simp only [Pc.bodiless, Oneshot.map, hvalue, Option.map_some, filterMap_tracePayload hT]
  | _ => rfl

theorem serializeRecords_bodiless (hL : L.Serializes) (k : Conn) :
    serializeRecords L k.bodiless = serializeRecords L k := by
  unfold serializeRecords
  rw [Conn.bodiless_pc]
  cases k.pc with
  | writing name x source written =>
    obtain ⟨text, htext⟩ := hL.server (.envelope x.envelope)
    obtain ⟨text', htext'⟩ := hL.server (.envelope x.bodiless.envelope)
    simp only [Pc.bodiless, toJsonl, htext, htext']
  | _ => rfl

theorem actionRecords_bodiless (hL : L.Serializes) (hT : T.Renders) (s : Hub) (k : Conn)
    (cause : String) (a : Action) :
    (actionRecords L T s.bodiless k.bodiless cause a).filterMap Record.kept =
      (actionRecords L T s k cause a).filterMap Record.kept := by
  cases a with
  | accept | lockAudit | append => rfl
  | route | requeue => exact congrArg _ (routeRecords_bodiless s k)
  | unlockAudit c => exact congrArg _ (unlockRecords_bodiless s.trace c k)
  | await c => exact startRecords_bodiless hT s k
  | deregister c => exact congrArg _ (timeoutRecords_bodiless s k)
  | task c i =>
    cases i with
    | polled => exact handoffRecords_bodiless hT s.trace c k
    | unserializable => exact congrArg _ (serializeRecords_bodiless hL k)
    | _ => rfl

theorem closingRecords_bodiless (k : Conn) (s' : Hub) (c : ConnId) :
    closingRecords k.bodiless (s'.bodiless.pc c) = closingRecords k (s'.pc c) := by
  have hreturned : ∀ pc : Pc, pc.bodiless.returned = pc.returned := by
    intro pc
    cases pc <;> rfl
  rw [closingRecords, closingRecords, Hub.bodiless_pc, Conn.bodiless_pc, hreturned, Option.any_map]
  simp only [hreturned, Conn.bodiless_peer]

theorem conn_bodiless (o : Outcome) : o.bodiless.conn = o.conn := by
  cases o with
  | appended c r => rcases r with ⟨_ | _ | _⟩ | _ <;> rfl
  | _ => rfl

/-- An append fails with the file, as every event serializes. -/
theorem appended_of_outcome (hL : L.Serializes) {a : DateTime × Action} {r : Except AuditError Unit}
    (h : s.outcome L a = some (.appended c r)) : (Outcome.appended c r).bodiless = .appended c r := by
  obtain ⟨now, a⟩ := a
  cases a with
  | append d os =>
    obtain ⟨event, -, h⟩ := Option.bind_eq_some_iff.1 h
    obtain ⟨p, hwrite, hp⟩ := Option.map_eq_some_iff.1 h
    obtain ⟨rfl, rfl⟩ := Outcome.appended.inj hp
    exact (Hub.appended_bodiless hL hwrite d).2
  | task d i =>
    obtain ⟨k, -, h⟩ := Option.bind_eq_some_iff.1 h
    have hread : ∀ step : ReadStep, step.outcome L d ≠ some (.appended c r) := by
      intro step
      cases step <;> simp [ReadStep.outcome]
    cases i with
    | recv | refill =>
      obtain ⟨line, -, h⟩ := Option.bind_eq_some_iff.1 h
      exact absurd h (hread _)
    | wrote =>
      simp only [Conn.outcome] at h
      split at h
      · split at h
        · cases h
        · obtain ⟨step, -, h⟩ := Option.bind_eq_some_iff.1 h
          cases step <;> cases h
      · cases h
    | _ => cases h
  | _ => cases h

/-- A step logs the same for the file, whatever the bodies. -/
theorem records_bodiless (hL : L.Serializes) (hT : T.Renders) (s s' : Hub) {a : DateTime × Action}
    {o : Outcome} (ho : s.outcome L a = some o) (cause : String) :
    (s.bodiless.records L T roster s'.bodiless a.1 o.bodiless cause).filterMap Record.kept =
      (s.records L T roster s' a.1 o cause).filterMap Record.kept := by
  have happended : ∀ {c : ConnId} {r : Except AuditError Unit}, o = .appended c r →
      o.bodiless = o := fun h => by
    subst h
    exact appended_of_outcome hL ho
  unfold Hub.records
  rw [conn_bodiless, Hub.bodiless_conns]
  cases hk : s.conns o.conn with
  | none =>
    cases o with
    | appended c r => rw [happended rfl]; rfl
    | _ => rfl
  | some k =>
    simp only [Option.map_some, List.filterMap_append, closingRecords_bodiless]
    congr 1
    cases o with
    | lineRead c r => exact lineRecords_bodiless hT k r
    | lineWritten c done => exact congrArg _ (replyRecords_bodiless hL k done cause)
    | appended c r =>
      rw [happended rfl]
      exact congrArg _ (appendRecords_bodiless k r)
    | envelopeWritten c result stop => exact writeRecords_bodiless k result stop
    | bounced c uuid => exact bounceRecords_bodiless hT k uuid
    | acted a => exact actionRecords_bodiless hL hT s k cause a

end Records

/-! ## Two runs -/

namespace LoggedHub

variable {L : Libs} {T : LogTexts} {roster : Roster}

/-- What of the hub and its log does not depend on bodies. -/
def bodiless (s : LoggedHub) : Hub × List Record :=
  (s.hub.bodiless, s.log.filterMap Record.kept)

/-- What a turn comes to, bodies aside, with its time and the error it meets. -/
def outcome (L : Libs) (s : LoggedHub) (t : Turn) : Option ((DateTime × Outcome) × String) :=
  (s.hub.outcome L (t.now, t.action)).map fun o => ((t.now, o.bodiless), t.cause)

/-- The blanked hub with the log that its steps fill. -/
def follow (L : Libs) (T : LogTexts) (roster : Roster) (s : Hub × List Record)
    (o : (DateTime × Outcome) × String) : Option (Hub × List Record) :=
  (s.1.follow L roster o.1).map fun hub =>
    (hub, s.2 ++ (s.1.records L T roster hub o.1.1 o.1.2 o.2).filterMap Record.kept)

theorem shadow_bodiless (hL : L.Serializes) (hT : T.Renders) :
    Machine.Shadow (step L T roster) (follow L T roster) bodiless (outcome L) where
  silent {s s' t} h ho := by
    have hout : s.hub.outcome L (t.now, t.action) = none := Option.map_eq_none_iff.1 ho
    obtain ⟨hub, hstep, rfl⟩ := Option.map_eq_some_iff.1 h
    have hsilent := (Hub.follow_bodiless hL hstep).1 hout
    simp only [bodiless, hsilent, hout, Option.toList_none, List.flatMap_nil, List.append_nil]
  visible {s s' t o} h ho := by
    obtain ⟨o, hout, rfl⟩ := Option.map_eq_some_iff.1 ho
    obtain ⟨hub, hstep, rfl⟩ := Option.map_eq_some_iff.1 h
    have hfollow := (Hub.follow_bodiless hL hstep).2 o hout
    simp only [bodiless, follow, hfollow, hout, Option.map_some, Option.toList_some,
      List.flatMap_singleton, List.filterMap_append, records_bodiless hL hT s.hub hub hout]

/-- Two runs of the hub come to the same outcomes, the bodies of the sends aside. Then, the
bodies aside, the routing states are the same, what happened is the same (which sends are
accepted and refused and with what replies, where every envelope goes, what times out and
what bounces), and every task is where it is in the other run. The service-log file gets the
same records, counts of bytes aside. -/
theorem bodies_unobserved (hL : L.Serializes) (hT : T.Renders) {audit : AuditLog} {as bs : List Turn}
    {s t : LoggedHub} (hs : Machine.run (step L T roster) (init audit) as = some s)
    (ht : Machine.run (step L T roster) (init audit) bs = some t)
    (houtcomes : Machine.labels (step L T roster) (outcome L) (init audit) as =
      Machine.labels (step L T roster) (outcome L) (init audit) bs) :
    s.hub.state.map Stamped.bodiless = t.hub.state.map Stamped.bodiless ∧
      s.hub.trace.filterMap Obs.bodiless = t.hub.trace.filterMap Obs.bodiless ∧
      (∀ c, (s.hub.conns c).map Conn.bodiless = (t.hub.conns c).map Conn.bodiless) ∧
      s.file.map Record.uncounted = t.file.map Record.uncounted := by
  have hview := (shadow_bodiless hL hT).view_eq hs ht rfl houtcomes
  obtain ⟨hhub, hlog⟩ := Prod.mk.inj hview
  rw [filterMap_kept, filterMap_kept] at hlog
  exact ⟨congrArg Hub.state hhub, congrArg Hub.trace hhub, fun c => congrFun (congrArg Hub.conns hhub) c,
    hlog⟩

end LoggedHub

/-! ## Two bodies -/

instance decidableEqExcept {ε α : Type} [DecidableEq ε] [DecidableEq α] : DecidableEq (Except ε α)
  | .ok a, .ok b => decidable_of_iff (a = b) ⟨congrArg _, Except.ok.inj⟩
  | .error a, .error b => decidable_of_iff (a = b) ⟨congrArg _, Except.error.inj⟩
  | .ok _, .error _ => isFalse (by simp)
  | .error _, .ok _ => isFalse (by simp)

deriving instance DecidableEq for Stamped, Input, Action, Outcome

/-- A task of `bob` with a body. -/
def taskWith (body : Value) : Envelope :=
  { sampleEnvelope "m1" "task" with body }

def taskLine (body : Value) : String :=
  "\x7b\"send\":" ++ (taskWith body).json ++ "\x7d"

/-- The sample hub, where `bob` may send a task with the one or the other body. -/
def bodyLibs : Libs where
  __ := sampleLibs
  clientLineFromStr text :=
    if text = taskLine (.string "one") then .ok (.send (taskWith (.string "one")))
    else if text = taskLine (.bool true) then .ok (.send (taskWith (.bool true)))
    else sampleLibs.clientLineFromStr text

def bodyTexts : LogTexts where
  prettyBody body := .ok body.json
  debugEvent event := event.json

/-- `bob` sends a task that queues. -/
def sendingBody (body : Value) : List Turn :=
  (opening 1 bobHello.bytes (asBytes (taskLine body)) ++ committing 1 (taskWith body) ++
    [Action.task 1 (.replied (.ok ()))]).map fun a => ⟨0, a, ""⟩

namespace LoggedHub

/-- The run of the sample hub in which `bob` sends a task with that body. -/
def runBody (body : Value) : Option LoggedHub :=
  Machine.run (step bodyLibs bodyTexts sampleRoster) (init sampleAudit) (sendingBody body)

theorem runBody_one : (runBody (.string "one")).any (fun s =>
    (s.hub.state.queue "alice").map (fun x => x.envelope.body) = [.string "one"] ∧
      s.file.length = 4) = true := by
  decide +kernel

theorem runBody_true : (runBody (.bool true)).any (fun t =>
    (t.hub.state.queue "alice").map (fun x => x.envelope.body) = [.bool true]) = true := by
  decide +kernel

theorem outcomes_sendingBody : Machine.labels (step bodyLibs bodyTexts sampleRoster) (outcome bodyLibs)
    (init sampleAudit) (sendingBody (.string "one")) = Machine.labels
    (step bodyLibs bodyTexts sampleRoster) (outcome bodyLibs) (init sampleAudit)
    (sendingBody (.bool true)) := by
  decide +kernel

/-- Two tasks with different bodies queue alike, and the file gets the same four records. -/
theorem bodies_unobserved_queued : ∃ s t, runBody (.string "one") = some s ∧ runBody (.bool true) = some t ∧
    (s.hub.state.queue "alice").map (fun x => x.envelope.body) = [.string "one"] ∧
    (t.hub.state.queue "alice").map (fun x => x.envelope.body) = [.bool true] ∧
    s.hub.state.map Stamped.bodiless = t.hub.state.map Stamped.bodiless ∧
    s.file.length = 4 ∧ s.file.map Record.uncounted = t.file.map Record.uncounted := by
  obtain ⟨s, hs, hone⟩ := Option.any_eq_true _ _ |>.1 runBody_one
  obtain ⟨t, ht, htwo⟩ := Option.any_eq_true _ _ |>.1 runBody_true
  obtain ⟨hbody, hlen⟩ := of_decide_eq_true hone
  have hL : bodyLibs.Serializes := ⟨sampleLibs_serializes.server, sampleLibs_serializes.audit⟩
  have hT : bodyTexts.Renders := fun body => ⟨body.json, rfl⟩
  obtain ⟨hstate, -, -, hfile⟩ := bodies_unobserved hL hT hs ht outcomes_sendingBody
  exact ⟨s, t, hs, ht, hbody, of_decide_eq_true htwo, hstate, hlen, hfile⟩

end LoggedHub

end AgentHub
