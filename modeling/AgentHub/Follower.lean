import AgentHub.Bodiless
import AgentHub.Conversation
import AgentHub.Lib.Shadow

/-!
# The hub as its outcomes drive it

`Hub.follow` is the hub for one who sees no bytes : it is given what a step comes to, and is
the hub's own step where that is the action itself. On the blanked state it does what the hub
does (`shadow_bodiless`), so what is left of the hub without bodies is a function of the
outcomes without bodies.
-/

namespace AgentHub

open Function

section Follow

variable (L : Libs) (roster : Roster)

/-- The third-party functions once the line that is read has decoded to `r`. -/
def Libs.decoding (r : LineRead) : Libs :=
  { L with
    clientLineFromStr := fun text => match r with
      | .ok (some line) => line
      | _ => L.clientLineFromStr text }

/-- The read line is dispatched. -/
def Conn.afterRead (now : DateTime) (c : ConnId) (k : Conn) (r : LineRead) :
    Option (Conn × List Obs) :=
  match k.pc with
  | .readHello _ =>
    let next := onHelloLine (L.decoding r) roster now c k.peer (r.map (Option.map fun _ => ""))
    some ({ k with pc := next.1 }, next.2)
  | .readVerb name _ =>
    let next := onVerbLine (L.decoding r) c name (r.map (Option.map fun _ => ""))
    some ({ k with pc := next.1 }, next.2)
  | _ => none

/-- The reply is out, or the task ends. -/
def Conn.afterReply (c : ConnId) (k : Conn) (done : Bool) : Option (Conn × List Obs) :=
  match k.pc with
  | .replying _ (.readVerb name) => some ({ k with pc := if done then .readVerb name [] else .finished }, [])
  | .replying line .finish => some ({ k with pc := .finished }, [.answered c line])
  | _ => none

/-- The envelope line is out, or the write failed. -/
def Conn.afterEnvelope (now : DateTime) (c : ConnId) (k : Conn) (result : EnvelopeWrite) :
    Option (Conn × List Obs) :=
  match k.pc with
  | .writing name x source _ =>
    let next := Conn.afterWrite now c k name x source result
    some ({ k with pc := next.1 }, next.2)
  | _ => none

/-- The bounce without the body that names the lost envelope again. -/
def Conn.afterBounce (now : DateTime) (k : Conn) (uuid : String) : Option (Conn × List Obs) :=
  match k.pc with
  | .bouncing name x =>
    some ({ k with pc := .committing .waiting (.bounce x name)
                    (bounceEnvelope L now uuid x.envelope.id x.envelope.from name
                      "delivery failed after partial write").bodiless }, [])
  | _ => none

/-- The task of `c` changes as given. -/
def Hub.onTask (s : Hub) (c : ConnId) (f : Conn → Option (Conn × List Obs)) : Option Hub :=
  (s.conns c).bind fun k => (f k).map fun p => s.put c p.1 p.2

/-- One step, given what it comes to. -/
def Hub.follow (s : Hub) : DateTime × Outcome → Option Hub
  | (now, .lineRead c r) => s.onTask c fun k => k.afterRead L roster now c r
  | (_, .lineWritten c done) => s.onTask c fun k => k.afterReply c done
  | (now, .appended c r) => s.onTask c fun k =>
      k.step L roster now c (.appended (r.map fun _ => (acceptedOf s.trace).length))
  | (now, .envelopeWritten c result _) => s.onTask c fun k => k.afterEnvelope now c result
  | (now, .bounced c uuid) => s.onTask c fun k => k.afterBounce L now uuid
  | (now, .acted a) => s.step L roster (now, a)

end Follow

/-! ## The task without bodies -/

section Task

variable {L : Libs} {roster : Roster} {now : DateTime} {c : ConnId} {k k' : Conn} {obs : List Obs}

@[simp] theorem Conn.bodiless_peer : k.bodiless.peer = k.peer :=
  rfl

@[simp] theorem Conn.bodiless_pc : k.bodiless.pc = k.pc.bodiless :=
  rfl

@[simp] theorem Conn.bodiless_chan : k.bodiless.chan = k.chan.map Stamped.bodiless :=
  rfl

/-- The inputs that are no bytes of a line. -/
def Input.isBlind : Input → Bool
  | .recv _ | .refill | .replied _ | .wrote _ | .unserializable | .bounced _ => false
  | _ => true

/-- The actions that handle no bytes. -/
def Action.isBlind : Action → Bool
  | .task _ _ | .append _ _ => false
  | _ => true

/-- What a task is given by an operation under a lock. -/
theorem Conn.shared_bodiless {i : Input} (hi : i.isLocal = false)
    (h : k.step L roster now c i = some (k', obs)) :
    k.bodiless.step L roster now c i.bodiless = some (k'.bodiless, obs.filterMap Obs.bodiless) := by
  obtain ⟨peer, pc, buf, chan, received, out, peerClosed⟩ := k
  cases i with
  | recv | refill | replied | polled | timer | wrote | unserializable | bounced | died | peerClosed =>
    cases hi
  | locked =>
    cases pc with
    | auditing phase event next =>
      cases phase <;> cases h
      rfl
    | committing phase role e =>
      cases phase <;> cases h
      rfl
    | _ => cases h
  | appended r =>
    cases pc with
    | auditing phase event next => cases phase <;> cases r <;> cases h <;> rfl
    | committing phase role e => cases phase <;> cases r <;> cases h <;> rfl
    | _ => cases h
  | routed o =>
    cases pc with
    | committing phase role e =>
      cases phase <;> cases h
      rfl
    | _ => cases h
  | unlocked =>
    cases pc with
    | auditing phase event next =>
      cases phase <;> cases h
      cases next <;> rfl
    | committing phase role e => cases phase <;> cases role <;> cases h <;> rfl
    | _ => cases h
  | took x =>
    cases pc with
    | awaiting => cases h; rfl
    | _ => cases h
  | parked waiterId =>
    cases pc with
    | awaiting => cases h; rfl
    | _ => cases h
  | deregistered removed =>
    cases pc with
    | timerFired => cases removed <;> cases h <;> rfl
    | _ => cases h
  | requeued o =>
    cases pc with
    | requeueing => cases h; rfl
    | _ => cases h

/-- What happens to a parked task, and the end of its peer. -/
theorem Conn.waiting_bodiless {i : Input} (hi : i.isBlind = true) (hlocal : i.isLocal = true)
    (h : k.step L roster now c i = some (k', obs)) :
    k.bodiless.step L roster now c i.bodiless = some (k'.bodiless, obs.filterMap Obs.bodiless) := by
  obtain ⟨peer, pc, buf, chan, received, out, peerClosed⟩ := k
  cases i with
  | recv | refill | replied | wrote | unserializable | bounced => cases hi
  | locked | appended | routed | unlocked | took | parked | deregistered | requeued => cases hlocal
  | polled =>
    obtain ⟨value, txAlive, rxAlive⟩ := chan
    cases pc with
    | parked | lostRace => cases value <;> cases txAlive <;> cases h <;> rfl
    | _ => cases h
  | timer =>
    cases pc with
    | parked name waiterId timeoutSecs =>
      cases timeoutSecs <;> cases h
      rfl
    | _ => cases h
  | died =>
    obtain ⟨value, txAlive, rxAlive⟩ := chan
    cases pc with
    | parked | timerFired | lostRace =>
      cases value <;> cases h
      rfl
    | _ => cases h
  | peerClosed => cases h; rfl

/-- A task without bodies takes the steps that do not handle bytes. -/
theorem Conn.step_bodiless {i : Input} (hi : i.isBlind = true)
    (h : k.step L roster now c i = some (k', obs)) :
    k.bodiless.step L roster now c i.bodiless = some (k'.bodiless, obs.filterMap Obs.bodiless) := by
  cases hlocal : i.isLocal with
  | false => exact Conn.shared_bodiless hlocal h
  | true => exact Conn.waiting_bodiless hi hlocal h

theorem onHelloLine_bodiless (peer : String) (result : Except ReadLineError (Option String)) :
    onHelloLine (L.decoding (L.lineRead result).bodiless) roster now c peer
        ((L.lineRead result).bodiless.map (Option.map fun _ => "")) =
      ((onHelloLine L roster now c peer result).1.bodiless,
        (onHelloLine L roster now c peer result).2.filterMap Obs.bodiless) := by
  cases result with
  | error e => rfl
  | ok line =>
    cases line with
    | none => rfl
    | some text =>
      simp only [Libs.lineRead, Except.map, Option.map_some, LineRead.bodiless, onHelloLine, fromJsonl, Libs.decoding]
      cases L.clientLineFromStr text with
      | error e => rfl
      | ok verb =>
        cases verb with
        | send e => rfl
        | await replyTo kind timeoutSecs => rfl
        | hello name token =>
          simp only [ClientLine.bodiless, handleHello]
          cases roster.get name with
          | none => rfl
          | some expected =>
            dsimp only
            split_ifs <;> rfl

theorem validate_bodiless (parseTs : String → Except String DateTime) (e : Envelope) :
    e.bodiless.validate parseTs = e.validate parseTs :=
  rfl

theorem onVerbLine_bodiless (name : String) (result : Except ReadLineError (Option String)) :
    onVerbLine (L.decoding (L.lineRead result).bodiless) c name
        ((L.lineRead result).bodiless.map (Option.map fun _ => "")) =
      ((onVerbLine L c name result).1.bodiless,
        (onVerbLine L c name result).2.filterMap Obs.bodiless) := by
  cases result with
  | error e => rfl
  | ok line =>
    cases line with
    | none => rfl
    | some text =>
      simp only [Libs.lineRead, Except.map, Option.map_some, LineRead.bodiless, onVerbLine, fromJsonl, Libs.decoding]
      cases L.clientLineFromStr text with
      | error e => rfl
      | ok verb =>
        cases verb with
        | hello name token => rfl
        | send e =>
          simp only [ClientLine.bodiless, handleSend, validate_bodiless]
          cases e.validate L.parseFromRfc3339 <;> rfl
        | await replyTo kind timeoutSecs =>
          simp only [ClientLine.bodiless, handleAwait]
          split_ifs <;> rfl

/-- A round of reading that returns is an outcome, and the task without bodies follows it. -/
theorem readRound_bodiless {r : Except String (List UInt8)} {received line : List UInt8}
    (hline : k.pc.lineSoFar = some line)
    (h : { k with received }.readRound L roster now c r = some (k', obs)) :
    ((readLineStep line r).outcome L c = none → k'.bodiless = k.bodiless ∧ obs = []) ∧
      ∀ o, (readLineStep line r).outcome L c = some o →
        ∃ r', o = .lineRead c r' ∧ k.bodiless.afterRead L roster now c r'.bodiless =
          some (k'.bodiless, obs.filterMap Obs.bodiless) := by
  obtain ⟨peer, pc, buf, chan, received', out, peerClosed⟩ := k
  cases pc with
  | readHello line₀ =>
    obtain rfl : line₀ = line := Option.some.inj hline
    simp only [Conn.readRound] at h
    cases hstep : readLineStep line₀ r with
    | more line' =>
      rw [hstep] at h
      cases h
      exact ⟨fun _ => ⟨rfl, rfl⟩, fun o ho => by cases ho⟩
    | done result rest =>
      rw [hstep] at h
      obtain ⟨rfl, rfl⟩ := Prod.mk.inj (Option.some.inj h)
      refine ⟨fun ho => absurd ho (Option.some_ne_none _), fun o ho => ⟨_, (Option.some.inj ho).symm, ?_⟩⟩
      simp only [Conn.afterRead, Conn.bodiless, Pc.bodiless, onHelloLine_bodiless]
  | readVerb name line₀ =>
    obtain rfl : line₀ = line := Option.some.inj hline
    simp only [Conn.readRound] at h
    cases hstep : readLineStep line₀ r with
    | more line' =>
      rw [hstep] at h
      cases h
      exact ⟨fun _ => ⟨rfl, rfl⟩, fun o ho => by cases ho⟩
    | done result rest =>
      rw [hstep] at h
      obtain ⟨rfl, rfl⟩ := Prod.mk.inj (Option.some.inj h)
      refine ⟨fun ho => absurd ho (Option.some_ne_none _), fun o ho => ⟨_, (Option.some.inj ho).symm, ?_⟩⟩
      simp only [Conn.afterRead, Conn.bodiless, Pc.bodiless, onVerbLine_bodiless]
  | _ => cases hline

theorem lineSoFar_of_readRound {r : Except String (List UInt8)}
    (h : k.readRound L roster now c r = some (k', obs)) : ∃ line, k.pc.lineSoFar = some line := by
  rcases pc_of_readRound h with ⟨line, hpc⟩ | ⟨name, line, hpc⟩
  · exact ⟨line, by rw [hpc]; rfl⟩
  · exact ⟨line, by rw [hpc]; rfl⟩

/-- A reply ends as its outcome says. -/
theorem reply_bodiless (hL : L.Serializes) {line : ServerLine} {next : ReplyNext} {r : Except ℕ Unit}
    (hpc : k.pc = .replying line next) (h : k.reply L c line next r = some (k', obs)) :
    k.bodiless.afterReply c r.toBool = some (k'.bodiless, obs.filterMap Obs.bodiless) := by
  obtain ⟨jsonl, hjsonl⟩ := hL.server line
  obtain ⟨peer, pc, buf, chan, received, out, peerClosed⟩ := k
  obtain rfl : pc = .replying line next := hpc
  simp only [Conn.reply, toJsonl, hjsonl] at h
  cases r with
  | ok =>
    cases h
    cases next <;> rfl
  | error n =>
    dsimp only at h
    split_ifs at h
    cases h
    cases next <;> rfl

/-- A socket write ends the envelope line, or leaves no trace. -/
theorem write_bodiless {name source : String} {x : Stamped} {written : ℕ} {r : WriteResult}
    (hpc : k.pc = .writing name x source written)
    (h : k.write L now c name x source written r = some (k', obs)) :
    (k.outcome L c (.wrote r) = none → k'.bodiless = k.bodiless ∧ obs.filterMap Obs.bodiless = []) ∧
      ∀ o, k.outcome L c (.wrote r) = some o →
        ∃ result, o = .envelopeWritten c result r.stops ∧ k.bodiless.afterEnvelope now c result =
          some (k'.bodiless, obs.filterMap Obs.bodiless) := by
  obtain ⟨peer, pc, buf, chan, received, out, peerClosed⟩ := k
  obtain rfl : pc = .writing name x source written := hpc
  have hseen : ∀ b : List UInt8, (if b = [] then ([] : List Obs) else [.bytes c x]).filterMap
      Obs.bodiless = [] := by
    intro b
    split_ifs <;> rfl
  unfold Conn.write at h
  simp only [Conn.outcome]
  cases hjsonl : toJsonl L.serverLineToString (.envelope x.envelope) with
  | error e =>
    rw [hjsonl] at h
    cases h
  | ok jsonl =>
    simp only [hjsonl] at h ⊢
    cases hround : writeRound (asBytes jsonl).length written r with
    | none =>
      rw [hround] at h
      cases h
    | some step =>
      rw [hround] at h
      cases step with
      | more written' =>
        obtain ⟨rfl, rfl⟩ := Prod.mk.inj (Option.some.inj h)
        exact ⟨fun _ => ⟨rfl, hseen _⟩, fun o ho => by cases ho⟩
      | done result =>
        obtain ⟨rfl, rfl⟩ := Prod.mk.inj (Option.some.inj h)
        refine ⟨fun ho => absurd ho (Option.some_ne_none _), fun o ho => ⟨result, ?_, ?_⟩⟩
        · exact (Option.some.inj ho).symm
        · rw [List.filterMap_append, hseen]
          cases result with
          | written | failedClean => rfl
          | failedPartial n =>
            simp only [Conn.afterEnvelope, Conn.afterWrite, Conn.bodiless, Pc.bodiless]
            by_cases hfrom : x.envelope.from = hubName <;>
              simp [Stamped.bodiless, Envelope.bodiless, hfrom, Obs.bodiless]

end Task

/-! ## The hub without bodies -/

namespace Hub

section Blank

variable (s : Hub) (c : ConnId) (k : Conn) (obs : List Obs)

theorem bodiless_conns (d : ConnId) : s.bodiless.conns d = (s.conns d).map Conn.bodiless :=
  rfl

theorem bodiless_state : s.bodiless.state = s.state.map Stamped.bodiless :=
  rfl

theorem bodiless_pc : s.bodiless.pc c = (s.pc c).map Pc.bodiless := by
  rw [Hub.pc, Hub.pc, bodiless_conns, Option.map_map, Option.map_map]
  rfl

theorem bodiless_put : (s.put c k obs).bodiless =
    s.bodiless.put c k.bodiless (obs.filterMap Obs.bodiless) := by
  have hconns : (fun d => ((s.put c k obs).conns d).map Conn.bodiless) =
      update (fun d => (s.conns d).map Conn.bodiless) c (some k.bodiless) := by
    funext d
    by_cases hd : d = c <;> simp [put, hd]
  simp only [bodiless, put, List.filterMap_append] at hconns ⊢
  rw [hconns]

theorem bodiless_closed : s.bodiless.closed = s.closed := by
  funext d
  unfold closed
  rw [bodiless_conns]
  cases s.conns d <;> rfl

theorem bodiless_onChan (tx : ConnId) (f g : Oneshot Stamped → Oneshot Stamped)
    (hfg : ∀ ch, (f ch).map Stamped.bodiless = g (ch.map Stamped.bodiless)) :
    (s.onChan tx f).bodiless = s.bodiless.onChan tx g := by
  unfold onChan
  rw [bodiless_conns]
  cases htx : s.conns tx with
  | none => rfl
  | some k =>
    have hconns : (fun d => (update s.conns tx (some { k with chan := f k.chan }) d).map Conn.bodiless) =
        update (fun d => (s.conns d).map Conn.bodiless) tx
          (some { k.bodiless with chan := g k.bodiless.chan }) := by
      funext d
      by_cases hd : d = tx
      · simp [hd, Conn.bodiless, hfg]
      · simp [hd]
    simp only [bodiless, Option.map_some] at hconns ⊢
    rw [hconns]

theorem bodiless_handOff (x : Stamped) (o : SendOutcome) :
    (s.handOff x o).bodiless = s.bodiless.handOff x.bodiless o := by
  cases o with
  | queued depth => rfl
  | handedOff tx =>
    exact bodiless_onChan s tx (fun ch => ch.send x) (fun ch => ch.send x.bodiless) fun ch => rfl

/-- What is read off a blanked trace. -/
theorem filterMap_bodiless {α β : Type} {f : Obs → Option α} {g : Obs → Option β} {h : α → β}
    (hfg : ∀ o, o.bodiless.bind g = (f o).map h) (trace : List Obs) :
    (trace.filterMap Obs.bodiless).filterMap g = (trace.filterMap f).map h := by
  rw [List.filterMap_filterMap, List.map_filterMap]
  exact congrArg (fun f => trace.filterMap f) (funext hfg)

theorem acceptedOf_bodiless (trace : List Obs) :
    acceptedOf (trace.filterMap Obs.bodiless) = (acceptedOf trace).map Stamped.bodiless :=
  filterMap_bodiless (fun o => by cases o <;> rfl) trace

end Blank

section Steps

variable {L : Libs} {roster : Roster} {s s' : Hub} {now : DateTime} {c : ConnId} {i : Input}
  {k k' : Conn} {obs : List Obs}

theorem taskStep_bodiless (hi : i.isBlind = true) (h : s.taskStep L roster now c i = some s') :
    s.bodiless.taskStep L roster now c i.bodiless = some s'.bodiless := by
  obtain ⟨k, k', obs, hk, hstep, rfl⟩ := taskStep_eq_some h
  rw [bodiless_put]
  simp only [taskStep, bodiless_conns, hk, Option.map_some, Conn.step_bodiless hi hstep]
  rfl

theorem onTask_bodiless {f : Conn → Option (Conn × List Obs)} (hk : s.conns c = some k)
    (hf : f k.bodiless = some (k'.bodiless, obs.filterMap Obs.bodiless)) :
    s.bodiless.onTask c f = some (s.put c k' obs).bodiless := by
  simp only [onTask, bodiless_conns, hk, Option.map_some, Option.bind_some, hf, bodiless_put]

/-- The task on its own. -/
theorem follow_task (hL : L.Serializes) (hk : s.conns c = some k)
    (h : k.step L roster now c i = some (k', obs)) (hi : i.isLocal = true) :
    (k.outcome L c i = none → (s.put c k' obs).bodiless = s.bodiless) ∧
      ∀ o, k.outcome L c i = some o →
        s.bodiless.follow L roster (now, o.bodiless) = some (s.put c k' obs).bodiless := by
  have hsilent : k'.bodiless = k.bodiless → obs.filterMap Obs.bodiless = [] →
      (s.put c k' obs).bodiless = s.bodiless := by
    intro hk' hobs
    have hconns : update s.bodiless.conns c (some k.bodiless) = s.bodiless.conns := by
      rw [update_eq_self_iff, bodiless_conns, hk, Option.map_some]
    rw [bodiless_put, hk', hobs, put, hconns, List.append_nil]
  have hread : ∀ {r : Except String (List UInt8)} {received : List UInt8},
      { k with received }.readRound L roster now c r = some (k', obs) →
      (k.pc.lineSoFar.bind (fun line => (readLineStep line r).outcome L c) = none →
        (s.put c k' obs).bodiless = s.bodiless) ∧
      ∀ o, k.pc.lineSoFar.bind (fun line => (readLineStep line r).outcome L c) = some o →
        s.bodiless.follow L roster (now, o.bodiless) = some (s.put c k' obs).bodiless := by
    intro r received h
    obtain ⟨line, hline⟩ := lineSoFar_of_readRound h
    change k.pc.lineSoFar = some line at hline
    obtain ⟨hmore, hdone⟩ := readRound_bodiless hline h
    rw [hline, Option.bind_some]
    refine ⟨fun ho => ?_, fun o ho => ?_⟩
    · obtain ⟨hk', rfl⟩ := hmore ho
      exact hsilent hk' rfl
    · obtain ⟨r', rfl, hafter⟩ := hdone o ho
      exact onTask_bodiless hk hafter
  cases i with
  | recv r =>
    simp only [Conn.step] at h
    split_ifs at h
    exact hread h
  | refill =>
    simp only [Conn.step] at h
    split_ifs at h
    exact hread h
  | replied r =>
    simp only [Conn.step] at h
    split at h
    · rename_i line next hpc
      refine ⟨fun ho => absurd ho (Option.some_ne_none _), fun o ho => ?_⟩
      rw [← Option.some.inj ho]
      exact onTask_bodiless hk (reply_bodiless hL hpc h)
    · cases h
  | wrote r =>
    simp only [Conn.step] at h
    split at h
    · rename_i name x source written hpc
      obtain ⟨hmore, hdone⟩ := write_bodiless hpc h
      refine ⟨fun ho => hsilent (hmore ho).1 (hmore ho).2, fun o ho => ?_⟩
      obtain ⟨result, rfl, hafter⟩ := hdone o ho
      cases result with
      | failedPartial n =>
        refine onTask_bodiless hk (Eq.trans ?_ hafter)
        simp only [Conn.afterEnvelope]
        split <;> rfl
      | written | failedClean => exact onTask_bodiless hk hafter
    · cases h
  | unserializable =>
    simp only [Conn.step] at h
    split at h
    · rename_i name x source hpc
      obtain ⟨text, htext⟩ := hL.server (.envelope x.envelope)
      simp only [toJsonl, htext] at h
      cases h
    · cases h
  | bounced uuid =>
    simp only [Conn.step] at h
    split at h
    · rename_i name x hpc
      cases h
      refine ⟨fun ho => absurd ho (Option.some_ne_none _), fun o ho => ?_⟩
      rw [← Option.some.inj ho]
      refine onTask_bodiless hk ?_
      simp only [Conn.afterBounce, Conn.bodiless, hpc, Pc.bodiless]
      rfl
    · cases h
  | polled | timer | died | peerClosed =>
    refine ⟨fun ho => absurd ho (Option.some_ne_none _), fun o ho => ?_⟩
    rw [← Option.some.inj ho]
    have hstep := Conn.step_bodiless rfl h
    simp only [Outcome.bodiless, follow, Hub.step, Input.isLocal, if_true, taskStep, bodiless_conns, hk,
      Option.map_some, bodiless_put]
    simp only [Input.bodiless] at hstep
    rw [hstep]
    rfl
  | _ => cases hi

/-- A routing step of `c`, whose task takes the input `i`. -/
theorem route_bodiless (hi : i.isBlind = true) (hblank : i.bodiless = i) (x : Stamped)
    (p : QueuePlacement) (h : (s.taskStep L roster now c i).map (fun s₁ =>
      { s₁ with state := (routeEnvelope s.closed s.state x p).1 }.handOff x
        (routeEnvelope s.closed s.state x p).2) = some s') :
    (s.bodiless.taskStep L roster now c i).map (fun s₁ =>
      { s₁ with state := (routeEnvelope s.closed s.state x p).1.map Stamped.bodiless }.handOff
        x.bodiless (routeEnvelope s.closed s.state x p).2) = some s'.bodiless := by
  obtain ⟨s₁, h₁, rfl⟩ := Option.map_eq_some_iff.1 h
  have hstep := taskStep_bodiless hi h₁
  rw [hblank] at hstep
  rw [hstep, bodiless_handOff]
  rfl

/-! Each kind of step that handles no bytes, on the blanked hub. -/

theorem accept_bodiless {peer : String} (h : s.step L roster (now, .accept c peer) = some s') :
    s.bodiless.step L roster (now, .accept c peer) = some s'.bodiless := by
  simp only [Hub.step, bodiless_conns] at h ⊢
  cases hk : s.conns c with
  | some k =>
    rw [hk] at h
    cases h
  | none =>
    rw [hk] at h
    cases h
    have hput := bodiless_put s c (.accepted now peer) []
    simp only [put, List.filterMap_nil, List.append_nil] at hput
    exact congrArg some hput.symm

theorem lockAudit_bodiless (h : s.step L roster (now, .lockAudit c) = some s') :
    s.bodiless.step L roster (now, .lockAudit c) = some s'.bodiless := by
  simp only [Hub.step] at h ⊢
  split at h
  · cases h
  · rename_i hfree
    obtain ⟨s₁, h₁, rfl⟩ := Option.map_eq_some_iff.1 h
    rw [show s.bodiless.auditLock = none from hfree]
    dsimp only
    rw [show s.bodiless.taskStep L roster now c .locked = _ from taskStep_bodiless rfl h₁]
    rfl

theorem unlockAudit_bodiless (h : s.step L roster (now, .unlockAudit c) = some s') :
    s.bodiless.step L roster (now, .unlockAudit c) = some s'.bodiless := by
  simp only [Hub.step] at h ⊢
  split_ifs at h with hlock
  obtain ⟨s₁, h₁, rfl⟩ := Option.map_eq_some_iff.1 h
  rw [if_pos (show s.bodiless.auditLock = some c from hlock),
    show s.bodiless.taskStep L roster now c .unlocked = _ from taskStep_bodiless rfl h₁]
  rfl

theorem routing_bodiless (h : s.step L roster (now, .route c) = some s') :
    s.bodiless.step L roster (now, .route c) = some s'.bodiless := by
  simp only [Hub.step] at h ⊢
  split at h
  · rename_i x role e hpc
    have hpc' : s.bodiless.pc c = some (.committing (.appended x.bodiless) role.bodiless e.bodiless) := by
      rw [bodiless_pc, hpc]
      rfl
    rw [hpc']
    simp only [bodiless_closed, bodiless_state, routeEnvelope_map sameAddress_bodiless]
    exact route_bodiless rfl rfl x .back h
  · cases h

theorem requeue_bodiless (h : s.step L roster (now, .requeue c) = some s') :
    s.bodiless.step L roster (now, .requeue c) = some s'.bodiless := by
  simp only [Hub.step] at h ⊢
  split at h
  · rename_i name x source hpc
    have hpc' : s.bodiless.pc c = some (.requeueing name x.bodiless source) := by
      rw [bodiless_pc, hpc]
      rfl
    rw [hpc']
    simp only [bodiless_closed, bodiless_state, routeEnvelope_map sameAddress_bodiless]
    exact route_bodiless rfl rfl x .front h
  · cases h

theorem await_bodiless (h : s.step L roster (now, .await c) = some s') :
    s.bodiless.step L roster (now, .await c) = some s'.bodiless := by
  simp only [Hub.step] at h ⊢
  split at h
  · rename_i name filter timeoutSecs hpc
    have hpc' : s.bodiless.pc c = some (.awaiting name filter timeoutSecs) := by
      rw [bodiless_pc, hpc]
      rfl
    rw [hpc', bodiless_state]
    dsimp only
    rw [takeQueued_map sameAddress_bodiless]
    cases htake : takeQueued s.state name filter with
    | some p =>
      obtain ⟨x, state⟩ := p
      rw [htake] at h
      obtain ⟨s₁, h₁, rfl⟩ := Option.map_eq_some_iff.1 h
      dsimp only [Option.map_some]
      rw [show s.bodiless.taskStep L roster now c (.took x.bodiless) = _ from taskStep_bodiless rfl h₁]
      rfl
    | none =>
      rw [htake] at h
      obtain ⟨s₁, h₁, rfl⟩ := Option.map_eq_some_iff.1 h
      dsimp only [Option.map_none]
      rw [show s.bodiless.taskStep L roster now c (.parked (s.state.map Stamped.bodiless).nextWaiterId) = _
        from taskStep_bodiless rfl h₁]
      rfl
  · cases h

theorem deregister_bodiless (h : s.step L roster (now, .deregister c) = some s') :
    s.bodiless.step L roster (now, .deregister c) = some s'.bodiless := by
  simp only [Hub.step] at h ⊢
  split at h
  · rename_i name waiterId hpc
    have hpc' : s.bodiless.pc c = some (.timerFired name waiterId) := by
      rw [bodiless_pc, hpc]
      rfl
    rw [hpc', bodiless_state]
    dsimp only
    rw [removeWaiter_map]
    cases hremove : removeWaiter s.state name waiterId with
    | some p =>
      obtain ⟨w, state⟩ := p
      rw [hremove] at h
      obtain ⟨s₁, h₁, rfl⟩ := Option.map_eq_some_iff.1 h
      dsimp only [Option.map_some]
      rw [show s.bodiless.taskStep L roster now c (.deregistered true) = _ from taskStep_bodiless rfl h₁,
        bodiless_onChan _ _ Oneshot.dropTx Oneshot.dropTx fun ch => rfl]
      rfl
    | none =>
      rw [hremove] at h
      exact taskStep_bodiless rfl h
  · cases h

/-- The blanked hub takes the steps that handle no bytes. -/
theorem step_bodiless {a : Action} (ha : a.isBlind = true) (h : s.step L roster (now, a) = some s') :
    s.bodiless.step L roster (now, a) = some s'.bodiless := by
  cases a with
  | task | append => cases ha
  | accept c peer => exact accept_bodiless h
  | lockAudit c => exact lockAudit_bodiless h
  | unlockAudit c => exact unlockAudit_bodiless h
  | route c => exact routing_bodiless h
  | requeue c => exact requeue_bodiless h
  | await c => exact await_bodiless h
  | deregister c => exact deregister_bodiless h

/-- A write of an event that serializes fails only with the file. -/
theorem appended_bodiless (hL : L.Serializes) {log log' : AuditLog} {event : AuditEvent}
    {os : List WriteResult} {r : Except AuditError Unit}
    (h : log.write L.auditEventToString event os = some (log', r)) (c : ConnId) :
    log'.path = log.path ∧ (Outcome.appended c r).bodiless = .appended c r := by
  obtain ⟨line, hline⟩ := hL.audit event
  simp only [AuditLog.write, hline] at h
  split at h
  · cases h
  · cases h
    exact ⟨rfl, rfl⟩
  · cases h
    exact ⟨rfl, rfl⟩

/-- What the blanked hub does is what is left of what the hub does. -/
theorem follow_bodiless (hL : L.Serializes) {a : Action} (h : s.step L roster (now, a) = some s') :
    (s.outcome L (now, a) = none → s'.bodiless = s.bodiless) ∧
      ∀ o, s.outcome L (now, a) = some o →
        s.bodiless.follow L roster (now, o.bodiless) = some s'.bodiless := by
  cases a with
  | task c i =>
    simp only [Hub.step] at h
    split_ifs at h with hi
    obtain ⟨k, k', obs, hk, hstep, rfl⟩ := taskStep_eq_some h
    simpa only [Hub.outcome, hk, Option.bind_some] using follow_task hL hk hstep hi
  | append c os =>
    simp only [Hub.step] at h
    split_ifs at h with hlock
    split at h
    · cases h
    rename_i event hevent
    split at h
    · cases h
    rename_i audit r hwrite
    obtain ⟨s₁, h₁, rfl⟩ := Option.map_eq_some_iff.1 h
    obtain ⟨k, k', obs, hk, hstep, rfl⟩ := taskStep_eq_some h₁
    obtain ⟨hpath, hblank⟩ := appended_bodiless hL hwrite c
    have hout : s.outcome L (now, .append c os) = some (.appended c r) := by
      rw [Hub.outcome, hevent, Option.bind_some, hwrite, Option.map_some]
    rw [hout]
    refine ⟨fun ho => absurd ho (Option.some_ne_none _), fun o ho => ?_⟩
    have haudit : { s.put c k' obs with audit := audit }.bodiless = (s.put c k' obs).bodiless := by
      simp only [Hub.bodiless, hpath]
      rfl
    have hcount : (acceptedOf s.bodiless.trace).length = (acceptedOf s.trace).length :=
      (congrArg List.length (acceptedOf_bodiless s.trace)).trans (List.length_map _)
    rw [← Option.some.inj ho, hblank, haudit]
    refine onTask_bodiless hk ?_
    rw [hcount]
    exact Conn.step_bodiless rfl hstep
  | accept | lockAudit | route | unlockAudit | await | deregister | requeue =>
    refine ⟨fun ho => absurd ho (Option.some_ne_none _), fun o ho => ?_⟩
    rw [← Option.some.inj ho]
    exact step_bodiless rfl h

/-- The blanked hub, driven by the blanked outcomes, is a shadow of the hub. -/
theorem shadow_bodiless (hL : L.Serializes) :
    Machine.Shadow (step L roster) (follow L roster) bodiless
      fun s a => (s.outcome L a).map fun o => (a.1, o.bodiless) where
  silent h ho := (follow_bodiless hL h).1 (Option.map_eq_none_iff.1 ho)
  visible h ho := by
    obtain ⟨o, hout, rfl⟩ := Option.map_eq_some_iff.1 ho
    exact (follow_bodiless hL h).2 o hout

end Steps

end Hub

end AgentHub
