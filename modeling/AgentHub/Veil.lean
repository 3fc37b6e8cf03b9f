import AgentHub.HubSteps
import AgentHub.ServiceLog

/-!
# The hub behind a veil

What one connection sends before its hello is read is hidden, but for the number of its bytes
(`Hub.veil`). No step looks at it but a read of that connection, so the hub behind the veil
takes all other steps (`step_veil`), with the same outcomes and records.
-/

namespace AgentHub

open Function

/-! ## The veil -/

def Pc.veiled : Pc → Pc
  | .readHello _ => .readHello []
  | pc => pc

/-- Of the bytes that have come the number is left. -/
def Conn.veiled (k : Conn) : Conn :=
  { k with pc := k.pc.veiled, buf := [], received := k.received.map fun _ => 0 }

/-- The veil over `c`, at the connection `d`. -/
def Conn.veilAt (c d : ConnId) (k : Conn) : Conn :=
  if d = c then k.veiled else k

def Hub.veil (c : ConnId) (s : Hub) : Hub :=
  { s with conns := fun d => (s.conns d).map (Conn.veilAt c d) }

/-- The socket is read, or what was read from it. -/
def Input.reads : Input → Bool
  | .recv _ | .refill => true
  | _ => false

/-- The task of `c` reads. -/
def Action.readsAt (c : ConnId) : Action → Bool
  | .task d i => d = c && i.reads
  | _ => false

section Task

variable {L : Libs} {roster : Roster} {now : DateTime} {c d : ConnId} {k k' : Conn} {obs : List Obs}

@[simp] theorem Conn.veilAt_peer : (k.veilAt c d).peer = k.peer := by
  unfold Conn.veilAt
  split_ifs <;> rfl

@[simp] theorem Conn.veilAt_chan : (k.veilAt c d).chan = k.chan := by
  unfold Conn.veilAt
  split_ifs <;> rfl

@[simp] theorem Conn.veilAt_out : (k.veilAt c d).out = k.out := by
  unfold Conn.veilAt
  split_ifs <;> rfl

/-- Only the line of a hello that is read is hidden. -/
theorem Conn.veilAt_pc : (k.veilAt c d).pc = k.pc ∨
    ∃ line line', k.pc = .readHello line ∧ (k.veilAt c d).pc = .readHello line' := by
  unfold Conn.veilAt
  split_ifs
  · obtain ⟨peer, pc, buf, chan, received, out, peerClosed⟩ := k
    cases pc with
    | readHello line => exact Or.inr ⟨line, [], rfl, rfl⟩
    | _ => exact Or.inl rfl
  · exact Or.inl rfl

/-- A reply goes out behind the veil. -/
theorem Conn.reply_veiled {line : ServerLine} {next : ReplyNext} {r : Except ℕ Unit}
    (hpc : k.pc = .replying line next) (h : k.reply L c line next r = some (k', obs)) :
    k.veiled.reply L c line next r = some (k'.veiled, obs) := by
  obtain ⟨peer, pc, buf, chan, received, out, peerClosed⟩ := k
  obtain rfl : pc = .replying line next := hpc
  simp only [Conn.reply, Conn.veiled, Pc.veiled] at h ⊢
  cases hline : toJsonl L.serverLineToString line with
  | error e =>
    rw [hline] at h
    cases r <;> cases h
    rfl
  | ok jsonl =>
    rw [hline] at h
    cases r with
    | ok => cases h; cases next <;> rfl
    | error n =>
      dsimp only at h ⊢
      split_ifs at h with hn
      cases h
      rw [if_pos hn]

/-- The loop of `write_envelope_line` ends at a point that shows. -/
theorem Conn.afterWrite_veiled (k : Conn) (name source : String) (x : Stamped) (result : EnvelopeWrite) :
    (k.afterWrite now c name x source result).1.veiled = (k.afterWrite now c name x source result).1 := by
  cases result with
  | written | failedClean => rfl
  | failedPartial n =>
    simp only [Conn.afterWrite]
    split_ifs <;> rfl

/-- A write of an envelope line, too. -/
theorem Conn.write_veiled {name source : String} {x : Stamped} {written : ℕ} {r : WriteResult}
    (h : k.write L now c name x source written r = some (k', obs)) :
    k.veiled.write L now c name x source written r = some (k'.veiled, obs) := by
  simp only [Conn.write] at h ⊢
  cases hline : toJsonl L.serverLineToString (.envelope x.envelope) with
  | error e =>
    rw [hline] at h
    cases h
  | ok jsonl =>
    rw [hline] at h
    dsimp only at h ⊢
    cases hround : writeRound (asBytes jsonl).length written r with
    | none =>
      rw [hround] at h
      cases h
    | some step =>
      rw [hround] at h
      cases step with
      | more => cases h; rfl
      | done result =>
        cases h
        simp only [Conn.veiled, Conn.afterWrite_veiled]
        rfl

/-- What a task does under a lock. -/
theorem Conn.shared_veiled {i : Input} (hi : i.isLocal = false)
    (h : k.step L roster now c i = some (k', obs)) :
    k.veiled.step L roster now c i = some (k'.veiled, obs) := by
  obtain ⟨peer, pc, buf, chan, received, out, peerClosed⟩ := k
  cases i with
  | locked =>
    cases pc with
    | auditing phase event next =>
      cases phase <;> cases h
      rfl
    | committing phase role e =>
      cases phase <;> cases h
      rfl
    | _ => cases h
  | appended r =>
    cases pc with
    | auditing phase event next => cases phase <;> cases r <;> cases h <;> rfl
    | committing phase role e => cases phase <;> cases r <;> cases h <;> rfl
    | _ => cases h
  | routed o =>
    cases pc with
    | committing phase role e =>
      cases phase <;> cases h
      rfl
    | _ => cases h
  | unlocked =>
    cases pc with
    | auditing phase event next =>
      cases phase <;> cases h
      cases next <;> rfl
    | committing phase role e => cases phase <;> cases role <;> cases h <;> rfl
    | _ => cases h
  | took x =>
    cases pc with
    | awaiting => cases h; rfl
    | _ => cases h
  | parked waiterId =>
    cases pc with
    | awaiting => cases h; rfl
    | _ => cases h
  | deregistered removed =>
    cases pc with
    | timerFired => cases removed <;> cases h <;> rfl
    | _ => cases h
  | requeued o =>
    cases pc with
    | requeueing => cases h; rfl
    | _ => cases h
  | recv | refill | replied | polled | timer | wrote | unserializable | bounced | died | peerClosed =>
    cases hi

/-- A task whose handoff channel or timer is ready, or which dies there. -/
theorem Conn.waiting_veiled {i : Input} (hi : i = .polled ∨ i = .timer ∨ i = .died)
    (h : k.step L roster now c i = some (k', obs)) :
    k.veiled.step L roster now c i = some (k'.veiled, obs) := by
  obtain ⟨peer, pc, buf, ⟨value, txAlive, rxAlive⟩, received, out, peerClosed⟩ := k
  rcases hi with rfl | rfl | rfl
  · cases pc with
    | parked | lostRace => cases value <;> cases txAlive <;> cases h <;> rfl
    | _ => cases h
  · cases pc with
    | parked name waiterId timeoutSecs =>
      cases timeoutSecs <;> cases h
      rfl
    | _ => cases h
  · cases pc with
    | parked | timerFired | lostRace =>
      cases value <;> cases h
      rfl
    | _ => cases h

/-- An envelope line that does not serialize. -/
theorem Conn.unserializable_veiled (h : k.step L roster now c .unserializable = some (k', obs)) :
    k.veiled.step L roster now c .unserializable = some (k'.veiled, obs) := by
  obtain ⟨peer, pc, buf, chan, received, out, peerClosed⟩ := k
  cases pc with
  | writing name x source written =>
    cases written with
    | zero =>
      simp only [Conn.step, Conn.veiled, Pc.veiled] at h ⊢
      cases hline : toJsonl L.serverLineToString (.envelope x.envelope) with
      | error e => rw [hline] at h; cases h; rfl
      | ok jsonl => rw [hline] at h; cases h
    | succ n => cases h
  | _ => cases h

/-- A task takes the steps that read nothing behind the veil, too. -/
theorem Conn.step_veiled {i : Input} (hi : i.reads = false)
    (h : k.step L roster now c i = some (k', obs)) :
    k.veiled.step L roster now c i = some (k'.veiled, obs) := by
  cases i with
  | recv | refill => cases hi
  | replied r =>
    obtain ⟨peer, pc, buf, chan, received, out, peerClosed⟩ := k
    cases pc with
    | replying line next => exact Conn.reply_veiled rfl h
    | _ => cases h
  | wrote r =>
    obtain ⟨peer, pc, buf, chan, received, out, peerClosed⟩ := k
    cases pc with
    | writing name x source written => exact Conn.write_veiled h
    | _ => cases h
  | unserializable => exact Conn.unserializable_veiled h
  | polled => exact Conn.waiting_veiled (Or.inl rfl) h
  | timer => exact Conn.waiting_veiled (Or.inr (Or.inl rfl)) h
  | died => exact Conn.waiting_veiled (Or.inr (Or.inr rfl)) h
  | bounced uuid =>
    obtain ⟨peer, pc, buf, chan, received, out, peerClosed⟩ := k
    cases pc with
    | bouncing => cases h; rfl
    | _ => cases h
  | peerClosed => cases h; rfl
  | locked | appended | routed | unlocked | took | parked | deregistered | requeued =>
    exact Conn.shared_veiled rfl h

theorem Conn.step_veilAt {i : Input} (hi : d = c → i.reads = false)
    (h : k.step L roster now d i = some (k', obs)) :
    (k.veilAt c d).step L roster now d i = some (k'.veilAt c d, obs) := by
  unfold Conn.veilAt
  split_ifs with hd
  · exact Conn.step_veiled (hi hd) h
  · exact h

end Task

/-! ## The hub -/

namespace Hub

section Veil

variable (c : ConnId) (s : Hub) (d : ConnId) (k : Conn) (obs : List Obs)

theorem veil_conns : (s.veil c).conns d = (s.conns d).map (Conn.veilAt c d) :=
  rfl

theorem veil_put : (s.put d k obs).veil c = (s.veil c).put d (k.veilAt c d) obs := by
  have hconns : (fun e => ((s.put d k obs).conns e).map (Conn.veilAt c e)) =
      update (fun e => (s.conns e).map (Conn.veilAt c e)) d (some (k.veilAt c d)) := by
    funext e
    by_cases he : e = d
    · subst he
      simp [put]
    · simp [put, he]
  simp only [veil, put] at hconns ⊢
  rw [hconns]

theorem veil_closed : (s.veil c).closed = s.closed := by
  funext d
  unfold closed
  rw [veil_conns]
  cases s.conns d with
  | none => rfl
  | some k => simp only [Option.map_some, Conn.veilAt_chan]

theorem veil_onChan (tx : ConnId) (f : Oneshot Stamped → Oneshot Stamped) :
    (s.onChan tx f).veil c = (s.veil c).onChan tx f := by
  unfold onChan
  rw [veil_conns]
  cases htx : s.conns tx with
  | none => rfl
  | some k =>
    have hconns : (fun d => (update s.conns tx (some { k with chan := f k.chan }) d).map
        (Conn.veilAt c d)) =
        update (fun d => (s.conns d).map (Conn.veilAt c d)) tx
          (some { k.veilAt c tx with chan := f (k.veilAt c tx).chan }) := by
      funext d
      by_cases hd : d = tx
      · subst hd
        simp only [update_self, Option.map_some, Conn.veilAt_chan]
        unfold Conn.veilAt
        split_ifs <;> rfl
      · simp [hd]
    simp only [veil, Option.map_some] at hconns ⊢
    rw [hconns]

theorem veil_handOff (x : Stamped) (o : SendOutcome) : (s.handOff x o).veil c = (s.veil c).handOff x o := by
  cases o with
  | queued depth => rfl
  | handedOff tx => exact veil_onChan c s tx _

/-- A program point other than the hello's line shows. -/
theorem veil_pc {pc : Pc} (h : s.pc d = some pc) (hpc : ∀ line, pc ≠ .readHello line) :
    (s.veil c).pc d = some pc := by
  obtain ⟨k, hk, rfl⟩ := pc_eq_some.1 h
  refine pc_eq_some.2 ⟨k.veilAt c d, by rw [veil_conns, hk, Option.map_some], ?_⟩
  rcases Conn.veilAt_pc (c := c) (d := d) (k := k) with hveil | ⟨line, -, hline, -⟩
  · exact hveil
  · exact absurd hline (hpc line)

end Veil

section Steps

variable {L : Libs} {roster : Roster} {s s' t t' : Hub} {now : DateTime} {c d : ConnId} {i : Input}

theorem taskStep_veil (hi : d = c → i.reads = false) (h : s.taskStep L roster now d i = some s') :
    (s.veil c).taskStep L roster now d i = some (s'.veil c) := by
  obtain ⟨k, k', obs, hk, hstep, rfl⟩ := taskStep_eq_some h
  rw [veil_put]
  simp only [taskStep, veil_conns, hk, Option.map_some, Conn.step_veilAt hi hstep]
  rfl

/-- A routing step of `d`, whose task takes the input `i`. -/
theorem route_veil (hi : i.reads = false) (x : Stamped) (p : QueuePlacement)
    (h : (s.taskStep L roster now d i).map (fun s₁ =>
      { s₁ with state := (routeEnvelope s.closed s.state x p).1 }.handOff x
        (routeEnvelope s.closed s.state x p).2) = some s') :
    ((s.veil c).taskStep L roster now d i).map (fun s₁ =>
      { s₁ with state := (routeEnvelope s.closed s.state x p).1 }.handOff x
        (routeEnvelope s.closed s.state x p).2) = some (s'.veil c) := by
  obtain ⟨s₁, h₁, rfl⟩ := Option.map_eq_some_iff.1 h
  rw [taskStep_veil (fun _ => hi) h₁, veil_handOff]
  rfl

/-- A connection that is accepted has nothing to hide. -/
theorem accept_veil {peer : String} (h : s.step L roster (now, .accept d peer) = some s') :
    (s.veil c).step L roster (now, .accept d peer) = some (s'.veil c) := by
  simp only [Hub.step, veil_conns] at h ⊢
  cases hk : s.conns d with
  | some k =>
    rw [hk] at h
    cases h
  | none =>
    rw [hk] at h
    cases h
    have hput := veil_put c s d (.accepted now peer) []
    have haccepted : (Conn.accepted now peer).veilAt c d = .accepted now peer := by
      unfold Conn.veilAt
      split_ifs <;> rfl
    rw [haccepted] at hput
    simp only [put, List.append_nil] at hput
    exact congrArg some hput.symm

theorem lockAudit_veil (h : s.step L roster (now, .lockAudit d) = some s') :
    (s.veil c).step L roster (now, .lockAudit d) = some (s'.veil c) := by
  simp only [Hub.step] at h ⊢
  split at h
  · cases h
  · rename_i hfree
    obtain ⟨s₁, h₁, rfl⟩ := Option.map_eq_some_iff.1 h
    rw [show (s.veil c).auditLock = none from hfree]
    dsimp only
    rw [taskStep_veil (fun _ => rfl) h₁]
    rfl

/-- No event waits to be appended while a hello is read. -/
theorem append_veil {os : List WriteResult} (h : s.step L roster (now, .append d os) = some s') :
    (s.veil c).step L roster (now, .append d os) = some (s'.veil c) := by
  simp only [Hub.step] at h ⊢
  split_ifs at h with hlock
  rw [if_pos (show (s.veil c).auditLock = some d from hlock)]
  split at h
  · cases h
  · rename_i event hevent
    have hevent' : ((s.veil c).pc d).bind (pendingEvent now) = some event := by
      obtain ⟨pc, hpc, hpending⟩ := Option.bind_eq_some_iff.1 hevent
      rw [veil_pc c s d hpc fun line hline => ?_, Option.bind_some, hpending]
      rw [hline] at hpending
      cases hpending
    rw [hevent']
    dsimp only
    split at h
    · cases h
    · rename_i audit r hwrite
      obtain ⟨s₁, h₁, rfl⟩ := Option.map_eq_some_iff.1 h
      rw [show (s.veil c).audit.write L.auditEventToString event os = _ from hwrite]
      dsimp only
      rw [show (s.veil c).taskStep L roster now d (.appended (r.map fun _ =>
        (acceptedOf (s.veil c).trace).length)) = _ from taskStep_veil (fun _ => rfl) h₁]
      rfl

theorem unlockAudit_veil (h : s.step L roster (now, .unlockAudit d) = some s') :
    (s.veil c).step L roster (now, .unlockAudit d) = some (s'.veil c) := by
  simp only [Hub.step] at h ⊢
  split_ifs at h with hlock
  obtain ⟨s₁, h₁, rfl⟩ := Option.map_eq_some_iff.1 h
  rw [if_pos (show (s.veil c).auditLock = some d from hlock), taskStep_veil (fun _ => rfl) h₁]
  rfl

theorem routing_veil (h : s.step L roster (now, .route d) = some s') :
    (s.veil c).step L roster (now, .route d) = some (s'.veil c) := by
  simp only [Hub.step] at h ⊢
  split at h
  · rename_i x role e hpc
    rw [veil_pc c s d hpc (by simp)]
    simp only [veil_closed]
    exact route_veil rfl x .back h
  · cases h

theorem requeue_veil (h : s.step L roster (now, .requeue d) = some s') :
    (s.veil c).step L roster (now, .requeue d) = some (s'.veil c) := by
  simp only [Hub.step] at h ⊢
  split at h
  · rename_i name x source hpc
    rw [veil_pc c s d hpc (by simp)]
    simp only [veil_closed]
    exact route_veil rfl x .front h
  · cases h

theorem await_veil (h : s.step L roster (now, .await d) = some s') :
    (s.veil c).step L roster (now, .await d) = some (s'.veil c) := by
  simp only [Hub.step] at h ⊢
  split at h
  · rename_i name filter timeoutSecs hpc
    rw [veil_pc c s d hpc (by simp)]
    dsimp only
    rw [show (s.veil c).state = s.state from rfl]
    cases htake : takeQueued s.state name filter with
    | some p =>
      obtain ⟨x, state⟩ := p
      rw [htake] at h
      obtain ⟨s₁, h₁, rfl⟩ := Option.map_eq_some_iff.1 h
      dsimp only
      rw [taskStep_veil (fun _ => rfl) h₁]
      rfl
    | none =>
      rw [htake] at h
      obtain ⟨s₁, h₁, rfl⟩ := Option.map_eq_some_iff.1 h
      dsimp only
      rw [taskStep_veil (fun _ => rfl) h₁]
      rfl
  · cases h

theorem deregister_veil (h : s.step L roster (now, .deregister d) = some s') :
    (s.veil c).step L roster (now, .deregister d) = some (s'.veil c) := by
  simp only [Hub.step] at h ⊢
  split at h
  · rename_i name waiterId hpc
    rw [veil_pc c s d hpc (by simp)]
    dsimp only
    rw [show (s.veil c).state = s.state from rfl]
    cases hremove : removeWaiter s.state name waiterId with
    | some p =>
      obtain ⟨w, state⟩ := p
      rw [hremove] at h
      obtain ⟨s₁, h₁, rfl⟩ := Option.map_eq_some_iff.1 h
      dsimp only
      rw [taskStep_veil (fun _ => rfl) h₁, veil_onChan]
      rfl
    | none =>
      rw [hremove] at h
      dsimp only
      exact taskStep_veil (fun _ => rfl) h
  · cases h

/-- The hub takes the steps that do not read at `c` behind the veil, too. -/
theorem step_veil {a : Action} (ha : a.readsAt c = false) (h : s.step L roster (now, a) = some s') :
    (s.veil c).step L roster (now, a) = some (s'.veil c) := by
  cases a with
  | accept d peer => exact accept_veil h
  | task d i =>
    simp only [Hub.step] at h ⊢
    split_ifs at h with hi
    rw [if_pos hi]
    refine taskStep_veil (fun hd => ?_) h
    simpa [Action.readsAt, hd] using ha
  | lockAudit d => exact lockAudit_veil h
  | append d os => exact append_veil h
  | unlockAudit d => exact unlockAudit_veil h
  | route d => exact routing_veil h
  | requeue d => exact requeue_veil h
  | await d => exact await_veil h
  | deregister d => exact deregister_veil h

end Steps

section Records

variable {L : Libs} {T : LogTexts} {roster : Roster} {c d : ConnId}

theorem outcome_veilAt {k : Conn} {i : Input} (hi : d = c → i.reads = false) :
    (k.veilAt c d).outcome L d i = k.outcome L d i := by
  unfold Conn.veilAt
  split_ifs with hd
  · obtain ⟨peer, pc, buf, chan, received, out, peerClosed⟩ := k
    cases i with
    | recv | refill => cases hi hd
    | wrote r => cases pc <;> rfl
    | _ => rfl
  · rfl

/-- A step that does not read at `c` comes to the same behind the veil. -/
theorem outcome_veil (s : Hub) (now : DateTime) {a : Action} (ha : a.readsAt c = false) :
    (s.veil c).outcome L (now, a) = s.outcome L (now, a) := by
  cases a with
  | task d i =>
    simp only [outcome, veil_conns]
    cases s.conns d with
    | none => rfl
    | some k =>
      refine outcome_veilAt fun hd => ?_
      simpa [Action.readsAt, hd] using ha
  | append d os =>
    have hevent : ((s.veil c).pc d).bind (pendingEvent now) = (s.pc d).bind (pendingEvent now) := by
      cases hpc : s.pc d with
      | none =>
        rw [Hub.pc, Option.map_eq_none_iff] at hpc
        rw [Hub.pc, veil_conns, hpc]
        rfl
      | some pc =>
        cases pc with
        | readHello line =>
          obtain ⟨k, hk, hkpc⟩ := pc_eq_some.1 hpc
          rw [Hub.pc, veil_conns, hk]
          rcases Conn.veilAt_pc (c := c) (d := d) (k := k) with hveil | ⟨-, line', -, hveil⟩
          · simp only [Option.map_some, hveil, hkpc]
          · simp only [Option.map_some, hveil]
            rfl
        | _ => rw [veil_pc c s d hpc (by simp)]
    simp only [outcome, hevent]
    rfl
  | _ => rfl

theorem purgeRecords_veil (s : Hub) (x : Stamped) : purgeRecords (s.veil c) x = purgeRecords s x := by
  rw [purgeRecords, purgeRecords, veil_closed]
  rfl

theorem routeRecords_veil (s : Hub) (k : Conn) : routeRecords (s.veil c) k = routeRecords s k := by
  unfold routeRecords
  cases k.pc with
  | committing phase role e =>
    cases phase with
    | appended x => exact purgeRecords_veil s x
    | _ => rfl
  | requeueing name x source =>
    simp only [purgeRecords_veil, veil_closed]
    rfl
  | _ => rfl

/-- The records of a connection are read off what the veil shows. -/
theorem conn_records_veil (s : Hub) (k : Conn) (now : DateTime) (cause : String) (o : Outcome) :
    (k.veilAt c d).records L T roster now (s.veil c) cause o = k.records L T roster now s cause o := by
  have hhub : ∀ k : Conn, k.records L T roster now (s.veil c) cause o =
      k.records L T roster now s cause o := by
    intro k
    cases o with
    | acted a =>
      cases a with
      | route | requeue => exact routeRecords_veil s k
      | task d i => cases i <;> rfl
      | _ => rfl
    | _ => rfl
  rw [hhub]
  unfold Conn.veilAt
  split_ifs
  · obtain ⟨peer, pc, buf, chan, received, out, peerClosed⟩ := k
    cases pc with
    | readHello line =>
      cases o with
      | acted a =>
        cases a with
        | task d i => cases i <;> rfl
        | _ => rfl
      | appended d r => cases r <;> rfl
      | _ => rfl
    | _ => rfl
  · rfl

theorem closingRecords_veil (s' : Hub) (k : Conn) :
    closingRecords (k.veilAt c d) ((s'.veil c).pc d) = closingRecords k (s'.pc d) := by
  have hreturned : ∀ k : Conn, (k.veilAt c d).pc.returned = k.pc.returned := by
    intro k
    rcases Conn.veilAt_pc (c := c) (d := d) (k := k) with hveil | ⟨line, line', hpc, hveil⟩
    · rw [hveil]
    · rw [hveil, hpc]
      rfl
  have hpc : ((s'.veil c).pc d).any Pc.returned = (s'.pc d).any Pc.returned := by
    rw [Hub.pc, Hub.pc, veil_conns]
    cases s'.conns d with
    | none => rfl
    | some k => exact hreturned k
  rw [closingRecords, closingRecords, hpc, hreturned, Conn.veilAt_peer]

/-- A step logs the same behind the veil. -/
theorem records_veil (s s' : Hub) (now : DateTime) (o : Outcome) (cause : String) :
    (s.veil c).records L T roster (s'.veil c) now o cause = s.records L T roster s' now o cause := by
  unfold Hub.records
  rw [veil_conns]
  cases s.conns o.conn with
  | none => rfl
  | some k => simp only [Option.map_some, conn_records_veil, closingRecords_veil]

end Records

end Hub

end AgentHub
