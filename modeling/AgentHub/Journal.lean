import AgentHub.Dialogue
import AgentHub.Noninterference
import AgentHub.Session

/-!
# What a connection leaves to log

Which task has to log which record (`Journal`), and what the records of one connection come to.
They open with `connection accepted`, and when the task is over they end with `connection
closed`, or with the report of the monitor that `spawn_connection` leaves behind. In between every
way in which a connection can end leaves one record that says which it was, but for a client that
was gone before it read that it had authenticated : of that one the failed write is logged
(`allTold_of_reach`).

A journal has a record in the step that it is about. The file gets it later.
-/

namespace AgentHub

open Function

/-! ## Records that mark a boundary -/

/-- The messages of the records that say how a connection ended. -/
def conclusions : List String :=
  ["peer closed before sending hello", "failed reading hello line",
    "hello line is not a valid wire line", "first line was not hello", "authentication failed",
    "peer closed without sending a verb", "failed reading verb line",
    "verb line is not a valid wire line", "duplicate hello after authentication",
    "send rejected: envelope validation failed",
    "send committed: envelope audited and handed to a parked waiter",
    "send committed: envelope audited and queued", "send refused: envelope could not be committed",
    "await rejected: replyTo is empty", "await rejected: kind is empty",
    "await timed out; nothing consumed", "await handoff channel closed without delivery; hub bug",
    "await delivered envelope", "delivery failed cleanly: envelope handed to next waiter",
    "delivery failed cleanly: envelope requeued at queue front",
    "delivery failed after partial write: envelope consumed and lost (at-most-once)"]

/-- What a record marks in the life of a connection, or of the process. -/
inductive Mark
  /-- The hub is ready for its first connection. -/
  | starts
  | opens
  | closes
  | concludes
  /-- A line did not reach the peer. -/
  | lineLost
  | none
  deriving DecidableEq, Repr

def Record.mark (r : Record) : Mark :=
  if r.level = .debug then .none
  else if r.message = "startup: listener bound; hub ready" then .starts
  else if r.message = "connection accepted" then .opens
  else if r.message = "connection closed" ∨ r.message = "connection task panicked or was cancelled" then
    .closes
  else if r.message ∈ conclusions then .concludes
  else if r.message = "failed writing server line to peer" ∨ r.message = "cannot serialize server line" then
    .lineLost
  else .none

theorem inFile_of_mark {r : Record} (h : r.mark ≠ .none) : r.inFile = true := by
  unfold Record.mark at h
  split_ifs at h with hlevel
  · exact absurd rfl h
  all_goals simpa [Record.inFile] using hlevel

/-- The record neither opens nor closes a connection, nor is it one of the start. -/
def Record.within (r : Record) : Bool :=
  r.mark ≠ .opens && r.mark ≠ .closes && r.mark ≠ .starts

/-- How many of the records say how a connection ended. -/
def concluded (rs : List Record) : ℕ :=
  rs.countP fun r => r.mark = .concludes

@[simp] theorem concluded_nil : concluded [] = 0 := rfl

@[simp] theorem concluded_append (rs rs' : List Record) :
    concluded (rs ++ rs') = concluded rs + concluded rs' :=
  List.countP_append

theorem concluded_cons (r : Record) (rs : List Record) :
    concluded (r :: rs) = concluded rs + if r.mark = .concludes then 1 else 0 := by
  simp [concluded, List.countP_cons]

theorem concluded_eq_zero {rs : List Record} (h : ∀ r ∈ rs, r.mark = .none ∨ r.mark = .lineLost) :
    concluded rs = 0 := by
  refine List.countP_eq_zero.2 fun r hr => ?_
  rcases h r hr with hmark | hmark <;> simp [hmark]

/-- The records of the task that say how its connection ended, at a program point. -/
def Pc.told : Pc → ℕ
  | .auditing _ _ (.refuse _) | .replying _ .finish | .bouncing _ _ | .committing _ (.bounce _ _) _
  | .finished => 1
  | _ => 0

theorem Pc.told_auditing (phase phase' : AuditPhase) (event event' : AuditEvent) (next : AuditNext) :
    (Pc.auditing phase event next).told = (Pc.auditing phase' event' next).told := by
  cases next <;> rfl

theorem Pc.told_committing (phase phase' : CommitPhase) (role : Role) (e e' : Envelope) :
    (Pc.committing phase role e).told = (Pc.committing phase' role e').told := by
  cases role <;> rfl

/-- What a step from `pc` to `pc'` logs but for the bracket : it says how the connection ended if
it is then known, or that the client never read that it had authenticated. -/
structure Tells (pc pc' : Pc) (rs : List Record) : Prop where
  within : ∀ r ∈ rs, r.within = true
  told : concluded rs + pc.told = pc'.told ∨
    pc' = .finished ∧ pc.told = 0 ∧ ∃ r, rs = [r] ∧ r.mark = .lineLost
  dead : pc' = .dead → pc = .dead

/-- None of the records says how the connection ended. -/
theorem Tells.goesOn {pc pc' : Pc} {rs : List Record} (h : ∀ r ∈ rs, r.mark = .none ∨ r.mark = .lineLost)
    (hpc : pc.told = pc'.told) (hdead : pc' = .dead → pc = .dead) :
    Tells pc pc' rs where
  within r hr := by
    rcases h r hr with hmark | hmark <;> rw [Record.within, hmark] <;> rfl
  told := Or.inl (by rw [concluded_eq_zero h, Nat.zero_add, hpc])
  dead := hdead

theorem Tells.plain {pc pc' : Pc} {rs : List Record} (h : ∀ r ∈ rs, r.mark = .none)
    (hpc : pc.told = pc'.told) (hdead : pc' = .dead → pc = .dead) :
    Tells pc pc' rs :=
  .goesOn (fun r hr => Or.inl (h r hr)) hpc hdead

theorem Tells.nil {pc pc' : Pc} (hpc : pc.told = pc'.told) (hdead : pc' = .dead → pc = .dead) :
    Tells pc pc' [] :=
  .plain (List.forall_mem_nil _) hpc hdead

/-- The records end with the one that says how the connection ended. -/
theorem Tells.conclusion {pc pc' : Pc} {r : Record} (hr : r.mark = .concludes) (hpc : pc.told = 0)
    (hpc' : pc'.told = 1) {rs : List Record} (h : ∀ r ∈ rs, r.mark = .none) :
    Tells pc pc' (rs ++ [r]) where
  within r' hr' := by
    rcases List.mem_append.1 hr' with hmem | hmem
    · rw [Record.within, h r' hmem]
      rfl
    · rw [Record.within, List.mem_singleton.1 hmem, hr]
      rfl
  told := Or.inl (by
    rw [concluded_append, concluded_eq_zero fun r hr => Or.inl (h r hr), concluded_cons, if_pos hr,
      concluded_nil, hpc, hpc'])
  dead h := by
    rw [h] at hpc'
    cases hpc'

/-! ## The records of one step -/

section Records

variable {L : Libs} {T : LogTexts} {roster : Roster} {now : DateTime} {c : ConnId} {peer : String}

theorem mark_tracePayload (direction : String) (e : Envelope) :
    (tracePayload T direction e).mark = .none := by
  unfold tracePayload
  split
  · rfl
  · simp [Record.mark, Record.warn, conclusions]

theorem mark_purgeRecords (s : Hub) (x : Stamped) : ∀ r ∈ purgeRecords s x, r.mark = .none := by
  intro r hr
  obtain ⟨w, -, rfl⟩ := List.mem_map.1 hr
  simp [Record.mark, Record.warn, conclusions]

/-- One record, that says how the connection ended. -/
theorem Tells.one {pc pc' : Pc} {r : Record} (hr : r.mark = .concludes) (hpc : pc.told = 0)
    (hpc' : pc'.told = 1) : Tells pc pc' [r] :=
  .conclusion hr hpc hpc' (List.forall_mem_nil _)

/-- The hello boundary : whoever does not authenticate is over. -/
theorem tells_hello (line : List UInt8) (r : Except ReadLineError (Option String)) :
    Tells (.readHello line) (onHelloLine L roster now c peer r).1
      (helloRecords roster peer (L.lineRead r)) := by
  rcases r with e | (_ | text)
  · exact .one (by simp [Record.mark, Record.warn, conclusions]) rfl rfl
  · exact .one (by simp [Record.mark, Record.info, conclusions]) rfl rfl
  cases hline : L.clientLineFromStr text with
  | error e =>
    simp only [Libs.lineRead, Except.map, Option.map, hline, onHelloLine, fromJsonl, helloRecords]
    exact .one (by simp [Record.mark, Record.warn, conclusions]) rfl rfl
  | ok verb =>
    simp only [Libs.lineRead, Except.map, Option.map, hline, onHelloLine, fromJsonl]
    cases verb with
    | hello name token =>
      simp only [helloRecords, handleHello, Roster.verify]
      cases roster.get name with
      | none => exact .one (by simp [Record.mark, Record.warn, conclusions]) rfl rfl
      | some expected =>
        dsimp only
        split_ifs
        · exact .one (by simp [Record.mark, Record.warn, conclusions]) rfl rfl
        · exact .plain (by simp [Record.mark, Record.info, conclusions]) rfl (by intro h; cases h)
    | _ => exact .one (by simp [Record.mark, Record.warn, conclusions]) rfl rfl

theorem tells_send (name : String) (line : List UInt8) (e : Envelope) :
    Tells (.readVerb name line) (handleSend L name e) (sendRecords L T peer name e) := by
  unfold handleSend sendRecords
  cases e.validate L.parseFromRfc3339 with
  | error cause => exact .one (by simp [Record.mark, Record.warn, conclusions]) rfl rfl
  | ok _ => exact .plain (by simp [mark_tracePayload]) rfl (by intro h; cases h)

theorem tells_await (name : String) (line : List UInt8) (replyTo kind : Option String)
    (timeoutSecs : Option UInt64) :
    Tells (.readVerb name line) (handleAwait name replyTo kind timeoutSecs)
      (awaitRecords L peer name replyTo kind timeoutSecs) := by
  unfold handleAwait awaitRecords
  split_ifs
  · exact .one (by simp [Record.mark, Record.warn, conclusions]) rfl rfl
  · exact .one (by simp [Record.mark, Record.warn, conclusions]) rfl rfl
  · exact .plain (by simp [Record.mark, Record.info, conclusions]) rfl (by intro h; cases h)

/-- The verb boundary. -/
theorem tells_verb (name : String) (line : List UInt8) (r : Except ReadLineError (Option String)) :
    Tells (.readVerb name line) (onVerbLine L c name r).1 (verbRecords L T peer name (L.lineRead r)) := by
  rcases r with e | (_ | text)
  · exact .one (by simp [Record.mark, Record.warn, conclusions]) rfl rfl
  · exact .one (by simp [Record.mark, Record.info, conclusions]) rfl rfl
  cases hline : L.clientLineFromStr text with
  | error e =>
    simp only [Libs.lineRead, Except.map, Option.map, hline, onVerbLine, fromJsonl, verbRecords]
    exact .one (by simp [Record.mark, Record.warn, conclusions]) rfl rfl
  | ok verb =>
    simp only [Libs.lineRead, Except.map, Option.map, hline, onVerbLine, fromJsonl]
    cases verb with
    | hello => exact .one (by simp [Record.mark, Record.warn, conclusions]) rfl rfl
    | send e => exact tells_send name line e
    | await replyTo kind timeoutSecs => exact tells_await name line replyTo kind timeoutSecs

variable {s : Hub} {k k' : Conn} {obs : List Obs} {cause : String}

/-- A round of reading a line. -/
theorem tells_readRound {k₁ : Conn} {r : Except String (List UInt8)} (hpc : k₁.pc = k.pc)
    (hpeer : k₁.peer = k.peer) (h : k₁.readRound L roster now c r = some (k', obs)) :
    Tells k.pc k'.pc ((k.pc.lineSoFar.bind fun line => (readLineStep line r).outcome L c).toList.flatMap
      (k.records L T roster now s cause)) := by
  unfold Conn.readRound at h
  rw [hpc, hpeer] at h
  split at h
  · rename_i line hread
    rw [hread, Pc.lineSoFar, Option.bind_some]
    split at h
    · rename_i line' hline
      obtain ⟨rfl, -⟩ := Prod.mk.inj (Option.some.inj h)
      rw [hline]
      exact .nil rfl (by intro h; cases h)
    · rename_i result rest hline
      obtain ⟨rfl, -⟩ := Prod.mk.inj (Option.some.inj h)
      simp only [hline, ReadStep.outcome, Option.toList_some, List.flatMap_singleton, Conn.records,
        lineRecords, hread]
      exact tells_hello line result
  · rename_i name line hread
    rw [hread, Pc.lineSoFar, Option.bind_some]
    split at h
    · rename_i line' hline
      obtain ⟨rfl, -⟩ := Prod.mk.inj (Option.some.inj h)
      rw [hline]
      exact .nil rfl (by intro h; cases h)
    · rename_i result rest hline
      obtain ⟨rfl, -⟩ := Prod.mk.inj (Option.some.inj h)
      simp only [hline, ReadStep.outcome, Option.toList_some, List.flatMap_singleton, Conn.records,
        lineRecords, hread]
      exact tells_verb name line result
  · cases h

/-- A reply is written. If it is lost then either the connection has been concluded, or the client
never read that it had authenticated. -/
theorem tells_reply {line : ServerLine} {next : ReplyNext} {r : Except ℕ Unit}
    (hpc : k.pc = .replying line next) (h : k.reply L c line next r = some (k', obs)) :
    Tells k.pc k'.pc (replyRecords L k r.toBool cause) := by
  have hlost : ∀ {r : Record}, r.mark = .lineLost → Tells k.pc .finished [r] := by
    intro r hr
    have hopen : ∀ r' ∈ [r], r'.mark = .none ∨ r'.mark = .lineLost :=
      fun r' hr' => Or.inr (List.mem_singleton.1 hr' ▸ hr)
    cases next with
    | finish => exact .goesOn hopen (by rw [hpc]; rfl) (by intro h; cases h)
    | readVerb name =>
      refine ⟨(@Tells.goesOn k.pc k.pc _ hopen rfl id).within,
        Or.inr ⟨rfl, by rw [hpc]; rfl, r, rfl, hr⟩, fun h => ?_⟩
      cases h
  unfold Conn.reply at h
  simp only [replyRecords, hpc]
  cases hline : toJsonl L.serverLineToString line with
  | error e =>
    rw [hline] at h
    cases r with
    | error n =>
      obtain ⟨rfl, -⟩ := Prod.mk.inj (Option.some.inj h)
      exact hpc ▸ hlost (by simp [Record.mark, Record.error, conclusions])
    | ok _ => cases h
  | ok jsonl =>
    rw [hline] at h
    cases r with
    | error n =>
      dsimp only at h
      split_ifs at h
      obtain ⟨rfl, -⟩ := Prod.mk.inj (Option.some.inj h)
      exact hpc ▸ hlost (by simp [Record.mark, Record.warn, conclusions])
    | ok _ =>
      obtain ⟨rfl, -⟩ := Prod.mk.inj (Option.some.inj h)
      cases next <;> exact .nil rfl (by intro h; cases h)

/-- The record of an envelope that is lost. -/
def lossRecords (k : Conn) (name source : String) (x : Stamped) : EnvelopeWrite → List Record
  | .failedPartial written =>
    [.error "delivery failed after partial write: envelope consumed and lost (at-most-once)"
      [("peer", .text k.peer), ("name", .text name), ("id", .text x.envelope.id),
        ("source", .text source), ("written", .bytes written), ("elapsed_ms", .elapsed)]]
  | .written | .failedClean => []

/-- The loop of `write_envelope_line` logs why it stops, and then a loss. -/
theorem writeRecords_eq {name source : String} {x : Stamped} {written : ℕ}
    (hpc : k.pc = .writing name x source written) (result : EnvelopeWrite) (stop : Option WriteResult) :
    ∃ rs, writeRecords k result stop = rs ++ lossRecords k name source x result ∧
      ∀ r ∈ rs, r.level = .warn ∧ (r.message = "socket accepted zero bytes writing envelope line" ∨
        r.message = "failed writing envelope line to peer") := by
  simp only [writeRecords, hpc]
  rcases stop with _ | (n | e)
  · exact ⟨[], by cases result <;> rfl, List.forall_mem_nil _⟩
  · exact ⟨[.warn "socket accepted zero bytes writing envelope line"
        [("peer", .text k.peer), ("written", .bytes result.count)]],
      by cases result <;> rfl, List.forall_mem_singleton.2 ⟨rfl, Or.inl rfl⟩⟩
  · exact ⟨[.warn "failed writing envelope line to peer"
        [("peer", .text k.peer), ("error", .text e.display), ("written", .bytes result.count)]],
      by cases result <;> rfl, List.forall_mem_singleton.2 ⟨rfl, Or.inr rfl⟩⟩

/-- The loop of `write_envelope_line` ends : a loss concludes the connection, a clean failure only
once the envelope is routed again, a delivery once it is audited. -/
theorem tells_afterWrite {name source : String} {x : Stamped} {written : ℕ}
    (hpc : k.pc = .writing name x source written) (result : EnvelopeWrite) (stop : Option WriteResult) :
    Tells k.pc (k.afterWrite now c name x source result).1 (writeRecords k result stop) := by
  obtain ⟨rs, hrs, hstop⟩ := writeRecords_eq hpc result stop
  have hmark : ∀ r ∈ rs, r.mark = .none := by
    intro r hr
    obtain ⟨hlevel, hmessage | hmessage⟩ := hstop r hr <;>
      simp [Record.mark, hlevel, hmessage, conclusions]
  rw [hrs]
  cases result with
  | written | failedClean =>
    rw [lossRecords, List.append_nil]
    exact .plain hmark (by rw [hpc]; rfl) (by intro h; cases h)
  | failedPartial n =>
    refine .conclusion (by simp [Record.mark, Record.error, conclusions]) (by rw [hpc]; rfl) ?_ hmark
    unfold Conn.afterWrite
    dsimp only
    split_ifs <;> rfl

/-- One socket write of the envelope line. -/
theorem tells_write {name source : String} {x : Stamped} {written : ℕ} {r : WriteResult}
    (hpc : k.pc = .writing name x source written)
    (h : k.write L now c name x source written r = some (k', obs)) :
    Tells k.pc k'.pc ((k.outcome L c (.wrote r)).toList.flatMap (k.records L T roster now s cause)) := by
  unfold Conn.write at h
  simp only [Conn.outcome, hpc]
  cases hline : toJsonl L.serverLineToString (.envelope x.envelope) with
  | error e =>
    rw [hline] at h
    cases h
  | ok jsonl =>
    rw [hline] at h
    dsimp only at h ⊢
    cases hround : writeRound (asBytes jsonl).length written r with
    | none =>
      rw [hround] at h
      cases h
    | some round =>
      rw [hround] at h
      cases round with
      | more written' =>
        obtain ⟨rfl, -⟩ := Prod.mk.inj (Option.some.inj h)
        exact .nil rfl (by intro h; cases h)
      | done result =>
        obtain ⟨rfl, -⟩ := Prod.mk.inj (Option.some.inj h)
        simp only [Option.bind_some, WriteStep.outcome, Option.toList_some, List.flatMap_singleton,
          Conn.records]
        exact hpc ▸ tells_afterWrite hpc result r.stops

/-- The handoff receiver is ready. Its loss is a conclusion, and reported as a bug. -/
theorem tells_polled {name : String} {waiterId : UInt64} (hwaiter : waiterOf s.trace c = some waiterId)
    (hpc : k.pc.Waits name) (h : k.step L roster now c .polled = some (k', obs)) :
    Tells k.pc k'.pc (handoffRecords T s.trace c k) := by
  have hzero : k.pc.told = 0 := by
    generalize k.pc = pc at hpc
    cases hpc <;> rfl
  cases hvalue : k.chan.value with
  | some x =>
    have hstep : k.step L roster now c .polled =
        some ({ k with pc := .writing name x "handoff" 0, chan := k.chan.dropRx }, []) := by
      rw [Conn.step]
      generalize hk : k.pc = pc at hpc
      cases hpc <;> simp only [hvalue]
    have hrecords : handoffRecords T s.trace c k = [tracePayload T "outbound" x.envelope] := by
      rw [handoffRecords]
      generalize k.pc = pc at hpc
      cases hpc <;> simp only [hvalue]
    rw [hstep] at h
    obtain ⟨rfl, -⟩ := Prod.mk.inj (Option.some.inj h)
    rw [hrecords]
    exact .plain (by simp [mark_tracePayload]) hzero (by intro h; cases h)
  | none =>
    have hstep : k.step L roster now c .polled = if k.chan.txAlive then none
        else some ({ k with pc := .replying (.error "internal error: await handoff lost") .finish,
                            chan := k.chan.dropRx }, []) := by
      rw [Conn.step]
      generalize hk : k.pc = pc at hpc
      cases hpc <;> simp only [hvalue]
    have hrecords : handoffRecords T s.trace c k =
        [.error "await handoff channel closed without delivery; hub bug"
          [("peer", .text k.peer), ("name", .text name), ("waiter_id", .number waiterId.toNat),
            ("elapsed_ms", .elapsed)]] := by
      rw [handoffRecords]
      simp only [hvalue, hwaiter, Option.toList_some, List.map_cons, List.map_nil]
      generalize k.pc = pc at hpc
      cases hpc <;> rfl
    rw [hstep] at h
    split_ifs at h
    obtain ⟨rfl, -⟩ := Prod.mk.inj (Option.some.inj h)
    rw [hrecords]
    exact .one (by simp [Record.mark, Record.error, conclusions]) hzero rfl

/-! ## What stands behind them -/

theorem getLast?_filterMap {α β : Type} {f : α → Option β} {t : List α} {o : α} {b : β} (ho : o ∈ t)
    (hb : f o = some b) : ∃ b', (t.filterMap f).getLast? = some b' := by
  rw [← Option.isSome_iff_exists, List.getLast?_isSome]
  exact List.ne_nil_of_mem (List.mem_filterMap.2 ⟨o, ho, hb⟩)

theorem exists_committedTo {t : List Obs} {x : Stamped} {outcome : SendOutcome}
    (h : .routed c x .back outcome ∈ t) : ∃ o, committedTo t c = some o :=
  getLast?_filterMap (f := Obs.committedBy c) (b := outcome) h (by simp [Obs.committedBy])

theorem exists_delivered {t : List Obs} {x : Stamped} (h : .written c x ∈ t) :
    ∃ e, delivered t c = some e :=
  getLast?_filterMap (f := Obs.deliveredBy c) (b := x.envelope) h (by simp [Obs.deliveredBy])

theorem exists_waiterOf {t : List Obs} {name : String} {waiterId : UInt64}
    (h : .parked c name waiterId ∈ t) : ∃ id, waiterOf t c = some id :=
  getLast?_filterMap (f := Obs.parkedBy c) (b := waiterId) h (by simp [Obs.parkedBy])

/-- The last record of an audit task is a delivery's. -/
def Pc.Paired : Pc → Prop
  | .auditing _ event .finish => ∃ ts id name peer, event = .delivery ts id name peer
  | _ => True

theorem Pc.paired_of_afterUnlock {pc pc' : Pc} (h : Conn.afterUnlock pc = some pc') : pc'.Paired := by
  unfold Conn.afterUnlock at h
  split at h
  · rename_i next
    cases next <;> cases h <;> trivial
  all_goals cases h
  all_goals trivial

theorem paired_of_run {t : List Obs} (h : Conn.Run L roster c t k) : k.pc.Paired := by
  induction h with
  | accepted => trivial
  | @«local» _ _ _ k _ _ hstep ih =>
    cases hstep with
    | helloRefused hpc hfill hrefuse | verbRefused hpc hfill hrefuse => cases hrefuse <;> trivial
    | wroteAll => exact ⟨_, _, _, _, rfl⟩
    | peerClosed => exact ih
    | _ => trivial
  | @shared _ _ _ _ k _ _ hstep ih =>
    cases hstep with
    | @lockedAudit event next hpc | @logged event next _ hpc | @unlogged event next _ hpc =>
      rw [hpc] at ih
      cases next with
      | finish => exact ih
      | _ => trivial
    | unlocked hpc => exact Pc.paired_of_afterUnlock hpc
    | _ => trivial
  | channel _ _ ih => exact ih

/-- The blocking job is over : what was committed or delivered is logged. -/
theorem tells_unlock {pc : Pc} {t : List Obs} (hpaired : k.pc.Paired) (hknown : k.pc.Known L c t)
    (hsub : t ⊆ s.trace) (h : Conn.afterUnlock k.pc = some pc) :
    Tells k.pc pc (unlockRecords s.trace c k) := by
  unfold unlockRecords
  generalize k.pc = pc₀ at hpaired hknown h
  unfold Conn.afterUnlock at h
  split at h
  · rename_i event next
    cases next with
    | readHello | refuse message =>
      cases h
      cases event <;> exact .nil rfl (by intro h; cases h)
    | finish =>
      cases h
      obtain ⟨ts, id, name, peer, rfl⟩ := hpaired
      obtain ⟨-, x, hx, -⟩ := hknown
      obtain ⟨e, he⟩ := exists_delivered (hsub hx)
      simp only [he, Option.toList_some, List.map_cons, List.map_nil]
      exact .one (by simp [Record.mark, Record.info, conclusions]) rfl rfl
  · obtain rfl := Option.some.inj h
    obtain ⟨-, -, -, outcome, ho⟩ := hknown
    obtain ⟨o, ho⟩ := exists_committedTo (hsub ho)
    simp only [ho, Option.toList_some, List.map_cons, List.map_nil]
    refine .one ?_ rfl rfl
    cases o <;> simp [commitRecords, Record.mark, Record.info, conclusions]
  · obtain rfl := Option.some.inj h
    exact .one (by simp [Record.mark, Record.error, conclusions]) rfl rfl
  · obtain rfl := Option.some.inj h
    refine .plain (fun r hr => ?_) rfl (by intro h; cases h)
    obtain ⟨o, -, rfl⟩ := List.mem_map.1 hr
    cases o <;> simp [bounceCommitRecords, Record.mark, Record.info, conclusions]
  · obtain rfl := Option.some.inj h
    exact .plain (by simp [Record.mark, Record.error, conclusions]) rfl (by intro h; cases h)
  · cases h

/-- The steps that a task takes on its own. -/
theorem tells_local {i : Input} {t : List Obs} (hi : i.isLocal = true) (hdied : i ≠ .died)
    (hknown : k.pc.Known L c t) (hsub : t ⊆ s.trace) (h : k.step L roster now c i = some (k', obs)) :
    Tells k.pc k'.pc ((k.outcome L c i).toList.flatMap (k.records L T roster now s cause)) := by
  cases i with
  | recv r =>
    simp only [Conn.step] at h
    split_ifs at h
    refine tells_readRound ?_ ?_ h <;> rfl
  | refill =>
    simp only [Conn.step] at h
    split_ifs at h
    refine tells_readRound ?_ ?_ h <;> rfl
  | replied r =>
    simp only [Conn.step] at h
    split at h
    · rename_i line next hpc
      simp only [Conn.outcome, Option.toList_some, List.flatMap_singleton, Conn.records]
      exact tells_reply hpc h
    · cases h
  | polled =>
    simp only [Conn.outcome, Option.toList_some, List.flatMap_singleton, Conn.records, actionRecords]
    have hwaits : (∃ name, k.pc.Waits name) ∧ ∃ name id, .parked c name id ∈ t := by
      unfold Conn.step at h
      dsimp only at h
      split at h
      · rename_i name waiterId timeoutSecs hpc
        rw [hpc] at hknown ⊢
        exact ⟨⟨name, .parked waiterId timeoutSecs⟩, name, waiterId, hknown.2⟩
      · rename_i name hpc
        rw [hpc] at hknown ⊢
        obtain ⟨-, waiterId, hparked⟩ := hknown
        exact ⟨⟨name, .lostRace⟩, name, waiterId, hparked⟩
      · cases h
    obtain ⟨⟨name, hpc⟩, _, _, hparked⟩ := hwaits
    obtain ⟨waiterId, hwaiter⟩ := exists_waiterOf (hsub hparked)
    exact tells_polled hwaiter hpc h
  | timer =>
    simp only [Conn.step] at h
    split at h
    · rename_i hpc
      obtain ⟨rfl, -⟩ := Prod.mk.inj (Option.some.inj h)
      exact .nil (by rw [hpc]; rfl) (by intro h; cases h)
    · cases h
  | wrote r =>
    simp only [Conn.step] at h
    split at h
    · rename_i hpc
      exact tells_write hpc h
    · cases h
  | unserializable =>
    simp only [Conn.step] at h
    split at h
    · rename_i name x source hpc
      split at h
      · rename_i e hline
        obtain ⟨rfl, -⟩ := Prod.mk.inj (Option.some.inj h)
        simp only [Conn.outcome, Option.toList_some, List.flatMap_singleton, Conn.records, actionRecords,
          serializeRecords, hpc, hline]
        exact .goesOn (by simp [Record.mark, Record.error, conclusions]) rfl (by intro h; cases h)
      · cases h
    · cases h
  | bounced uuid =>
    simp only [Conn.step] at h
    split at h
    · rename_i name x hpc
      obtain ⟨rfl, -⟩ := Prod.mk.inj (Option.some.inj h)
      simp only [Conn.outcome, Option.toList_some, List.flatMap_singleton, Conn.records, bounceRecords, hpc]
      exact .plain (by simp [mark_tracePayload]) rfl (by intro h; cases h)
    · cases h
  | peerClosed =>
    obtain ⟨rfl, -⟩ := Prod.mk.inj (Option.some.inj h)
    exact .nil rfl id
  | died => exact absurd rfl hdied
  | _ => cases hi

/-- In the middle of a line the task is not over. -/
theorem isGone_of_readMore {k₁ : Conn} {r : Except String (List UInt8)} (hpc : k₁.pc = k.pc)
    (h : k₁.readRound L roster now c r = some (k', obs))
    (hout : (k.pc.lineSoFar.bind fun line => (readLineStep line r).outcome L c) = none) :
    k'.pc.isGone = false := by
  unfold Conn.readRound at h
  rw [hpc] at h
  split at h
  · rename_i line hread
    rw [hread, Pc.lineSoFar, Option.bind_some] at hout
    cases hline : readLineStep line r with
    | more line' =>
      rw [hline] at h
      obtain ⟨rfl, -⟩ := Prod.mk.inj (Option.some.inj h)
      rfl
    | done result rest =>
      rw [hline] at hout
      cases hout
  · rename_i name line hread
    rw [hread, Pc.lineSoFar, Option.bind_some] at hout
    cases hline : readLineStep line r with
    | more line' =>
      rw [hline] at h
      obtain ⟨rfl, -⟩ := Prod.mk.inj (Option.some.inj h)
      rfl
    | done result rest =>
      rw [hline] at hout
      cases hout
  · cases h

/-- Nor is it in the middle of an envelope line. -/
theorem isGone_of_wroteMore {name source : String} {x : Stamped} {written : ℕ} {r : WriteResult}
    (hpc : k.pc = .writing name x source written)
    (h : k.write L now c name x source written r = some (k', obs))
    (hout : k.outcome L c (.wrote r) = none) : k'.pc.isGone = false := by
  unfold Conn.write at h
  simp only [Conn.outcome, hpc] at hout
  cases hline : toJsonl L.serverLineToString (.envelope x.envelope) with
  | error e =>
    rw [hline] at h
    cases h
  | ok jsonl =>
    rw [hline] at h hout
    dsimp only at h hout
    cases hround : writeRound (asBytes jsonl).length written r with
    | none =>
      rw [hround] at h
      cases h
    | some round =>
      rw [hround] at h hout
      cases round with
      | more written' =>
        obtain ⟨rfl, -⟩ := Prod.mk.inj (Option.some.inj h)
        rfl
      | done result => cases hout

theorem isGone_of_outcome_none {i : Input} (h : k.step L roster now c i = some (k', obs))
    (hout : k.outcome L c i = none) : k'.pc.isGone = false := by
  cases i with
  | recv r =>
    simp only [Conn.step] at h
    split_ifs at h
    refine isGone_of_readMore ?_ h hout
    rfl
  | refill =>
    simp only [Conn.step] at h
    split_ifs at h
    exact isGone_of_readMore rfl h hout
  | wrote r =>
    simp only [Conn.step] at h
    split at h
    · rename_i hpc
      exact isGone_of_wroteMore hpc h hout
    · cases h
  | _ => cases hout

theorem conn_of_readOutcome {step : ReadStep} {o : Outcome} (h : step.outcome L c = some o) :
    o.conn = c := by
  cases step with
  | more => cases h
  | done => rw [← Option.some.inj h, Outcome.conn]

theorem conn_of_outcome {i : Input} {o : Outcome} (h : k.outcome L c i = some o) : o.conn = c := by
  cases i with
  | recv | refill =>
    obtain ⟨line, -, hstep⟩ := Option.bind_eq_some_iff.1 h
    exact conn_of_readOutcome hstep
  | wrote r =>
    simp only [Conn.outcome] at h
    split at h
    · split at h
      · cases h
      · obtain ⟨round, -, hround⟩ := Option.bind_eq_some_iff.1 h
        cases round with
        | more => cases hround
        | done => rw [← Option.some.inj hround, Outcome.conn]
    · cases h
  | _ => rw [← Option.some.inj h]; rfl

/-- A task that is over takes no step but to see its peer close. -/
theorem Conn.peerClosed_of_gone {i : Input} (hgone : k.pc.isGone = true)
    (h : k.step L roster now c i = some (k', obs)) : i = .peerClosed ∧ k'.pc = k.pc := by
  have hpc : k.pc = .finished ∨ k.pc = .dead := by
    unfold Pc.isGone at hgone
    split at hgone
    · exact Or.inl (by assumption)
    · exact Or.inr (by assumption)
    · cases hgone
  cases i with
  | peerClosed =>
    obtain ⟨rfl, -⟩ := Prod.mk.inj (Option.some.inj h)
    exact ⟨rfl, rfl⟩
  | recv | refill => rcases hpc with hpc | hpc <;> simp [Conn.step, Conn.readRound, hpc] at h
  | _ => rcases hpc with hpc | hpc <;> simp [Conn.step, Conn.afterUnlock, hpc] at h

end Records

namespace Hub

variable {L : Libs} {T : LogTexts} {roster : Roster} {audit : AuditLog} {s s' : Hub} {now : DateTime}
  {a : Action} {k : Conn}

/-- What a step logs but for the bracket. -/
def own (L : Libs) (T : LogTexts) (roster : Roster) (s : Hub) (now : DateTime) (a : Action) (k : Conn)
    (cause : String) : List Record :=
  (s.outcome L (now, a)).toList.flatMap (k.records L T roster now s cause)

theorem own_acted {cause : String} (hout : s.outcome L (now, a) = some (.acted a)) :
    s.own L T roster now a k cause = actionRecords L T s k cause a := by
  rw [own, hout, Option.toList_some, List.flatMap_singleton, Conn.records]

theorem pc_of_update {s s' : Hub} {c : ConnId} {k' : Conn} (h : s'.conns = update s.conns c (some k')) :
    s'.pc c = some k'.pc := by
  rw [Hub.pc, h, update_self, Option.map_some]

theorem pc_of_routing {s : Hub} {c : ConnId} {k : Conn} {pc : Pc} {x : Stamped} {p : QueuePlacement} :
    (s.routing c k pc x p).pc c = some pc := by
  rw [Hub.pc, @routing_pc s c c k [] x pc p]
  simp [put_conns]

/-- What an append comes to. -/
theorem own_append {c : ConnId} {os : List WriteResult} {event : AuditEvent} {log : AuditLog}
    {r : Except AuditError Unit} {cause : String} (hk : s.conns c = some k)
    (hevent : pendingEvent now k.pc = some event)
    (hwrite : s.audit.write L.auditEventToString event os = some (log, r)) :
    s.own L T roster now (.append c os) k cause = appendRecords T k r := by
  have hpc : s.pc c = some k.pc := by rw [Hub.pc, hk, Option.map_some]
  have hout : s.outcome L (now, .append c os) = some (.appended c r) := by
    simp only [outcome, hpc, Option.bind_some, hevent, hwrite, Option.map_some]
  rw [own, hout, Option.toList_some, List.flatMap_singleton, Conn.records]

/-! ### What each kind of step tells -/

section Kinds

variable {c : ConnId} {cause : String}

theorem tells_lockAudit (hs : Step L roster s (now, .lockAudit c) s') (hk : s.conns c = some k) :
    ∃ pc', s'.pc c = some pc' ∧ Tells k.pc pc' (s.own L T roster now (.lockAudit c) k cause) := by
  rw [own_acted rfl]
  cases hs with
  | lockAudit hfree hk' hshared =>
    obtain rfl := Option.some.inj (hk'.symm.trans hk)
    refine ⟨_, pc_of_update rfl, ?_⟩
    cases hshared with
    | lockedAudit hat => exact .nil (by rw [hat]; exact Pc.told_auditing _ _ _ _ _) (by intro h; cases h)
    | lockedCommit hat => exact .nil (by rw [hat]; exact Pc.told_committing _ _ _ _ _) (by intro h; cases h)

theorem tells_append {os : List WriteResult} (hs : Step L roster s (now, .append c os) s')
    (hk : s.conns c = some k) :
    ∃ pc', s'.pc c = some pc' ∧ Tells k.pc pc' (s.own L T roster now (.append c os) k cause) := by
  cases hs with
  | @append _ _ _ k' _ _ event log r hlock hk' hevent hwrite hshared =>
    obtain rfl := Option.some.inj (hk'.symm.trans hk)
    refine ⟨_, pc_of_update rfl, ?_⟩
    rw [own_append hk hevent hwrite]
    have hmark : ∀ r' ∈ appendRecords T k' r, r'.mark = .none := by
      intro r' hr'
      unfold appendRecords at hr'
      split at hr'
      · cases hr'
      · split at hr'
        · obtain rfl := List.mem_singleton.1 hr'
          simp [Record.mark, Record.error, conclusions]
        · cases hr'
    generalize (r.map fun _ => (acceptedOf s.trace).length) = result at hshared
    cases hshared with
    | logged hat | unlogged hat =>
      exact .plain hmark (by rw [hat]; exact Pc.told_auditing _ _ _ _ _) (by intro h; cases h)
    | accepted hat | refused hat =>
      exact .plain hmark (by rw [hat]; exact Pc.told_committing _ _ _ _ _) (by intro h; cases h)

theorem tells_route (hs : Step L roster s (now, .route c) s') (hk : s.conns c = some k) :
    ∃ pc', s'.pc c = some pc' ∧ Tells k.pc pc' (s.own L T roster now (.route c) k cause) := by
  rw [own_acted rfl]
  cases hs with
  | route hk' hat =>
    obtain rfl := Option.some.inj (hk'.symm.trans hk)
    refine ⟨_, pc_of_routing, ?_⟩
    simp only [actionRecords, routeRecords, hat]
    exact .plain (mark_purgeRecords s _) (Pc.told_committing _ _ _ _ _) (by intro h; cases h)

theorem tells_start (hs : Step L roster s (now, .await c) s') (hk : s.conns c = some k) :
    ∃ pc', s'.pc c = some pc' ∧ Tells k.pc pc' (s.own L T roster now (.await c) k cause) := by
  rw [own_acted rfl]
  cases hs with
  | take hk' hat htake =>
    obtain rfl := Option.some.inj (hk'.symm.trans hk)
    refine ⟨_, pc_of_update rfl, ?_⟩
    simp only [actionRecords, startRecords, hat, htake]
    exact .plain (by simp [mark_tracePayload]) rfl (by intro h; cases h)
  | park hk' hat htake =>
    obtain rfl := Option.some.inj (hk'.symm.trans hk)
    refine ⟨_, pc_of_update rfl, ?_⟩
    simp only [actionRecords, startRecords, hat, htake]
    exact .plain (by simp [Record.mark, Record.info, conclusions]) rfl (by intro h; cases h)

theorem tells_deregister (hs : Step L roster s (now, .deregister c) s') (hk : s.conns c = some k) :
    ∃ pc', s'.pc c = some pc' ∧ Tells k.pc pc' (s.own L T roster now (.deregister c) k cause) := by
  rw [own_acted rfl]
  cases hs with
  | deregister hk' hat hremove =>
    obtain rfl := Option.some.inj (hk'.symm.trans hk)
    refine ⟨_, by rw [Hub.pc, onChan_pc]; exact pc_of_update rfl, ?_⟩
    simp only [actionRecords, timeoutRecords, hat, hremove]
    exact .one (by simp [Record.mark, Record.info, conclusions]) rfl rfl
  | loseRace hk' hat hremove =>
    obtain rfl := Option.some.inj (hk'.symm.trans hk)
    refine ⟨_, pc_of_update rfl, ?_⟩
    simp only [actionRecords, timeoutRecords, hat, hremove]
    exact .nil rfl (by intro h; cases h)

theorem tells_requeue (hs : Step L roster s (now, .requeue c) s') (hk : s.conns c = some k) :
    ∃ pc', s'.pc c = some pc' ∧ Tells k.pc pc' (s.own L T roster now (.requeue c) k cause) := by
  rw [own_acted rfl]
  cases hs with
  | requeue hk' hat =>
    obtain rfl := Option.some.inj (hk'.symm.trans hk)
    refine ⟨_, pc_of_routing, ?_⟩
    simp only [actionRecords, routeRecords, hat]
    cases (routeEnvelope s.closed s.state _ .front).2 with
    | handedOff tx =>
      exact .conclusion (by simp [Record.mark, Record.warn, conclusions]) rfl rfl (mark_purgeRecords s _)
    | queued depth =>
      exact .conclusion (by simp [Record.mark, Record.warn, conclusions]) rfl rfl (mark_purgeRecords s _)

end Kinds

/-- Every step of a task but its death tells what becomes of the connection. -/
theorem tells_of_step (cause : String) (h : Reach L roster audit s)
    (hs : s.step L roster (now, a) = some s')
    (hk : s.conns a.conn = some k) (hdied : ∀ c, a ≠ .task c .died) :
    ∃ pc', s'.pc a.conn = some pc' ∧ Tells k.pc pc' (s.own L T roster now a k cause) := by
  have hrun := run_of_reach h hk
  have hknown := (known_of_run hrun).1
  have hsub : s.traceOf a.conn ⊆ s.trace := List.filter_subset_self _
  have hstep := step_cases hs
  cases a with
  | accept c peer =>
    cases hstep with
    | accept hnew =>
      rw [Action.conn, hnew] at hk
      cases hk
  | task c i =>
    simp only [step] at hs
    split_ifs at hs with hi
    obtain ⟨k₁, k', obs, hk₁, htask, rfl⟩ := taskStep_eq_some hs
    obtain rfl : k₁ = k := Option.some.inj (hk₁.symm.trans hk)
    refine ⟨k'.pc, pc_of_update rfl, ?_⟩
    rw [own, outcome, hk₁, Option.bind_some]
    exact tells_local hi (fun h => hdied c (h ▸ rfl)) hknown hsub htask
  | lockAudit c => exact tells_lockAudit hstep hk
  | append c os => exact tells_append hstep hk
  | route c => exact tells_route hstep hk
  | unlockAudit c =>
    rw [own_acted rfl]
    cases hstep with
    | unlockAudit hlock hk' hunlock =>
      obtain rfl := Option.some.inj (hk'.symm.trans hk)
      exact ⟨_, pc_of_update rfl, tells_unlock (paired_of_run hrun) hknown hsub hunlock⟩
  | await c => exact tells_start hstep hk
  | deregister c => exact tells_deregister hstep hk
  | requeue c => exact tells_requeue hstep hk

/-- A step without an outcome does not end the task. -/
theorem isGone_of_silent (hs : s.step L roster (now, a) = some s')
    (hout : s.outcome L (now, a) = none) {pc' : Pc} (hpc' : s'.pc a.conn = some pc') :
    pc'.isGone = false := by
  cases a with
  | task c i =>
    simp only [step] at hs
    split_ifs at hs with hi
    obtain ⟨k, k', obs, hk, htask, rfl⟩ := taskStep_eq_some hs
    obtain rfl : k'.pc = pc' := by
      rw [Hub.pc, put_conns, Action.conn, if_pos rfl, Option.map_some] at hpc'
      exact Option.some.inj hpc'
    rw [outcome, hk, Option.bind_some] at hout
    exact isGone_of_outcome_none htask hout
  | append c os =>
    cases step_cases hs with
    | @append _ _ _ k₁ _ _ event log r hlock hk₁ hevent hwrite hshared =>
      have hpc : s.pc c = some k₁.pc := by rw [Hub.pc, hk₁, Option.map_some]
      simp [outcome, hpc, hevent, hwrite] at hout
  | _ => cases hout

/-- What a step comes to is its own task's. -/
theorem conn_of_outcome {o : Outcome} (h : s.outcome L (now, a) = some o) : o.conn = a.conn := by
  cases a with
  | task c i =>
    obtain ⟨k, -, hk⟩ := Option.bind_eq_some_iff.1 h
    exact AgentHub.conn_of_outcome hk
  | append c os =>
    obtain ⟨event, -, hevent⟩ := Option.bind_eq_some_iff.1 h
    obtain ⟨p, -, rfl⟩ := Option.map_eq_some_iff.1 hevent
    rfl
  | _ => rw [← Option.some.inj h]; rfl

/-- Then it logs nothing. -/
theorem silent_of_gone (cause : String) (hs : s.step L roster (now, a) = some s')
    (hk : s.conns a.conn = some k)
    (hgone : k.pc.isGone = true) : s'.pc a.conn = some k.pc ∧
      ((s.outcome L (now, a)).toList.flatMap fun o => s.records L T roster s' now o cause) = [] := by
  obtain ⟨i, s₁, h₁, -, hi⟩ := (taskStep_of_step hs).resolve_left fun ⟨c, peer, ha⟩ => by
    obtain rfl : a = .accept c peer := ha
    cases step_cases hs with
    | accept hnew =>
      rw [Action.conn, hnew] at hk
      cases hk
  obtain ⟨k₁, k', obs, hk₁, hstep, -⟩ := taskStep_eq_some h₁
  obtain rfl : k₁ = k := Option.some.inj (hk₁.symm.trans hk)
  obtain ⟨rfl, -⟩ := Conn.peerClosed_of_gone hgone hstep
  generalize hc : a.conn = c at hk
  obtain rfl : a = .task c .peerClosed := by
    rcases hi with ha | hlocal
    · exact ha.trans (by rw [hc])
    · cases hlocal
  obtain ⟨k₂, k₃, obs, hk₂, hstep₂, rfl⟩ := taskStep_eq_some
      (show s.taskStep L roster now c .peerClosed = _ from hs)
  obtain rfl : k₂ = k₁ := Option.some.inj (hk₂.symm.trans hk)
  have hpc := (Conn.peerClosed_of_gone hgone hstep₂).2
  have hpc' : (s.put c k₃ obs).pc c = some k₂.pc := by
    rw [Hub.pc, put_conns, if_pos rfl, Option.map_some, hpc]
  refine ⟨hpc', ?_⟩
  have hclosing : closingRecords k₂ (some k₂.pc) = [] := by
    rw [closingRecords, Option.any_some]
    cases k₂.pc.returned <;> rfl
  simp only [outcome, hk, Option.bind_some, Conn.outcome, Option.toList_some, List.flatMap_singleton,
    records, Outcome.conn, Action.conn, hpc', hclosing, Conn.records, actionRecords, List.append_nil]

/-- A connection that is not there yet is accepted, and that is logged. -/
theorem accepted_of_step (cause : String) (hs : s.step L roster (now, a) = some s')
    (hnone : s.conns a.conn = none) :
    ∃ peer, s'.conns a.conn = some (.accepted now peer) ∧
      ((s.outcome L (now, a)).toList.flatMap fun o => s.records L T roster s' now o cause) =
        [.info "connection accepted" [("peer", .text peer)]] := by
  cases step_cases hs with
  | @accept _ c peer hnew =>
    refine ⟨peer, by rw [put_conns, Action.conn, if_pos rfl], ?_⟩
    simp only [outcome, Option.toList_some, List.flatMap_singleton, records, Outcome.conn, Action.conn,
      hnew]
  | task hk | lockAudit _ hk | append _ hk | route hk | unlockAudit _ hk | take hk | park hk | deregister hk
  | loseRace hk | requeue hk =>
    rw [Action.conn, hk] at hnone
    cases hnone

/-- The monitor reports a task that died, waiting for an envelope. -/
theorem died_of_step {c : ConnId} (cause : String) (hs : s.step L roster (now, .task c .died) = some s')
    (hk : s.conns c = some k) : k.pc.isGone = false ∧ k.pc.told = 0 ∧ s'.pc c = some .dead ∧
      ((s.outcome L (now, .task c .died)).toList.flatMap fun o => s.records L T roster s' now o cause) =
        [.error "connection task panicked or was cancelled"
          [("peer", .text k.peer), ("error", .text cause)]] := by
  obtain ⟨k₁, k', obs, hk₁, hstep, rfl⟩ := taskStep_eq_some
      (show s.taskStep L roster now c .died = _ from hs)
  obtain rfl : k₁ = k := Option.some.inj (hk₁.symm.trans hk)
  obtain ⟨hpc, rfl, rfl⟩ := mortal_of_died hstep
  have hpc' : (s.put c { k₁ with pc := .dead, chan := k₁.chan.dropRx } []).pc c = some .dead := by
    rw [Hub.pc, put_conns, if_pos rfl, Option.map_some]
  have hclosing : closingRecords k₁ (some .dead) = [] := by
    simp [closingRecords, Pc.returned]
  refine ⟨?_, ?_, hpc', ?_⟩
  · generalize k₁.pc = pc at hpc
    cases hpc <;> rfl
  · generalize k₁.pc = pc at hpc
    cases hpc <;> rfl
  · simp only [outcome, hk, Option.bind_some, Conn.outcome, Option.toList_some, List.flatMap_singleton,
      records, Outcome.conn, Action.conn, hpc', hclosing, Conn.records, actionRecords, List.append_nil]

/-- Any other task logs what it tells, and its close if it has returned. -/
theorem records_of_step {cause : String} (hs : s.step L roster (now, a) = some s')
    (hk : s.conns a.conn = some k) {pc' : Pc}
    (hpc' : s'.pc a.conn = some pc') (hgone : k.pc.isGone = false) :
    ((s.outcome L (now, a)).toList.flatMap fun o => s.records L T roster s' now o cause) =
      s.own L T roster now a k cause ++ if pc'.returned then
        [Record.info "connection closed" [("peer", .text k.peer), ("elapsed_ms", .elapsed)]] else [] := by
  cases hout : s.outcome L (now, a) with
  | none =>
    have hgone' := isGone_of_silent hs hout hpc'
    have hreturned : pc'.returned = false := by
      cases pc' <;> first | rfl | cases hgone'
    rw [own, hout, hreturned]
    rfl
  | some o =>
    have hreturned : k.pc.returned = false := by
      generalize k.pc = pc at hgone
      cases pc <;> first | rfl | cases hgone
    have hclosing : closingRecords k (some pc') = if pc'.returned then
        [Record.info "connection closed" [("peer", .text k.peer), ("elapsed_ms", .elapsed)]] else [] := by
      rw [closingRecords, hreturned, Option.any_some, Bool.not_false, Bool.true_and]
    simp only [own, hout, Option.toList_some, List.flatMap_singleton, records, conn_of_outcome hout, hk, hpc',
      hclosing]

/-- Peers stay. -/
theorem peer_of_step (hs : s.step L roster (now, a) = some s') {c : ConnId} {k' : Conn}
    (hk : s.conns c = some k) (hk' : s'.conns c = some k') : k'.peer = k.peer := by
  cases effect_of_step hs hk' with
  | frame hk₁ _ chan => rw [Option.some.inj (hk₁.symm.trans hk)]
  | accepted ha hnew => rw [hnew] at hk; cases hk
  | @step k₁ k₂ i obs hk₁ hstep htrace hi chan =>
    obtain rfl := Option.some.inj (hk₁.symm.trans hk)
    by_cases hlocal : i.isLocal = true
    · cases localStep_of_step hlocal hstep <;> rfl
    · cases sharedStep_of_step (Bool.eq_false_iff.2 hlocal) hstep <;> rfl

end Hub

/-! ## The journal -/

/-- The hub with all that its tasks had to log since startup, and whose task it was. -/
structure Journal where
  hub : Hub
  entries : List (ConnId × Record)

namespace Journal

variable (L : Libs) (T : LogTexts) (roster : Roster)

def init (audit : AuditLog) : Journal :=
  ⟨.init audit, []⟩

def step (s : Journal) (t : Turn) : Option Journal :=
  (s.hub.step L roster (t.now, t.action)).map fun hub =>
    ⟨hub, s.entries ++ (s.hub.outcome L (t.now, t.action)).toList.flatMap fun o =>
      (s.hub.records L T roster hub t.now o t.cause).map (Prod.mk o.conn)⟩

/-- The log, without the names. -/
def logged (s : Journal) : LoggedHub :=
  ⟨s.hub, s.entries.map Prod.snd⟩

/-- What the task of `c` had to log. -/
def of (s : Journal) (c : ConnId) : List Record :=
  (s.entries.filter fun e => e.1 = c).map Prod.snd

/-- What of it the layer of the service-log file admits. -/
def file (s : Journal) (c : ConnId) : List Record :=
  (s.of c).filter Record.inFile

variable {L T roster} {audit : AuditLog} {s s' : Journal} {t : Turn} {c : ConnId}

/-- The journal is the log with names. -/
theorem logged_step (s : Journal) (t : Turn) :
    (s.step L T roster t).map logged = s.logged.step L T roster t := by
  unfold step LoggedHub.step
  cases hs : s.hub.step L roster (t.now, t.action) with
  | none => simp only [logged, hs, Option.map_none]
  | some hub =>
    have hnames : ∀ o, ((s.hub.records L T roster hub t.now o t.cause).map (Prod.mk o.conn)).map Prod.snd =
        s.hub.records L T roster hub t.now o t.cause := by
      intro o
      rw [List.map_map]
      exact List.map_id _
    simp only [logged, hs, Option.map_some, List.map_append, List.map_flatMap, hnames]

theorem logged_reach (h : Machine.Reach (step L T roster) (init audit) s) :
    Machine.Reach (LoggedHub.step L T roster) (LoggedHub.init audit) s.logged := by
  refine Machine.Reach.invariant
    (P := fun s => Machine.Reach (LoggedHub.step L T roster) (LoggedHub.init audit) s.logged) h .init
    fun s t s' hP hs => .next hP trivial (a := t) ?_
  rw [← logged_step, hs, Option.map_some]

/-- Logging does not change what the hub does. -/
theorem hub_reach (h : Machine.Reach (step L T roster) (init audit) s) : Hub.Reach L roster audit s.hub :=
  LoggedHub.reach_hub (logged_reach h)

/-- What a step adds to the records of a connection. -/
theorem of_step (h : s.step L T roster t = some s') (c : ConnId) : s'.of c = s.of c ++
    if t.action.conn = c then (s.hub.outcome L (t.now, t.action)).toList.flatMap fun o =>
      s.hub.records L T roster s'.hub t.now o t.cause
    else [] := by
  obtain ⟨hub, -, rfl⟩ := Option.map_eq_some_iff.1 h
  unfold of
  dsimp only
  rw [List.filter_append, List.map_append]
  congr 1
  cases hout : s.hub.outcome L (t.now, t.action) with
  | none => simp
  | some o =>
    rw [Option.toList_some, List.flatMap_singleton, List.flatMap_singleton, ← Hub.conn_of_outcome hout]
    split_ifs with hc
    · rw [List.filter_eq_self.2 fun e he => ?_, List.map_map]
      · exact List.map_id _
      · obtain ⟨r, -, rfl⟩ := List.mem_map.1 he
        exact decide_eq_true hc
    · rw [List.filter_eq_nil_iff.2 fun e he => ?_, List.map_nil]
      obtain ⟨r, -, rfl⟩ := List.mem_map.1 he
      simpa using hc

theorem hub_of_step (h : s.step L T roster t = some s') :
    s.hub.step L roster (t.now, t.action) = some s'.hub := by
  obtain ⟨hub, hstep, rfl⟩ := Option.map_eq_some_iff.1 h
  exact hstep

end Journal

/-! ## From the first record to the last -/

/-- What there is to log of a connection whose task is at `pc`. -/
structure Told (peer : String) (pc : Pc) (rs : List Record) : Prop where
  /-- It begins with the record of its acceptance. -/
  opened : ∃ rest, rs = .info "connection accepted" [("peer", .text peer)] :: rest ∧
    ∀ r ∈ rest, r.mark ≠ .opens
  /-- None of it could be taken for the start of the process. -/
  started : ∀ r ∈ rs, r.mark ≠ .starts
  /-- While the task runs nothing closes it, and how it ended is said once, when it is known. -/
  running : pc.isGone = false → (∀ r ∈ rs, r.mark ≠ .closes) ∧ concluded rs = pc.told
  /-- When the task has returned the last record closes it, and how it ended has been said once. If it
  has not, then the client was told that it authenticated, and that line was lost. -/
  returned : pc = .finished → ∃ pre, rs = pre ++
      [.info "connection closed" [("peer", .text peer), ("elapsed_ms", .elapsed)]] ∧
    (∀ r ∈ pre, r.mark ≠ .closes) ∧ (concluded pre = 1 ∨
      concluded pre = 0 ∧ ∃ r, pre.getLast? = some r ∧ r.mark = .lineLost)
  /-- A task that died has the last word from its monitor. -/
  died : pc = .dead → ∃ pre cause, rs = pre ++
      [.error "connection task panicked or was cancelled" [("peer", .text peer), ("error", .text cause)]] ∧
    (∀ r ∈ pre, r.mark ≠ .closes) ∧ concluded pre = 0

namespace Told

variable {peer : String} {pc pc' : Pc} {rs news : List Record}

theorem accepted (now : DateTime) (peer : String) :
    Told peer (Conn.accepted now peer).pc [.info "connection accepted" [("peer", .text peer)]] where
  opened := ⟨[], rfl, List.forall_mem_nil _⟩
  started := List.forall_mem_singleton.2 (by simp [Record.mark, Record.info])
  running _ := by
    refine ⟨fun r hr => ?_, by simp [concluded, Record.mark, Record.info, Pc.told, Conn.accepted]⟩
    obtain rfl := List.mem_singleton.1 hr
    simp [Record.mark, Record.info]
  returned h := by cases h
  died h := by cases h

theorem ne_of_within {r : Record} (h : r.within = true) :
    r.mark ≠ .opens ∧ r.mark ≠ .closes ∧ r.mark ≠ .starts := by
  unfold Record.within at h
  simpa [and_assoc] using h

/-- More records, none of which opens the connection. -/
theorem opened_append (h : Told peer pc rs) (hnews : ∀ r ∈ news, r.mark ≠ .opens) :
    ∃ rest, rs ++ news = .info "connection accepted" [("peer", .text peer)] :: rest ∧
      ∀ r ∈ rest, r.mark ≠ .opens := by
  obtain ⟨rest, rfl, hrest⟩ := h.opened
  exact ⟨rest ++ news, rfl, List.forall_mem_append.2 ⟨hrest, hnews⟩⟩

/-- The task goes on. -/
theorem next (h : Told peer pc rs) (hpc : pc.isGone = false) (hnews : Tells pc pc' news)
    (hpc' : pc'.isGone = false) : Told peer pc' (rs ++ news) where
  opened := h.opened_append fun r hr => (ne_of_within (hnews.within r hr)).1
  started := List.forall_mem_append.2 ⟨h.started, fun r hr => (ne_of_within (hnews.within r hr)).2.2⟩
  running _ := by
    obtain ⟨hcloses, hcount⟩ := h.running hpc
    refine ⟨List.forall_mem_append.2
      ⟨hcloses, fun r hr => (ne_of_within (hnews.within r hr)).2.1⟩, ?_⟩
    rcases hnews.told with htold | ⟨rfl, -⟩
    · rw [concluded_append, hcount, Nat.add_comm, htold]
    · cases hpc'
  returned h := by rw [h] at hpc'; cases hpc'
  died h := by rw [h] at hpc'; cases hpc'

/-- The task returns. -/
theorem close (h : Told peer pc rs) (hpc : pc.isGone = false) (hnews : Tells pc .finished news) :
    Told peer .finished (rs ++ (news ++
      [.info "connection closed" [("peer", .text peer), ("elapsed_ms", .elapsed)]])) where
  opened := h.opened_append (List.forall_mem_append.2
    ⟨fun r hr => (ne_of_within (hnews.within r hr)).1,
      List.forall_mem_singleton.2 (by simp [Record.mark, Record.info])⟩)
  started := List.forall_mem_append.2 ⟨h.started, List.forall_mem_append.2
    ⟨fun r hr => (ne_of_within (hnews.within r hr)).2.2,
      List.forall_mem_singleton.2 (by simp [Record.mark, Record.info])⟩⟩
  running h := by cases h
  returned _ := by
    obtain ⟨hcloses, hcount⟩ := h.running hpc
    refine ⟨rs ++ news, (List.append_assoc _ _ _).symm,
      List.forall_mem_append.2 ⟨hcloses, fun r hr => (ne_of_within (hnews.within r hr)).2.1⟩, ?_⟩
    · rw [concluded_append, hcount]
      rcases hnews.told with htold | ⟨-, hzero, r, rfl, hr⟩
      · exact Or.inl (by rw [Nat.add_comm, htold]; rfl)
      · refine Or.inr ⟨?_, r, List.getLast?_concat, hr⟩
        rw [hzero, concluded_cons, if_neg (by rw [hr]; decide), concluded_nil]
  died h := by cases h

/-- The task dies. -/
theorem die (h : Told peer pc rs) (hpc : pc.isGone = false) (hzero : pc.told = 0) (cause : String) :
    Told peer .dead (rs ++ [.error "connection task panicked or was cancelled"
      [("peer", .text peer), ("error", .text cause)]]) where
  opened := h.opened_append (List.forall_mem_singleton.2 (by simp [Record.mark, Record.error]))
  started := List.forall_mem_append.2
    ⟨h.started, List.forall_mem_singleton.2 (by simp [Record.mark, Record.error])⟩
  running h := by cases h
  returned h := by cases h
  died _ := by
    obtain ⟨hcloses, hcount⟩ := h.running hpc
    exact ⟨rs, cause, rfl, hcloses, by rw [hcount, hzero]⟩

/-- The file layer admits all that is said of a connection. -/
theorem inFile (h : Told peer pc rs) : Told peer pc (rs.filter Record.inFile) := by
  have hconcluded : ∀ rs, concluded (rs.filter Record.inFile) = concluded rs := by
    intro rs
    rw [concluded, List.countP_filter]
    refine List.countP_congr fun r _ => ?_
    by_cases hr : r.mark = .concludes
    · simp [hr, inFile_of_mark (r := r) (by rw [hr]; decide)]
    · simp [hr]
  have hsub : ∀ {m : Mark} {rs : List Record}, (∀ r ∈ rs, r.mark ≠ m) →
      ∀ r ∈ rs.filter Record.inFile, r.mark ≠ m := fun hrs r hr => hrs r (List.mem_of_mem_filter hr)
  refine ⟨?_, hsub h.started, fun hpc => ?_, fun hpc => ?_, fun hpc => ?_⟩
  · obtain ⟨rest, rfl, hrest⟩ := h.opened
    exact ⟨rest.filter Record.inFile, List.filter_cons_of_pos rfl, hsub hrest⟩
  · obtain ⟨hcloses, hcount⟩ := h.running hpc
    exact ⟨hsub hcloses, (hconcluded rs).trans hcount⟩
  · obtain ⟨pre, rfl, hcloses, hend⟩ := h.returned hpc
    refine ⟨pre.filter Record.inFile, by rw [List.filter_append]; rfl, hsub hcloses, ?_⟩
    rw [hconcluded]
    rcases hend with hone | ⟨hzero, r, hlast, hr⟩
    · exact Or.inl hone
    · refine Or.inr ⟨hzero, r, ?_, hr⟩
      obtain ⟨front, rfl⟩ := List.getLast?_eq_some_iff.1 hlast
      rw [List.filter_append, List.filter_cons_of_pos (inFile_of_mark (by rw [hr]; decide)),
        List.filter_nil,
        List.getLast?_concat]
  · obtain ⟨pre, cause, rfl, hcloses, hzero⟩ := h.died hpc
    exact ⟨pre.filter Record.inFile, cause, by rw [List.filter_append]; rfl, hsub hcloses,
      (hconcluded pre).trans hzero⟩

end Told

namespace Journal

variable {L : Libs} {T : LogTexts} {roster : Roster} {audit : AuditLog} {s s' : Journal} {t : Turn} {c : ConnId}

/-- What there is to log of a connection that is there, and of one that is not. -/
def AllTold (s : Journal) : Prop :=
  ∀ c, match s.hub.conns c with
    | some k => Told k.peer k.pc (s.of c)
    | none => s.of c = []

theorem told_of_step (hreach : Machine.Reach (step L T roster) (init audit) s) (htold : s.AllTold)
    (h : s.step L T roster t = some s') : s'.AllTold := by
  intro c
  have hs := hub_of_step h
  have hc := htold c
  by_cases hactor : t.action.conn = c
  · subst hactor
    rw [of_step h, if_pos rfl]
    obtain ⟨now, a, cause⟩ := t
    dsimp only at hs hc ⊢
    cases hk : s.hub.conns a.conn with
    | none =>
      obtain ⟨peer, hk', hrecords⟩ := Hub.accepted_of_step cause hs hk
      rw [hk] at hc
      rw [hk', hrecords, show s.of a.conn = [] from hc, List.nil_append]
      exact .accepted now peer
    | some k =>
      rw [hk] at hc
      dsimp only at hc
      have hnext : ∀ {pc' : Pc} {news : List Record}, s'.hub.pc a.conn = some pc' →
          Told k.peer pc' (s.of a.conn ++ news) → match s'.hub.conns a.conn with
            | some k' => Told k'.peer k'.pc (s.of a.conn ++ news)
            | none => s.of a.conn ++ news = [] := by
        intro pc' news hpc' htold'
        obtain ⟨k', hk', rfl⟩ := Hub.pc_eq_some.1 hpc'
        rw [hk']
        dsimp only
        rwa [Hub.peer_of_step hs hk hk']
      cases hgone : k.pc.isGone with
      | true =>
        obtain ⟨hpc', hnil⟩ := Hub.silent_of_gone cause hs hk hgone
        rw [hnil]
        exact hnext hpc' (by rwa [List.append_nil])
      | false =>
        by_cases hdied : ∃ c, a = .task c .died
        · obtain ⟨c, rfl⟩ := hdied
          obtain ⟨-, hzero, hdead, hrecords⟩ := Hub.died_of_step cause hs hk
          rw [hrecords]
          exact hnext hdead (hc.die hgone hzero cause)
        · obtain ⟨pc', hpc', htells⟩ := Hub.tells_of_step cause (hub_reach hreach) hs hk
            fun c hc => hdied ⟨c, hc⟩
          rw [Hub.records_of_step hs hk hpc' hgone]
          refine hnext hpc' ?_
          split_ifs with hreturned
          · obtain rfl : pc' = .finished := by
              cases pc' <;> first | rfl | cases hreturned
            exact hc.close hgone htells
          · rw [List.append_nil]
            refine hc.next hgone htells (Bool.eq_false_iff.2 fun hgone' => ?_)
            cases pc' with
            | finished => exact hreturned rfl
            | dead => rw [htells.dead rfl] at hgone; cases hgone
            | _ => cases hgone'
  · have hpc : s'.hub.pc c = s.hub.pc c := Hub.pc_of_step (Hub.step_cases hs) (Ne.symm hactor)
    rw [of_step h, if_neg hactor, List.append_nil]
    cases hk' : s'.hub.conns c with
    | none =>
      have hnone : s.hub.conns c = none := by
        rw [Hub.pc, Hub.pc, hk', Option.map_none] at hpc
        exact Option.map_eq_none_iff.1 hpc.symm
      rwa [hnone] at hc
    | some k' =>
      rw [Hub.pc, Hub.pc, hk', Option.map_some] at hpc
      obtain ⟨k, hk, hkpc⟩ := Option.map_eq_some_iff.1 hpc.symm
      rw [hk] at hc
      dsimp only at hc ⊢
      rwa [Hub.peer_of_step hs hk hk', ← hkpc]

theorem allTold_of_reach (h : Machine.Reach (step L T roster) (init audit) s) : s.AllTold := by
  refine Machine.ReachVia.invariant (P := AllTold) h (fun c => rfl) fun s t s' hs hP _ hstep => ?_
  exact told_of_step hs hP hstep

/-- Of a connection that was never there nothing is logged. -/
theorem file_of_new (h : Machine.Reach (step L T roster) (init audit) s)
    (hnone : s.hub.conns c = none) : s.file c = [] := by
  have hc := allTold_of_reach h c
  rw [hnone] at hc
  rw [file, hc, List.filter_nil]

theorem told_file (h : Machine.Reach (step L T roster) (init audit) s) {k : Conn}
    (hk : s.hub.conns c = some k) : Told k.peer k.pc (s.file c) := by
  have hc := allTold_of_reach h c
  rw [hk] at hc
  exact hc.inFile

end Journal

end AgentHub
