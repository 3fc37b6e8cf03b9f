import AgentHub.AuditOrder
import AgentHub.EnvelopeWriting
import AgentHub.Lib.Paths
import AgentHub.Registry
import AgentHub.Session
import Mathlib.Data.Prod.Lex

/-!
# Progress

No task of the hub blocks another, and none runs for ever. Every step of a task brings it
closer to its end (`fuel_of_step`), whatever its peer sends and however its writes go. A task
that could not move on its own in a state the hub reaches is over, waits for its peer, or for
an envelope without a timeout, or else waits for the audit lock (`ready_or_waits`), and who
holds that can move.

So on every run that is fair to the steps of the hub itself each connection comes to rest, and
only its own peer, or an await without a timeout, keeps it open (`comes_to_rest`).
-/

namespace AgentHub

open Filter Function

/-! ## What is left to do -/

section Fuel

variable (L : Libs)

/-- The bytes of an envelope line. -/
def Libs.lineLength (x : Stamped) : ℕ :=
  match toJsonl L.serverLineToString (.envelope x.envelope) with
  | .ok jsonl => (asBytes jsonl).length
  | .error _ => 0

def AuditPhase.left : AuditPhase → ℕ
  | .waiting => 2
  | .locked => 1
  | .appended => 0

/-- The rounds a task may still spend at its stage. -/
def Pc.rounds : Pc → ℕ
  | .auditing phase _ _ => phase.left
  | .readHello line | .readVerb _ line => maxLineBytes - line.length
  | .writing _ x _ written => L.lineLength x - written
  | _ => 0

/-- The stages before a task, and its rounds at this one. -/
def Pc.fuel (pc : Pc) : ℕ ×ₗ ℕ :=
  toLex (20 - pc.stage, pc.rounds L)

end Fuel

section Task

variable {L : Libs} {roster : Roster} {now : DateTime} {c : ConnId} {k k' : Conn} {obs : List Obs}

theorem Pc.stage_le (pc : Pc) : pc.stage ≤ 20 := by
  unfold Pc.stage
  split
  · rename_i next
    cases next <;> simp [AuditNext.stage]
  all_goals omega

/-- The next stage. -/
theorem Pc.fuel_lt_of_stage {pc pc' : Pc} (h : pc.stage < pc'.stage) : pc'.fuel L < pc.fuel L := by
  have hle := pc'.stage_le
  refine Prod.Lex.toLex_lt_toLex.2 (Or.inl ?_)
  dsimp only
  omega

/-- Another round at the same stage. -/
theorem Pc.fuel_lt_of_rounds {pc pc' : Pc} (hstage : pc'.stage = pc.stage)
    (h : pc'.rounds L < pc.rounds L) : pc'.fuel L < pc.fuel L :=
  Prod.Lex.toLex_lt_toLex.2 (Or.inr ⟨by rw [hstage], h⟩)

/-- A round of reading that asks for more has read something, and stays within the bound. -/
theorem length_lt_of_more {line line' : List UInt8} {r : Except String (List UInt8)}
    (h : readLineStep line r = .more line') :
    line.length < line'.length ∧ line'.length ≤ maxLineBytes := by
  obtain ⟨buf, rfl, rfl, hnl⟩ := readLineStep_eq_more h
  have hne : buf ≠ [] := by
    rintro rfl
    cases line <;> simp [readLineStep] at h
  have hfind : buf.findFinIdx? (· = newline) = none :=
    List.findFinIdx?_eq_none_iff.2 fun b hb => by simpa using ne_of_mem_of_not_mem hb hnl
  simp only [readLineStep, if_neg hne, hfind] at h
  split_ifs at h with hlong
  refine ⟨?_, Nat.le_of_not_lt hlong⟩
  have := List.length_pos_iff.2 hne
  rw [List.length_append]
  omega

theorem stage_afterWrite (name source : String) (x : Stamped) (result : EnvelopeWrite) :
    8 < (Conn.afterWrite now c k name x source result).1.stage := by
  cases result with
  | written => exact Nat.lt_add_of_pos_right Nat.two_pos
  | failedClean => exact Nat.lt_succ_self 8
  | failedPartial n =>
    dsimp only [Conn.afterWrite]
    split_ifs <;> simp [Pc.stage]

/-- A write of an envelope line either goes on, with fewer bytes left, or ends. -/
theorem fuel_of_write {name source : String} {x : Stamped} {written : ℕ} {r : WriteResult}
    (hpc : k.pc = .writing name x source written)
    (h : k.write L now c name x source written r = some (k', obs)) : k'.pc.fuel L < k.pc.fuel L := by
  unfold Conn.write at h
  cases hline : toJsonl L.serverLineToString (.envelope x.envelope) with
  | error e => simp [hline] at h
  | ok jsonl =>
    simp only [hline] at h
    cases hround : writeRound (asBytes jsonl).length written r with
    | none => simp [hround] at h
    | some round =>
      rw [hround] at h
      have hlength : L.lineLength x = (asBytes jsonl).length := by
        unfold Libs.lineLength
        rw [hline]
      rcases writeRound_cases hround with ⟨n, hn, rfl, hle, rfl⟩ | ⟨-, rfl⟩
      · by_cases hlt : written + n < (asBytes jsonl).length
        · simp only [if_pos hlt] at h
          obtain ⟨rfl, -⟩ := Prod.mk.inj (Option.some.inj h)
          refine Pc.fuel_lt_of_rounds (by rw [hpc]; rfl) ?_
          rw [hpc]
          simp only [Pc.rounds, hlength]
          omega
        · simp only [if_neg hlt] at h
          obtain ⟨rfl, -⟩ := Prod.mk.inj (Option.some.inj h)
          exact Pc.fuel_lt_of_stage (by rw [hpc]; exact stage_afterWrite _ _ _ _)
      · obtain ⟨rfl, -⟩ := Prod.mk.inj (Option.some.inj h)
        exact Pc.fuel_lt_of_stage (by rw [hpc]; exact stage_afterWrite _ _ _ _)

/-- A step of a task on its own brings it closer to its end, or leaves it where it is. -/
theorem fuel_of_local {i : Input} (hi : i.isLocal = true)
    (h : k.step L roster now c i = some (k', obs)) :
    k'.pc = k.pc ∨ k'.pc.fuel L < k.pc.fuel L := by
  by_cases hwriting : ∃ name x source written, k.pc = .writing name x source written
  · obtain ⟨name, x, source, written, hpc⟩ := hwriting
    cases i with
    | wrote r =>
      simp only [Conn.step, hpc] at h
      exact Or.inr (fuel_of_write hpc h)
    | unserializable =>
      cases written with
      | zero =>
        simp only [Conn.step, hpc] at h
        split at h
        · obtain ⟨rfl, -⟩ := Prod.mk.inj (Option.some.inj h)
          exact Or.inr (Pc.fuel_lt_of_stage (by rw [hpc]; simp [Pc.stage]))
        · cases h
      | succ n => simp [Conn.step, hpc] at h
    | peerClosed =>
      obtain ⟨rfl, -⟩ := Prod.mk.inj (Option.some.inj h)
      exact Or.inl rfl
    | recv | refill => simp [Conn.step, Conn.readRound, hpc] at h
    | replied | polled | timer | bounced | died => simp [Conn.step, hpc] at h
    | _ => cases hi
  · cases localStep_of_step hi h with
    | helloMore hpc hfill hline | verbMore hpc hfill hline =>
      obtain ⟨hlt, hle⟩ := length_lt_of_more hline
      refine Or.inr (Pc.fuel_lt_of_rounds (by rw [hpc]; rfl) ?_)
      rw [hpc]
      simp only [Pc.rounds]
      omega
    | helloRefused hpc hfill hrefuse | verbRefused hpc hfill hrefuse =>
      refine Or.inr (Pc.fuel_lt_of_stage ?_)
      rw [hpc]
      cases hrefuse <;> simp [Pc.stage, AuditNext.stage]
    | wroteMore hpc | wroteAll hpc | failedClean hpc | failedPartial hpc | bounceLost hpc =>
      exact absurd ⟨_, _, _, _, hpc⟩ hwriting
    | handed hwaits | channelLost hwaits =>
      refine Or.inr (Pc.fuel_lt_of_stage ?_)
      generalize k.pc = pc at hwaits
      cases hwaits <;> simp [Pc.stage]
    | died hmortal =>
      refine Or.inr (Pc.fuel_lt_of_stage ?_)
      generalize k.pc = pc at hmortal
      cases hmortal <;> simp [Pc.stage]
    | peerClosed => exact Or.inl rfl
    | _ hpc => exact Or.inr (Pc.fuel_lt_of_stage (by rw [hpc]; simp [Pc.stage]))

/-- So does a step under a lock. -/
theorem fuel_of_sharedStep {i : Input} (h : k.SharedStep now c i k' obs) :
    k'.pc.fuel L < k.pc.fuel L := by
  cases h with
  | lockedAudit hpc | logged hpc | unlogged hpc =>
    exact Pc.fuel_lt_of_rounds (by rw [hpc]; rfl) (by rw [hpc]; exact Nat.lt_succ_self _)
  | unlocked hpc =>
    refine Pc.fuel_lt_of_stage ?_
    generalize k.pc = pc at hpc
    unfold Conn.afterUnlock at hpc
    split at hpc
    · rename_i next
      cases next <;> cases hpc <;> simp [Pc.stage, AuditNext.stage]
    all_goals cases hpc
    all_goals simp [Pc.stage]
  | _ hpc => exact Pc.fuel_lt_of_stage (by rw [hpc]; simp [Pc.stage])

/-- A task writes on at a line that serializes. -/
theorem serializes_of_local {i : Input} (hi : i.isLocal = true)
    (h : k.step L roster now c i = some (k', obs)) {name source : String} {x : Stamped} {written : ℕ}
    (hpc : k'.pc = .writing name x source written) (hpos : 0 < written) (hmoves : k'.pc ≠ k.pc) :
    ∃ jsonl, toJsonl L.serverLineToString (.envelope x.envelope) = .ok jsonl := by
  by_cases hwriting : ∃ name x source written, k.pc = .writing name x source written
  · obtain ⟨name', x', source', written', hpc'⟩ := hwriting
    cases i with
    | wrote r =>
      simp only [Conn.step, hpc', Conn.write] at h
      split at h
      · cases h
      rename_i jsonl hline
      split at h
      · cases h
      · obtain ⟨rfl, -⟩ := Prod.mk.inj (Option.some.inj h)
        obtain ⟨-, rfl, -, -⟩ := Pc.writing.inj hpc
        exact ⟨jsonl, hline⟩
      · obtain ⟨rfl, -⟩ := Prod.mk.inj (Option.some.inj h)
        exfalso
        dsimp only [Conn.afterWrite] at hpc
        split at hpc
        · cases hpc
        · cases hpc
        · dsimp only at hpc
          split_ifs at hpc
    | unserializable =>
      cases written' with
      | zero =>
        simp only [Conn.step, hpc'] at h
        split at h
        · obtain ⟨rfl, -⟩ := Prod.mk.inj (Option.some.inj h)
          cases hpc
        · cases h
      | succ n => simp [Conn.step, hpc'] at h
    | peerClosed =>
      obtain ⟨rfl, -⟩ := Prod.mk.inj (Option.some.inj h)
      exact absurd rfl hmoves
    | recv | refill => simp [Conn.step, Conn.readRound, hpc'] at h
    | replied | polled | timer | bounced | died => simp [Conn.step, hpc'] at h
    | _ => cases hi
  · cases localStep_of_step hi h with
    | helloRefused _ _ hrefuse | verbRefused _ _ hrefuse =>
      dsimp only at hpc
      subst hpc
      cases hrefuse
    | wroteMore hpc' | wroteAll hpc' | failedClean hpc' | failedPartial hpc' | bounceLost hpc' =>
      exact absurd ⟨_, _, _, _, hpc'⟩ hwriting
    | handed =>
      obtain ⟨-, -, -, rfl⟩ := Pc.writing.inj hpc
      exact absurd hpos (lt_irrefl 0)
    | peerClosed => exact absurd rfl hmoves
    | _ => cases hpc

end Task

/-! ## Where a task comes to stand -/

/-- The task has read all that its socket gave and waits for more, or it writes to its socket. -/
def Conn.atSocket (k : Conn) : Bool :=
  match k.pc with
  | .readHello _ | .readVerb _ _ => k.buf.isEmpty
  | .replying _ _ | .writing _ _ _ _ => true
  | _ => false

/-- The task waits for an envelope without a timeout, and none is there. -/
def Conn.unserved (k : Conn) : Bool :=
  match k.pc with
  | .parked _ _ none => k.chan.value.isNone && k.chan.txAlive
  | _ => false

/-- The blocking job of the task waits for the audit lock. -/
def Pc.wantsAudit : Pc → Bool
  | .auditing .waiting _ _ | .committing .waiting _ _ => true
  | _ => false

/-- The inputs in which no socket has a part. -/
def Input.internal : Input → Bool
  | .refill | .polled | .timer | .bounced _ => true
  | _ => false

/-- The steps of the hub itself. -/
def Action.internal : Action → Bool
  | .accept _ _ => false
  | .task _ i => i.internal
  | _ => true

/-- The steps of the hub and those in which a peer brings its task on. -/
def Action.served : Action → Bool
  | .accept _ _ | .task _ .died | .task _ .peerClosed => false
  | _ => true

theorem Action.served_of_internal {a : Action} (h : a.internal = true) : a.served = true := by
  cases a with
  | accept => cases h
  | task c i => cases i <;> first | rfl | cases h
  | _ => rfl

namespace Hub

variable {L : Libs} {roster : Roster} {audit : AuditLog} {s s' : Hub} {c : ConnId} {k : Conn}

/-! ## What a waiting task may rely on -/

/-- Who holds the audit lock is at work under it. -/
def LockHeld (s : Hub) : Prop :=
  ∀ c, s.auditLock = some c → ∃ pc, s.pc c = some pc ∧ pc.holdsAudit = true

theorem locks_of_holdsAudit {pc : Pc} (h : pc.holdsAudit = true) : pc.locks = true := by
  unfold Pc.holdsAudit at h
  split at h <;> first | rfl | cases h

theorem LockHeld.step {a : DateTime × Action} (h : LockHeld s) (hstep : Step L roster s a s') :
    LockHeld s' := by
  intro d hd
  have hother : s.auditLock = some d → d ≠ a.2.conn → ∃ pc, s'.pc d = some pc ∧ pc.holdsAudit = true := by
    intro hlock hne
    rw [pc_of_step hstep hne]
    exact h d hlock
  have hidle : ∀ {k : Conn}, s.conns d = some k → s.auditLock = some d → k.pc.holdsAudit = true := by
    intro k hk hlock
    obtain ⟨pc, hpc, hholds⟩ := h d hlock
    rw [Hub.pc, hk] at hpc
    rwa [Option.some.inj hpc]
  by_cases hactor : d = a.2.conn
  · cases hstep with
    | @accept now c peer hnew =>
      obtain rfl : d = c := hactor
      obtain ⟨pc, hpc, -⟩ := h d hd
      simp [Hub.pc, hnew] at hpc
    | @task now c i k k' obs hk hlocal =>
      obtain rfl : d = c := hactor
      refine ⟨k'.pc, by simp [Hub.pc, put_conns], ?_⟩
      have hholds := hidle hk hd
      rwa [(peerClosed_of_localStep hlocal (locks_of_holdsAudit hholds)).1]
    | @lockAudit now c k k' obs hfree hk hshared =>
      obtain rfl : d = c := hactor
      refine ⟨k'.pc, by simp [Hub.pc, put_conns], ?_⟩
      cases hshared <;> rfl
    | @append now c os k k' obs event log r hlock hk hevent hwrite hshared =>
      obtain rfl : d = c := hactor
      refine ⟨k'.pc, by simp [Hub.pc, put_conns], ?_⟩
      generalize r.map _ = result at hshared
      cases hshared <;> rfl
    | @route now c k x role e hk hpc =>
      obtain rfl : d = c := hactor
      refine ⟨.committing (.routed x) role e, ?_, rfl⟩
      rw [Hub.pc, routing_conns, if_pos rfl, Option.map_some, Option.map_some]
      split_ifs <;> rfl
    | unlockAudit => cases hd
    | take hk hpc | park hk hpc | loseRace hk hpc =>
      subst hactor
      exact absurd (hidle hk hd) (by rw [hpc]; exact Bool.false_ne_true)
    | deregister hk hpc =>
      subst hactor
      rw [onChan_auditLock] at hd
      exact absurd (hidle hk hd) (by rw [hpc]; exact Bool.false_ne_true)
    | requeue hk hpc =>
      subst hactor
      rw [routing_auditLock] at hd
      exact absurd (hidle hk hd) (by rw [hpc]; exact Bool.false_ne_true)
  · refine hother ?_ hactor
    cases hstep with
    | lockAudit => exact absurd (Option.some.inj hd).symm hactor
    | unlockAudit => cases hd
    | route | requeue => rwa [routing_auditLock] at hd
    | deregister => rwa [onChan_auditLock] at hd
    | accept | task | append | take | park | loseRace => exact hd

theorem lockHeld_of_reach (h : Reach L roster audit s) : LockHeld s :=
  Machine.Reach.invariant h (fun c hc => by cases hc) fun _ _ _ h hs => h.step (step_cases hs)

/-- The await that lost the race of its timer with a send has its channel used up. -/
def RaceDecided (s : Hub) : Prop :=
  ∀ c k name, s.conns c = some k → k.pc = .lostRace name → k.chan.txAlive = false

theorem not_lostRace_of_sharedStep {now : DateTime} {i : Input} {k' : Conn} {obs : List Obs}
    (h : k.SharedStep now c i k' obs) (hi : i ≠ .deregistered false) (name : String) :
    k'.pc ≠ .lostRace name := by
  cases h with
  | raceLost => exact absurd rfl hi
  | unlocked hpc =>
    unfold Conn.afterUnlock at hpc
    split at hpc
    · rename_i next _
      cases next <;> cases hpc <;> simp
    all_goals cases hpc
    all_goals simp
  | _ => simp

/-- A task that stands after the lost race stood there before, or has just lost it. -/
theorem lostRace_of_localStep {now : DateTime} {k' : Conn} {obs : List Obs}
    (h : k.LocalStep L roster now c k' obs) {name : String} (hpc : k'.pc = .lostRace name) :
    k.pc = .lostRace name ∧ k'.chan = k.chan := by
  cases h with
  | helloRefused _ _ hrefuse | verbRefused _ _ hrefuse =>
    dsimp only at hpc
    subst hpc
    cases hrefuse
  | peerClosed => exact ⟨hpc, rfl⟩
  | _ => cases hpc

theorem RaceDecided.step {a : DateTime × Action} (h : RaceDecided s) (hreg : Registry s)
    (halone : AllAlone L roster s) (hstep : Step L roster s a s') : RaceDecided s' := by
  have hput : ∀ {c : ConnId} {k' : Conn} {obs : List Obs},
      (∀ name, k'.pc = .lostRace name → k'.chan.txAlive = false) → RaceDecided (s.put c k' obs) := by
    intro c k' obs hk' d kd name hd hpc
    rw [put_conns] at hd
    split_ifs at hd with hdc
    · obtain rfl := Option.some.inj hd
      exact hk' name hpc
    · exact h d kd name hd hpc
  have hrouting : ∀ {c : ConnId} {k : Conn} {pc : Pc} {x : Stamped} {p : QueuePlacement},
      (∀ name, pc ≠ .lostRace name) → RaceDecided (s.routing c k pc x p) := by
    intro c k pc x p hne d kd name hd hpc
    rw [routing_conns, Option.map_eq_some_iff] at hd
    obtain ⟨k₀, hk₀, rfl⟩ := hd
    split_ifs at hpc ⊢ with hout
    · rfl
    · split_ifs at hk₀ with hdc
      · obtain rfl := Option.some.inj hk₀
        exact absurd hpc (hne name)
      · exact h d k₀ name hk₀ hpc
  cases hstep with
  | accept hnew => exact hput fun name hpc => by cases hpc
  | task hk hlocal =>
    refine hput fun name hpc => ?_
    obtain ⟨hbefore, hchan⟩ := lostRace_of_localStep hlocal hpc
    rw [hchan]
    exact h _ _ name hk hbefore
  | @lockAudit now c k k' obs hfree hk hshared =>
    exact @hput c k' obs fun name hpc => absurd hpc (not_lostRace_of_sharedStep hshared (by simp) name)
  | @append now c os k k' obs event log r hlock hk hevent hwrite hshared =>
    exact @hput c k' obs fun name hpc => absurd hpc (not_lostRace_of_sharedStep hshared (by simp) name)
  | route hk hpc => exact hrouting (by simp)
  | requeue hk hpc => exact hrouting (by simp)
  | @unlockAudit now c k pc hlock hk hpc =>
    have hshared : k.SharedStep now c .unlocked { k with pc } [] := .unlocked hpc
    exact @hput c _ [] fun name hlost =>
      absurd hlost (not_lostRace_of_sharedStep hshared (by simp) name)
  | @take now c k name filter timeoutSecs x state hk hpc htake =>
    exact @hput c _ [.took c x] fun name hlost => by cases hlost
  | @park now c k name filter timeoutSecs hk hpc htake =>
    exact @hput c _ [.parked c name s.state.nextWaiterId] fun name hlost => by cases hlost
  | @deregister now c k name waiterId w state hk hpc hremove =>
    intro d kd name hd hlost
    rw [onChan_conns, Option.map_eq_some_iff] at hd
    obtain ⟨k₀, hk₀, rfl⟩ := hd
    have hbefore : RaceDecided (s.put c { k with pc := .replying .timeout .finish, chan := k.chan.dropRx }
      [.deregistered c]) := hput fun name hlost => by cases hlost
    split_ifs at hlost ⊢ with hdtx
    · rfl
    · exact hbefore d k₀ name hk₀ hlost
  | @loseRace now c k name waiterId hk hpc hremove =>
    refine hput fun name' hlost => ?_
    -- an open channel would belong to a registered waiter with the id of this await
    by_contra hopen
    obtain ⟨w, hw, rfl⟩ := hreg.of_open c k name hk (by rw [hpc]; rfl) (by simpa using hopen)
    obtain ⟨kw, hkw⟩ := hreg.registered name w hw
    have hknown := (known_of_run (halone.run hk)).1
    rw [hpc] at hknown
    exact removeWaiter_eq_none hremove w hw
      (halone.parked_unique hkw.parked (mem_traceOf.1 hknown.2).1).2

theorem raceDecided_of_reach (h : Reach L roster audit s) : RaceDecided s :=
  Machine.ReachVia.invariant h (fun c k name hk => by cases hk) fun _ _ _ hr hP _ hs =>
    hP.step (registry_of_reach hr) (allAlone_of_reach hr) (step_cases hs)

/-! ## Who can move -/

/-- The task of `c` could take a step of the kind `Q`. -/
def Ready (L : Libs) (roster : Roster) (Q : Action → Bool) (c : ConnId) (s : Hub) : Prop :=
  ∃ now a, a.conn = c ∧ Q a = true ∧ (s.step L roster (now, a)).isSome = true

theorem Ready.mono {Q Q' : Action → Bool} (h : Ready L roster Q c s)
    (hQ : ∀ a, Q a = true → Q' a = true) : Ready L roster Q' c s := by
  obtain ⟨now, a, hconn, ha, hsome⟩ := h
  exact ⟨now, a, hconn, hQ a ha, hsome⟩

/-- A step that is enabled. -/
theorem ready_of_step {Q : Action → Bool} {now : DateTime} (a : Action) (ha : Q a = true)
    (h : s.step L roster (now, a) = some s') : Ready L roster Q a.conn s :=
  ⟨now, a, rfl, ha, by rw [h]; rfl⟩

/-- A task that can take an input on its own. -/
theorem ready_of_input {i : Input} {k' : Conn} {obs : List Obs} {Q : Action → Bool}
    (hk : s.conns c = some k) (hi : i.isLocal = true) (hQ : Q (.task c i) = true)
    (h : k.step L roster 0 c i = some (k', obs)) : Ready L roster Q c s :=
  ready_of_step (.task c i) hQ (step_task hk hi h)

/-- A write to the audit log comes to an end. -/
theorem exists_write (toString : AuditEvent → Except String String) (log : AuditLog)
    (event : AuditEvent) : ∃ os log' r, log.write toString event os = some (log', r) := by
  cases hline : toString event with
  | error source => exact ⟨[], log, .error (.serialize source), by simp only [AuditLog.write, hline]⟩
  | ok line => exact ⟨_, _, _, log.write_once hline⟩

/-- Who holds the audit lock can move. -/
theorem move_of_lock (h : Reach L roster audit s) (hlock : s.auditLock = some c) :
    ∃ now a s', a.conn = c ∧ a.internal = true ∧ s.step L roster (now, a) = some s' ∧
      s'.pc c ≠ s.pc c := by
  obtain ⟨pc, hpc, hholds⟩ := lockHeld_of_reach h c hlock
  obtain ⟨k, hk, rfl⟩ := pc_eq_some.1 hpc
  rw [hpc]
  have happend : ∀ event, pendingEvent 0 k.pc = some event →
      (∀ r, ∃ k' obs, k.step L roster 0 c (.appended r) = some (k', obs) ∧ k'.pc ≠ k.pc) →
      ∃ now a s', a.conn = c ∧ a.internal = true ∧ s.step L roster (now, a) = some s' ∧
        s'.pc c ≠ some k.pc := by
    intro event hevent hstep
    obtain ⟨os, log, r, hwrite⟩ := exists_write L.auditEventToString s.audit event
    obtain ⟨k', obs, hk', hne⟩ := hstep (r.map fun _ => (acceptedOf s.trace).length)
    exact ⟨0, .append c os, _, rfl, rfl, step_append hlock hk hevent hwrite hk',
      by simpa [Hub.pc, put_conns] using hne⟩
  have hunlock : ∀ pc, Conn.afterUnlock k.pc = some pc → pc ≠ k.pc →
      ∃ now a s', a.conn = c ∧ a.internal = true ∧ s.step L roster (now, a) = some s' ∧
        s'.pc c ≠ some k.pc := by
    intro pc hnext hne
    have hstep : k.step L roster 0 c .unlocked = some ({ k with pc }, []) := by
      rw [Conn.step, hnext, Option.map_some]
    exact ⟨0, .unlockAudit c, _, rfl, rfl, step_unlockAudit hlock hk hstep,
      by simpa [Hub.pc, put_conns] using hne⟩
  cases hat : k.pc with
  | auditing phase event next =>
    rw [hat] at happend hunlock
    cases phase with
    | waiting => rw [hat] at hholds; cases hholds
    | locked =>
      refine happend event rfl fun r => ?_
      cases r <;> exact ⟨_, _, by simp only [Conn.step, hat]; rfl, by simp⟩
    | appended => cases next <;> exact hunlock _ rfl (by simp)
  | committing phase role e =>
    rw [hat] at happend hunlock
    cases phase with
    | waiting => rw [hat] at hholds; cases hholds
    | locked =>
      refine happend (.accepted 0 e) rfl fun r => ?_
      cases r <;> exact ⟨_, _, by simp only [Conn.step, hat]; rfl, by simp⟩
    | appended x =>
      refine ⟨0, .route c, _, rfl, rfl, @step_route L roster s 0 c k x role e hk hat, ?_⟩
      rw [Hub.pc, @routing_pc s c c k [] x (.committing (.routed x) role e) .back]
      simp [put_conns]
    | routed x | failed cause => cases role <;> exact hunlock _ rfl (by simp)
  | _ => rw [hat] at hholds; cases hholds

theorem ready_of_lock (h : Reach L roster audit s) (hlock : s.auditLock = some c) :
    Ready L roster Action.internal c s := by
  obtain ⟨now, a, s', hconn, hinternal, hstep, -⟩ := move_of_lock h hlock
  exact ⟨now, a, hconn, hinternal, by rw [hstep]; rfl⟩

/-- What waits for the audit lock can move once it is free. -/
theorem ready_of_free (hfree : s.auditLock = none) (hk : s.conns c = some k)
    (hwants : k.pc.wantsAudit = true) : Ready L roster Action.internal c s := by
  have hlock : ∀ k', k.step L roster 0 c .locked = some (k', []) → Ready L roster Action.internal c s :=
    fun k' hstep => ready_of_step (.lockAudit c) rfl (step_lockAudit hfree hk hstep)
  cases hat : k.pc with
  | auditing phase event next =>
    cases phase with
    | waiting => exact hlock _ (by rw [Conn.step, hat])
    | _ => rw [hat] at hwants; cases hwants
  | committing phase role e =>
    cases phase with
    | waiting => exact hlock _ (by rw [Conn.step, hat])
    | _ => rw [hat] at hwants; cases hwants
  | _ => rw [hat] at hwants; cases hwants

/-- Only its peer, or an envelope for it, can bring the task of `c` on, if it is not over. -/
def Rests (c : ConnId) (s : Hub) : Prop :=
  ∀ k, s.conns c = some k → k.pc.isGone = true ∨ k.atSocket = true ∨ k.unserved = true

/-- The task of `c` waits for the audit lock. -/
def WantsAudit (c : ConnId) (s : Hub) : Prop :=
  ∃ k, s.conns c = some k ∧ k.pc.wantsAudit = true

/-- A task reads what its buffer still holds. -/
theorem ready_of_buffer (hk : s.conns c = some k) (hbuf : k.buf ≠ [])
    (hpc : (∃ line, k.pc = .readHello line) ∨ ∃ name line, k.pc = .readVerb name line) :
    Ready L roster Action.internal c s := by
  obtain ⟨⟨k', obs⟩, hstep⟩ : ∃ p, k.step L roster 0 c .refill = some p := by
    simp only [Conn.step, if_neg hbuf, Conn.readRound]
    rcases hpc with ⟨line, hpc⟩ | ⟨name, line, hpc⟩ <;>
      · rw [hpc]
        dsimp only
        cases readLineStep line (.ok k.buf) <;> exact ⟨_, rfl⟩
  exact ready_of_input (Q := Action.internal) hk rfl rfl hstep

/-- A task reads its handoff channel when something is there, or its sender is gone. -/
theorem ready_of_channel (hk : s.conns c = some k) {name : String} (hwaits : k.pc.Waits name)
    (hready : k.chan.value ≠ none ∨ k.chan.txAlive = false) : Ready L roster Action.internal c s := by
  obtain ⟨⟨k', obs⟩, hstep⟩ : ∃ p, k.step L roster 0 c .polled = some p := by
    generalize hpc : k.pc = pc at hwaits
    cases hvalue : k.chan.value with
    | some x => cases hwaits <;> exact ⟨_, by simp only [Conn.step, hpc, hvalue]; rfl⟩
    | none =>
      have htx := hready.resolve_left (by simp [hvalue])
      cases hwaits <;> exact ⟨_, by simp [Conn.step, hpc, hvalue, htx]; rfl⟩
  exact ready_of_input (Q := Action.internal) hk rfl rfl hstep

/-- In every state the hub reaches a task is at rest, can move, or waits for the audit lock. -/
theorem rests_or_ready (h : Reach L roster audit s) (c : ConnId) :
    Rests c s ∨ Ready L roster Action.internal c s ∨ WantsAudit c s := by
  cases hk : s.conns c with
  | none => exact Or.inl fun k hk' => by rw [hk] at hk'; cases hk'
  | some k =>
    have hrests : k.pc.isGone = true ∨ k.atSocket = true ∨ k.unserved = true → Rests c s := by
      intro hk' k₁ hk₁
      rw [hk] at hk₁
      rwa [← Option.some.inj hk₁]
    by_cases hlock : s.auditLock = some c
    · exact Or.inr (Or.inl (ready_of_lock h hlock))
    have hnot : k.pc.holdsAudit = false := by
      by_contra hholds
      exact hlock ((auditOrder_of_reach h).holder c k hk (by simpa using hholds))
    cases hpc : k.pc with
    | auditing phase event next =>
      cases phase with
      | waiting => exact Or.inr (Or.inr ⟨k, hk, by rw [hpc]; rfl⟩)
      | _ => rw [hpc] at hnot; cases hnot
    | committing phase role e =>
      cases phase with
      | waiting => exact Or.inr (Or.inr ⟨k, hk, by rw [hpc]; rfl⟩)
      | _ => rw [hpc] at hnot; cases hnot
    | readHello line =>
      by_cases hbuf : k.buf = []
      · exact Or.inl (hrests (Or.inr (Or.inl (by simp [Conn.atSocket, hpc, hbuf]))))
      · exact Or.inr (Or.inl (ready_of_buffer hk hbuf (Or.inl ⟨_, hpc⟩)))
    | readVerb name line =>
      by_cases hbuf : k.buf = []
      · exact Or.inl (hrests (Or.inr (Or.inl (by simp [Conn.atSocket, hpc, hbuf]))))
      · exact Or.inr (Or.inl (ready_of_buffer hk hbuf (Or.inr ⟨_, _, hpc⟩)))
    | replying line next => exact Or.inl (hrests (Or.inr (Or.inl (by simp [Conn.atSocket, hpc]))))
    | writing name x source written =>
      exact Or.inl (hrests (Or.inr (Or.inl (by simp [Conn.atSocket, hpc]))))
    | finished | dead => exact Or.inl (hrests (Or.inl (by rw [hpc]; rfl)))
    | awaiting name filter timeoutSecs =>
      refine Or.inr (Or.inl ?_)
      cases htake : takeQueued s.state name filter with
      | none => exact ready_of_step (.await c) rfl (@step_park L roster s 0 c k _ _ _ hk hpc htake)
      | some p => exact ⟨0, .await c, rfl, rfl, by simp [step, Hub.pc, hk, hpc, htake, taskStep, Conn.step]⟩
    | parked name id timeoutSecs =>
      by_cases hready : k.chan.value ≠ none ∨ k.chan.txAlive = false
      · exact Or.inr (Or.inl (ready_of_channel hk (by rw [hpc]; exact .parked id timeoutSecs) hready))
      · cases timeoutSecs with
        | some secs =>
          exact Or.inr (Or.inl (ready_of_input (i := .timer) (Q := Action.internal) hk rfl rfl
            (by simp only [Conn.step, hpc]; rfl)))
        | none => exact Or.inl (hrests (Or.inr (Or.inr (by simpa [Conn.unserved, hpc] using hready))))
    | timerFired name id =>
      refine Or.inr (Or.inl ?_)
      cases hremove : removeWaiter s.state name id with
      | some p =>
        exact ready_of_step (.deregister c) rfl (@step_deregister L roster s 0 c k _ _ _ _ hk hpc hremove)
      | none =>
        exact ⟨0, .deregister c, rfl, rfl, by simp [step, Hub.pc, hk, hpc, hremove, taskStep, Conn.step]⟩
    | lostRace name =>
      exact Or.inr (Or.inl (ready_of_channel hk (by rw [hpc]; exact .lostRace)
        (Or.inr (raceDecided_of_reach h c k name hk hpc))))
    | requeueing name x source =>
      exact Or.inr (Or.inl ⟨0, .requeue c, rfl, rfl, by simp [step, Hub.pc, hk, hpc, taskStep, Conn.step]⟩)
    | bouncing name x =>
      exact Or.inr (Or.inl (ready_of_input (i := .bounced "") (Q := Action.internal) hk rfl rfl
        (by simp only [Conn.step, hpc]; rfl)))

/-! ## Fair runs -/

/-- What the task of `c` has left. A connection that is not there yet has everything left. -/
def fuel (L : Libs) (c : ConnId) (s : Hub) : ℕ ×ₗ ℕ :=
  match s.pc c with
  | some pc => pc.fuel L
  | none => toLex (21, 0)

/-- A step of the hub is one of the task that acts, on its own or under a lock, or its first. -/
theorem actor_of_step {a : DateTime × Action} (h : s.step L roster a = some s') :
    (s.pc a.2.conn = none ∧ ∃ event next, s'.pc a.2.conn = some (.auditing .waiting event next)) ∨
      ∃ k k' i obs, s.conns a.2.conn = some k ∧ s'.pc a.2.conn = some k'.pc ∧
        (i.isLocal = true ∧ k.step L roster a.1 a.2.conn i = some (k', obs) ∨
          k.SharedStep a.1 a.2.conn i k' obs) := by
  have hput : ∀ {k' : Conn}, s'.conns = update s.conns a.2.conn (some k') →
      s'.pc a.2.conn = some k'.pc := by
    intro k' hconns
    rw [Hub.pc, hconns, update_self, Option.map_some]
  have hrouted : ∀ {k : Conn} {pc : Pc} {x : Stamped} {p : QueuePlacement},
      (s.routing a.2.conn k pc x p).pc a.2.conn = some pc := by
    intro k pc x p
    rw [Hub.pc, @routing_pc s a.2.conn a.2.conn k [] x pc p]
    simp [put_conns]
  cases step_cases h with
  | accept hnew =>
    exact Or.inl ⟨by rw [Hub.pc, Action.conn, hnew, Option.map_none], _, _, hput rfl⟩
  | task =>
    simp only [step] at h
    split_ifs at h with hi
    obtain ⟨k, k', obs, hk, hstep, heq⟩ := taskStep_eq_some h
    exact Or.inr ⟨k, k', _, obs, hk, hput (by rw [heq]; rfl), Or.inl ⟨hi, hstep⟩⟩
  | lockAudit hfree hk hshared | append hlock hk hevent hwrite hshared =>
    exact Or.inr ⟨_, _, _, _, hk, hput rfl, Or.inr hshared⟩
  | unlockAudit hlock hk hpc => exact Or.inr ⟨_, _, _, _, hk, hput rfl, Or.inr (.unlocked hpc)⟩
  | @route now d k x role e hk hpc =>
    exact Or.inr ⟨k, { k with pc := .committing (.routed x) role e }, _, _, hk, hrouted,
      Or.inr (show k.SharedStep now d (.routed (.queued 0)) _ _ from .routed hpc)⟩
  | @requeue now d k name source x hk hpc =>
    exact Or.inr ⟨k, { k with pc := .finished }, _, _, hk, hrouted,
      Or.inr (show k.SharedStep now d (.requeued (.queued 0)) _ _ from .requeued hpc)⟩
  | take hk hpc => exact Or.inr ⟨_, _, _, _, hk, hput rfl, Or.inr (.took hpc)⟩
  | park hk hpc => exact Or.inr ⟨_, _, _, _, hk, hput rfl, Or.inr (.parked hpc)⟩
  | loseRace hk hpc => exact Or.inr ⟨_, _, _, _, hk, hput rfl, Or.inr (.raceLost hpc)⟩
  | deregister hk hpc =>
    refine Or.inr ⟨_, _, _, _, hk, ?_, Or.inr (.deregistered hpc)⟩
    rw [Hub.pc, onChan_pc]
    simp [put_conns, Action.conn]

/-- A step brings the task that it moves closer to its end, and leaves the others where they are. -/
theorem fuel_of_step {a : DateTime × Action} (h : s.step L roster a = some s') (c : ConnId) :
    s'.pc c = s.pc c ∨ s'.fuel L c < s.fuel L c := by
  by_cases hactor : c = a.2.conn
  · subst hactor
    rcases actor_of_step h with ⟨hpc, event, next, hpc'⟩ | ⟨k, k', i, obs, hk, hpc', hstep⟩
    · refine Or.inr ?_
      simp only [Hub.fuel, hpc, hpc']
      exact Prod.Lex.toLex_lt_toLex.2 (Or.inl (Nat.lt_succ_of_le (Nat.sub_le _ _)))
    · have hpc : s.pc a.2.conn = some k.pc := by rw [Hub.pc, hk, Option.map_some]
      have hlt : k'.pc.fuel L < k.pc.fuel L → s'.fuel L a.2.conn < s.fuel L a.2.conn := by
        intro hlt
        simpa only [Hub.fuel, hpc, hpc'] using hlt
      rcases hstep with ⟨hi, hstep⟩ | hshared
      · exact (fuel_of_local hi hstep).imp (fun hsame => by rw [hpc, hpc', hsame]) hlt
      · exact Or.inr (hlt (fuel_of_sharedStep hshared))
  · exact Or.inl (pc_of_step (step_cases h) hactor)

/-- The run is fair to the steps of the kind `Q` : a task that could take one again and again moves
again and again. -/
def Fair (p : Machine.Path (step L roster)) (Q : Action → Bool) : Prop :=
  ∀ c, (∃ᶠ n in atTop, Ready L roster Q c (p.state n)) →
    ∃ᶠ n in atTop, (p.state (n + 1)).pc c ≠ (p.state n).pc c

/-- The step changes the program point of the task of `c`. -/
def Moves (L : Libs) (roster : Roster) (c : ConnId) (s : Hub) (a : DateTime × Action) : Prop :=
  ∃ s', s.step L roster a = some s' ∧ s'.pc c ≠ s.pc c

theorem moves_iff {p : Machine.Path (step L roster)} {n : ℕ} :
    Moves L roster c (p.state n) (p.action n) ↔ (p.state (n + 1)).pc c ≠ (p.state n).pc c := by
  constructor
  · rintro ⟨s', hs', hne⟩
    obtain rfl := Option.some.inj ((p.step_eq n).symm.trans hs')
    exact hne
  · exact fun hne => ⟨_, p.step_eq n, hne⟩

/-- A task moves finitely often. -/
theorem eventually_still (p : Machine.Path (step L roster)) (c : ConnId) :
    ∀ᶠ n in atTop, ¬ Moves L roster c (p.state n) (p.action n) := by
  have hfuel : ∀ n, (p.state (n + 1)).pc c = (p.state n).pc c ∨
      (p.state (n + 1)).fuel L c < (p.state n).fuel L c := fun n => fuel_of_step (p.step_eq n) c
  refine p.eventually_not (fun n => ?_) fun n hmoves => (hfuel n).resolve_left (moves_iff.1 hmoves)
  rcases hfuel n with hsame | hlt
  · simp only [Hub.fuel, hsame, le_refl]
  · exact hlt.le

theorem WantsAudit.of_pc_eq (h : WantsAudit c s) (hpc : s'.pc c = s.pc c) : WantsAudit c s' := by
  obtain ⟨k, hk, hwants⟩ := h
  rw [show s.pc c = some k.pc by rw [Hub.pc, hk, Option.map_some]] at hpc
  obtain ⟨k', hk', hsame⟩ := pc_eq_some.1 hpc
  exact ⟨k', hk', by rwa [hsame]⟩

/-- Only who holds the audit lock gives it up, and never to another. -/
theorem auditLock_of_step {a : DateTime × Action} (h : Step L roster s a s')
    (hlock : s.auditLock = some c) : s'.auditLock = some c ∨ s'.auditLock = none := by
  cases h with
  | lockAudit hfree =>
    rw [hfree] at hlock
    cases hlock
  | unlockAudit => exact Or.inr rfl
  | route | requeue => exact Or.inl (by rwa [routing_auditLock])
  | deregister => exact Or.inl (by rwa [onChan_auditLock])
  | accept | task | append | take | park | loseRace => exact Or.inl hlock

/-- What holds of where a task comes to stand, from what holds of where it cannot move. -/
theorem eventually_of_fair (p : Machine.Path (step L roster)) (h : Reach L roster audit (p.state 0))
    {Q : Action → Bool} (hQ : ∀ a, a.internal = true → Q a = true) (hfair : Fair p Q)
    {rests : ConnId → Hub → Prop}
    (hrests : ∀ c s, Reach L roster audit s → rests c s ∨ Ready L roster Q c s ∨ WantsAudit c s)
    (c : ConnId) : ∀ᶠ n in atTop, rests c (p.state n) := by
  have hreach : ∀ n, Reach L roster audit (p.state n) := fun n => h.trans (p.reach_of_le (Nat.zero_le n))
  refine @Machine.Path.eventually_rests _ _ _ _ p (Moves L roster) rests (Ready L roster Q) WantsAudit
    Hub.auditLock (eventually_still p) (fun d hd => (hfair d hd).mono fun n hn => moves_iff.2 hn)
    (fun d n => hrests d _ (hreach n)) (fun d n hwants hfree => ?_) (fun d n hwants hstill => ?_)
    (fun d n hlock => (ready_of_lock (hreach n) hlock).mono hQ)
    (fun d n hlock => auditLock_of_step (step_cases (p.step_eq n)) hlock) c
  · obtain ⟨k, hk, hw⟩ := hwants
    exact (ready_of_free hfree hk hw).mono hQ
  · refine hwants.of_pc_eq ?_
    by_contra hne
    exact hstill (moves_iff.2 hne)

/-! ## A line that is begun -/

/-- The line of an envelope whose writing has begun serializes. -/
def Begun (L : Libs) (s : Hub) : Prop :=
  ∀ c name x source written, s.pc c = some (.writing name x source written) → 0 < written →
    ∃ jsonl, toJsonl L.serverLineToString (.envelope x.envelope) = .ok jsonl

theorem Begun.step {a : DateTime × Action} (h : Begun L s) (hstep : s.step L roster a = some s') :
    Begun L s' := by
  intro d name x source written hpc hpos
  by_cases hsame : s'.pc d = s.pc d
  · exact h d name x source written (hsame ▸ hpc) hpos
  have hactor : d = a.2.conn := by
    by_contra hne
    exact hsame (pc_of_step (step_cases hstep) hne)
  subst hactor
  rcases actor_of_step hstep with ⟨-, event, next, hpc'⟩ | ⟨k, k', i, obs, hk, hpc', hlocal | hshared⟩
  · rw [hpc'] at hpc
    cases hpc
  · have hk' : k'.pc = .writing name x source written := Option.some.inj (hpc'.symm.trans hpc)
    refine serializes_of_local hlocal.1 hlocal.2 hk' hpos fun heq => hsame ?_
    rw [hpc', heq, Hub.pc, hk, Option.map_some]
  · have hk' : k'.pc = .writing name x source written := Option.some.inj (hpc'.symm.trans hpc)
    cases hshared with
    | took =>
      obtain ⟨-, -, -, rfl⟩ := Pc.writing.inj hk'
      exact absurd hpos (lt_irrefl 0)
    | unlocked hunlock =>
      dsimp only at hk'
      subst hk'
      generalize k.pc = pc at hunlock
      unfold Conn.afterUnlock at hunlock
      split at hunlock
      · rename_i next
        cases next <;> cases hunlock
      all_goals cases hunlock
    | _ => cases hk'

theorem begun_of_reach (h : Reach L roster audit s) : Begun L s :=
  Machine.Reach.invariant h (fun c name x source written hpc => by cases hpc) fun _ _ _ h hs => h.step hs

/-! ## Coming to rest -/

/-- The task of `c` is over, or it waits for an envelope without a timeout, and none is there. -/
def Ended (c : ConnId) (s : Hub) : Prop :=
  ∀ k, s.conns c = some k → k.pc.isGone = true ∨ k.unserved = true

/-- A task at its socket can move when its peer lets it. -/
theorem ready_of_socket (h : Reach L roster audit s) (hk : s.conns c = some k)
    (hsocket : k.atSocket = true) : Ready L roster Action.served c s := by
  have hinput : ∀ i : Input, i.isLocal = true → Action.served (.task c i) = true →
      (k.step L roster 0 c i).isSome = true → Ready L roster Action.served c s := by
    intro i hi hserved hsome
    obtain ⟨⟨k', obs⟩, hstep⟩ := Option.isSome_iff_exists.1 hsome
    exact ready_of_input hk hi hserved hstep
  unfold Conn.atSocket at hsocket
  split at hsocket
  · rename_i line hpc
    have hbuf : k.buf = [] := by simpa using hsocket
    exact hinput (.recv (.error "")) rfl rfl (by simp [Conn.step, hbuf, Conn.readRound, hpc, readLineStep])
  · rename_i name line hpc
    have hbuf : k.buf = [] := by simpa using hsocket
    exact hinput (.recv (.error "")) rfl rfl (by simp [Conn.step, hbuf, Conn.readRound, hpc, readLineStep])
  · rename_i line next hpc
    refine hinput (.replied (.error 0)) rfl rfl ?_
    cases hline : toJsonl L.serverLineToString line with
    | error e => simp [Conn.step, hpc, Conn.reply, hline]
    | ok jsonl =>
      have hpos : 0 < (asBytes jsonl).length := asBytes_toJsonl_pos hline
      simp [Conn.step, hpc, Conn.reply, hline, hpos]
  · rename_i name x source written hpc
    cases hline : toJsonl L.serverLineToString (.envelope x.envelope) with
    | ok jsonl =>
      exact hinput (.wrote (.err (.other ""))) rfl rfl
        (by simp [Conn.step, hpc, Conn.write, hline, writeRound])
    | error e =>
      -- what does not serialize has not been begun
      obtain rfl : written = 0 := by
        by_contra hne
        obtain ⟨jsonl, hok⟩ := begun_of_reach h c name x source written
          (pc_eq_some.2 ⟨k, hk, hpc⟩) (Nat.pos_of_ne_zero hne)
        rw [hline] at hok
        cases hok
      exact hinput .unserializable rfl rfl (by simp [Conn.step, hpc, hline])
  · cases hsocket

/-- On every run that is fair to the steps of the hub each connection comes to rest. If the run is
fair to what their peers let them do too, each comes to its end, but for an await without a timeout
that no envelope is there for. -/
theorem comes_to_rest (p : Machine.Path (step L roster)) (h : Reach L roster audit (p.state 0))
    (c : ConnId) :
    (Fair p Action.internal → ∀ᶠ n in atTop, Rests c (p.state n)) ∧
      (Fair p Action.served → ∀ᶠ n in atTop, Ended c (p.state n)) := by
  refine ⟨fun hfair => eventually_of_fair p h (fun _ ha => ha) hfair (fun d s hs => rests_or_ready hs d) c,
    fun hfair => eventually_of_fair p h (fun _ ha => Action.served_of_internal ha) hfair
      (fun d s hs => ?_) c⟩
  rcases rests_or_ready hs d with hrests | hready | hwants
  · cases hk : s.conns d with
    | none => exact Or.inl fun k hk' => by rw [hk] at hk'; cases hk'
    | some k =>
      rcases hrests k hk with hgone | hsocket | hunserved
      · exact Or.inl fun k' hk' => by rw [hk] at hk'; cases hk'; exact Or.inl hgone
      · exact Or.inr (Or.inl (ready_of_socket hs hk hsocket))
      · exact Or.inl fun k' hk' => by rw [hk] at hk'; cases hk'; exact Or.inr hunserved
  · exact Or.inr (Or.inl (hready.mono fun _ ha => Action.served_of_internal ha))
  · exact Or.inr (Or.inr hwants)

/-- A task that is over is brought no further. -/
theorem not_ready_of_over (hover : ∀ k, s.conns c = some k → k.pc.isGone = true) :
    ¬ Ready L roster Action.served c s := by
  rintro ⟨now, a, rfl, ha, hsome⟩
  obtain ⟨s', hs'⟩ := Option.isSome_iff_exists.1 hsome
  have hgone : ∀ {k : Conn}, s.conns a.conn = some k → k.pc = .finished ∨ k.pc = .dead := by
    intro k hk
    have hk' := hover k hk
    unfold Pc.isGone at hk'
    split at hk'
    · exact Or.inl (by assumption)
    · exact Or.inr (by assumption)
    · cases hk'
  cases step_cases hs' with
  | accept => cases ha
  | @task now d i =>
    simp only [step] at hs'
    split_ifs at hs' with hi
    obtain ⟨k, k', obs, hk, hstep, -⟩ := taskStep_eq_some hs'
    rcases hgone hk with hpc | hpc
    all_goals cases i with
      | died | peerClosed => cases ha
      | recv | refill => simp [Conn.step, Conn.readRound, hpc] at hstep
      | replied | polled | timer | wrote | unserializable | bounced => simp [Conn.step, hpc] at hstep
      | _ => cases hi
  | lockAudit hfree hk hshared =>
    rcases hgone hk with hpc | hpc <;>
      cases hshared <;> simp_all
  | append hlock hk hevent =>
    rcases hgone hk with hpc | hpc <;> simp [hpc, pendingEvent] at hevent
  | unlockAudit hlock hk hunlock =>
    rcases hgone hk with hpc | hpc <;> simp [hpc, Conn.afterUnlock] at hunlock
  | route hk hat | take hk hat | park hk hat | deregister hk hat | loseRace hk hat | requeue hk hat =>
    have hk' := hover _ hk
    rw [hat] at hk'
    cases hk'

/-- `alice` authenticates and awaits, and her await times out. -/
def timedOut : List Action :=
  opening 0 aliceHello.bytes awaitAny.bytes ++
    [.await 0, .task 0 .timer, .deregister 0, .task 0 (.replied (.ok ()))]

/-- After it the hub sees nothing but that her client has closed, again and again. -/
theorem comes_to_rest_timedOut : ∃ p : Machine.Path (step sampleLibs sampleRoster),
    p.state 0 = Hub.init sampleAudit ∧ (∀ᶠ n in atTop, ((p.state n).pc 0).any Pc.isGone = true) ∧
      ∀ c, (∀ᶠ n in atTop, Rests c (p.state n)) ∧ ∀ᶠ n in atTop, Ended c (p.state n) := by
  let P : Hub → Prop := fun s => (s.pc 0).any Pc.isGone = true ∧ ∀ d, d ≠ 0 → s.pc d = none
  have hloop : ∀ s, P s →
      ∃ s', step sampleLibs sampleRoster s (0, .task 0 .peerClosed) = some s' ∧ P s' := by
    rintro s ⟨hgone, hnone⟩
    obtain ⟨pc, hpc, hat⟩ := Option.any_eq_true _ _ |>.1 hgone
    obtain ⟨k, hk, rfl⟩ := pc_eq_some.1 hpc
    refine ⟨_, @step_task sampleLibs sampleRoster s 0 0 k .peerClosed _ _ hk rfl rfl, ?_, fun d hd => ?_⟩
    · simpa [Hub.pc, put_conns] using hat
    · rw [Hub.pc, put_conns, if_neg hd]
      exact hnone d hd
  have hends : (runSample timedOut).any (fun s => (s.pc 0).any Pc.isGone) = true := by decide +kernel
  obtain ⟨s, hrun, hgone⟩ := Option.any_eq_true _ _ |>.1 hends
  have hothers : ∀ d, d ≠ 0 → s.pc d = none := by
    intro d hd
    have hreach := Machine.reachVia_of_run (Q := fun _ a => a.2.conn = 0) hrun fun _ => by decide
    refine Machine.ReachVia.invariant (P := fun s => s.pc d = none) hreach rfl ?_
    intro s₁ a s₂ _ hnone hconn hstep
    rw [pc_of_step (step_cases hstep) (hconn ▸ hd), hnone]
  obtain ⟨p, hstart, hlast⟩ := Machine.Path.exists_of_run hloop hrun ⟨hgone, hothers⟩
  have hidle : ∀ Q : Action → Bool, (∀ a, Q a = true → a.served = true) → Fair p Q := by
    intro Q hQ c hready
    obtain ⟨n, hn, hP⟩ := (hready.and_eventually hlast).exists
    refine absurd (hn.mono hQ) (not_ready_of_over fun k hk => ?_)
    have hpc : (p.state n).pc c = some k.pc := by rw [Hub.pc, hk, Option.map_some]
    by_cases hd : c = 0
    · have hgone := hP.1
      rwa [← hd, hpc, Option.any_some] at hgone
    · rw [hP.2 c hd] at hpc
      cases hpc
  have hreach : SampleReach (p.state 0) := by
    rw [hstart]
    exact .init
  refine ⟨p, hstart, hlast.mono fun n hP => hP.1, fun c => ?_⟩
  obtain ⟨hrests, hended⟩ := comes_to_rest p hreach c
  exact ⟨hrests (hidle _ fun a ha => Action.served_of_internal ha), hended (hidle _ fun a ha => ha)⟩

end Hub

end AgentHub
