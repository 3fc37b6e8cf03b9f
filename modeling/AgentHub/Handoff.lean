import AgentHub.Registry
import Mathlib.Algebra.Group.Nat.Defs
import Mathlib.Data.List.Nodup

/-!
# The timer and the handoff

Waiter ids are drawn one after another from a `u64`, so among the first `2 ^ 64` awaits
that park no two have the same (`tx_eq_of_parked`). Then `remove_waiter` finds the waiter
of the await that calls it or none, and a waiter leaves the registry as its channel is
filled or by its own timer.

`Hub.Handoffs` keeps the account, in the terms of what was sent into each channel
(`handedTo`) : a waiting task has been handed what is in its channel, one that stopped
waiting and has not timed out exactly one envelope, one that timed out nothing.
-/

namespace AgentHub

/-- The waiter id an observation draws. -/
def Obs.drawn : Obs → Option UInt64
  | .parked _ _ waiterId => some waiterId
  | _ => none

/-- How many awaits have parked. -/
def parks (trace : List Obs) : ℕ :=
  (trace.filterMap Obs.drawn).length

/-- The envelopes sent into the handoff channel of a connection. -/
def handedTo (c : ConnId) (trace : List Obs) : List Stamped :=
  trace.filterMap fun
    | .routed _ x _ (.handedOff tx) => if tx = c then some x else none
    | _ => none

@[simp] theorem handedTo_append (c : ConnId) (t t' : List Obs) :
    handedTo c (t ++ t') = handedTo c t ++ handedTo c t' :=
  List.filterMap_append

theorem handedTo_routed (c d : ConnId) (x : Stamped) (p : QueuePlacement) (outcome : SendOutcome) :
    handedTo d [.routed c x p outcome] = if outcome = .handedOff d then [x] else [] := by
  cases outcome with
  | queued depth => simp [handedTo]
  | handedOff tx => by_cases htx : tx = d <;> simp [handedTo, htx]

theorem parks_append (t t' : List Obs) : parks (t ++ t') = parks t + parks t' := by
  simp [parks, List.filterMap_append]

section Task

variable {L : Libs} {roster : Roster} {now : DateTime} {c : ConnId} {k k' : Conn} {obs : List Obs}

theorem drawn_of_localStep (h : k.LocalStep L roster now c k' obs) :
    obs.filterMap Obs.drawn = [] := by
  cases h with
  | wroteAll hpc hobs => rcases hobs with rfl | rfl <;> simp [Obs.drawn]
  | _ => simp [Obs.drawn]

theorem Pc.Waits.waiting {name : String} {pc : Pc} (h : pc.Waits name) : pc.waiting = some name := by
  cases h <;> rfl

theorem Pc.Mortal.waiting {pc : Pc} (h : pc.Mortal) : ∃ name, pc.waiting = some name := by
  cases h <;> exact ⟨_, rfl⟩

/-- The task goes on waiting, or goes on not waiting. -/
structure Conn.SameWait (k k' : Conn) : Prop where
  chan : k'.chan = k.chan
  waiting : k'.pc.waiting = k.pc.waiting
  dead : k'.pc = .dead ↔ k.pc = .dead
  lostRace : ∀ name, k'.pc = .lostRace name → k.pc = .lostRace name

theorem quiet_of_localStep (h : k.LocalStep L roster now c k' obs) : Quiet obs := by
  cases h with
  | wroteAll hpc hobs => rcases hobs with rfl | rfl <;> simp [Quiet, Obs.reroutes]
  | _ => simp [Quiet, Obs.reroutes]

theorem quiet_of_auditStep {i : Input} (h : k.SharedStep now c i k' obs)
    (hi : i = .locked ∨ ∃ r, i = .appended r) : Quiet obs := by
  cases h with
  | lockedAudit | lockedCommit | logged | unlogged | accepted | refused => simp [Quiet, Obs.reroutes]
  | _ => simp at hi

theorem Quiet.handedTo {obs : List Obs} (h : Quiet obs) (c : ConnId) : handedTo c obs = [] := by
  refine List.filterMap_eq_nil_iff.2 fun o ho => ?_
  have := h o ho
  cases o with
  | routed => cases this
  | _ => rfl

/-- What a step that touches nothing shared means for a wait : it goes on, or it ends with
the envelope in the channel, with the loss of an empty one, or with the task. -/
theorem wait_of_localStep (h : k.LocalStep L roster now c k' obs) : k.SameWait k' ∨
    (∃ name x, k.pc.waiting = some name ∧ k.chan.value = some x ∧
      k'.pc = .writing name x "handoff" 0 ∧ k'.chan = k.chan.dropRx) ∨
    (∃ name, k.pc.waiting = some name ∧ k.chan.value = none ∧ k.chan.txAlive = false) ∨
    ∃ name, k.pc.waiting = some name ∧ k.chan.value = none ∧ k'.pc = .dead ∧
      k'.chan = k.chan.dropRx := by
  cases h with
  | helloRefused hpc hfill hrefuse | verbRefused hpc hfill hrefuse =>
    refine Or.inl ?_
    cases hrefuse <;> constructor <;> simp [hpc, Pc.waiting]
  | handed hwaits hvalue => exact Or.inr (Or.inl ⟨_, _, hwaits.waiting, hvalue, rfl, rfl⟩)
  | channelLost hwaits hvalue htx => exact Or.inr (Or.inr (Or.inl ⟨_, hwaits.waiting, hvalue, htx⟩))
  | died hmortal hvalue =>
    obtain ⟨name, hname⟩ := hmortal.waiting
    exact Or.inr (Or.inr (Or.inr ⟨name, hname, hvalue, rfl, rfl⟩))
  | peerClosed => exact Or.inl ⟨rfl, rfl, Iff.rfl, fun _ h => h⟩
  | _ => exact Or.inl (by constructor <;> simp [*, Pc.waiting])

theorem sameWait_of_afterUnlock {pc : Pc} (h : Conn.afterUnlock k.pc = some pc) :
    k.SameWait { k with pc } := by
  unfold Conn.afterUnlock at h
  split at h
  · rename_i next hpc
    cases next <;> cases h <;> constructor <;> simp [hpc, Pc.waiting]
  all_goals cases h
  all_goals constructor <;> simp [*, Pc.waiting]

/-- Under a lock a wait changes only where the task parks and where its timer branch acts. -/
theorem sameWait_of_sharedStep {i : Input} (h : k.SharedStep now c i k' obs)
    (hi : ∀ waiterId, i ≠ .parked waiterId) (hi' : ∀ removed, i ≠ .deregistered removed) :
    k.SameWait k' := by
  cases h with
  | unlocked hpc => exact sameWait_of_afterUnlock hpc
  | parked => exact absurd rfl (hi _)
  | deregistered | raceLost => exact absurd rfl (hi' _)
  | _ => constructor <;> simp [*, Pc.waiting]

theorem drawn_of_sharedStep {i : Input} (h : k.SharedStep now c i k' obs)
    (hi : ∀ waiterId, i ≠ .parked waiterId) : obs.filterMap Obs.drawn = [] := by
  cases h with
  | parked => exact absurd rfl (hi _)
  | _ => simp [Obs.drawn]

end Task

namespace Hub

variable {L : Libs} {roster : Roster} {audit : AuditLog} {s s' : Hub}

/-! ## Waiter ids -/

/-- The ids drawn so far are the first ones, in order. -/
structure Ids (s : Hub) : Prop where
  drawn : s.trace.filterMap Obs.drawn = (List.range (parks s.trace)).map UInt64.ofNat
  next : s.state.nextWaiterId = UInt64.ofNat (parks s.trace)

theorem Ids.same (h : Ids s) {obs : List Obs} (htrace : s'.trace = s.trace ++ obs)
    (hobs : obs.filterMap Obs.drawn = []) (hnext : s'.state.nextWaiterId = s.state.nextWaiterId) :
    Ids s' := by
  have hparks : parks s'.trace = parks s.trace := by simp [htrace, parks, hobs]
  refine ⟨?_, by rw [hnext, hparks, h.next]⟩
  rw [hparks, htrace, List.filterMap_append, hobs, List.append_nil, h.drawn]

theorem Ids.step {a : DateTime × Action} (h : Ids s) (hstep : Step L roster s a s') : Ids s' := by
  cases hstep with
  | accept | unlockAudit | loseRace => exact h.same rfl rfl rfl
  | task hk hstep => exact h.same rfl (drawn_of_localStep hstep) rfl
  | lockAudit hfree hk hstep | append hlock hk hevent hwrite hstep =>
    exact h.same rfl (drawn_of_sharedStep hstep (by simp)) rfl
  | route hk hpc | requeue hk hpc =>
    refine h.same (routing_trace _ _ _ _ _ _) rfl ?_
    rw [routing_state]
    exact (routeEnvelope_frame _ _ _ _).1
  | take hk hpc htake =>
    obtain ⟨pre, post, -, -, -, -, -, hnext⟩ := takeQueued_eq_some htake
    exact h.same rfl rfl hnext
  | deregister hk hpc hremove =>
    obtain ⟨pre, post, -, -, -, -, -, hnext⟩ := removeWaiter_eq_some hremove
    refine h.same (onChan_trace _ _ _) rfl ?_
    rw [onChan_state]
    exact hnext
  | @park now c k name filter secs hk hpc htake =>
    have hparks : parks (s.trace ++ [.parked c name s.state.nextWaiterId]) = parks s.trace + 1 := by
      simp [parks, Obs.drawn]
    refine ⟨?_, ?_⟩
    · simp only [put_trace, hparks, List.range_succ, List.map_append, List.filterMap_append, h.drawn]
      simp [Obs.drawn, h.next]
    · simp only [put_trace, hparks, UInt64.ofNat_add]
      simp [HubState.park, h.next]

theorem ids_of_reach (h : Reach L roster audit s) : Ids s :=
  Machine.Reach.invariant h ⟨rfl, rfl⟩ fun _ _ _ h hs => h.step (step_cases hs)

/-- Among the first `2 ^ 64` awaits that park, an id belongs to one connection. -/
theorem Ids.tx_eq (h : Ids s) (hparks : parks s.trace ≤ 2 ^ 64) {c c' : ConnId} {n n' : String}
    {id : UInt64} (hc : .parked c n id ∈ s.trace) (hc' : .parked c' n' id ∈ s.trace) : c = c' := by
  have hnodup : (s.trace.filterMap Obs.drawn).Nodup := by
    rw [h.drawn]
    refine List.Nodup.map_on (fun i hi j hj hij => ?_) List.nodup_range
    have hi : i < 2 ^ 64 := (List.mem_range.1 hi).trans_le hparks
    have hj : j < 2 ^ 64 := (List.mem_range.1 hj).trans_le hparks
    have := congrArg UInt64.toNat hij
    rwa [UInt64.toNat_ofNat', UInt64.toNat_ofNat', Nat.mod_eq_of_lt hi, Nat.mod_eq_of_lt hj] at this
  have := eq_of_nodup_filterMap hnodup hc hc' rfl rfl
  cases this
  rfl

/-- `remove_waiter` finds no other await's waiter. -/
theorem Ids.own_waiter (h : Ids s) (hparks : parks s.trace ≤ 2 ^ 64) (hreg : Registry s)
    (halone : AllAlone L roster s) {c : ConnId} {k : Conn} {name : String} {id : UInt64} {w : Waiter}
    {state : HubState Stamped} (hk : s.conns c = some k) (hpc : k.pc = .timerFired name id)
    (hremove : removeWaiter s.state name id = some (w, state)) : w.tx = c := by
  obtain ⟨pre, post, hw, hid, -⟩ := removeWaiter_eq_some hremove
  obtain ⟨kw, hkw⟩ := hreg.registered name w (by simp [hw])
  have hknown := (known_of_run (halone.run hk)).1
  rw [hpc] at hknown
  exact h.tx_eq hparks (hid ▸ hkw.parked) (mem_traceOf.1 hknown.2).1

/-! ## What a channel is handed -/

/-- The account of the connection `c`. -/
structure Account (c : ConnId) (k : Conn) (trace : List Obs) : Prop where
  open_of_empty : k.pc.waiting ≠ none → k.chan.value = none → k.chan.txAlive = true
  filled : ∀ n, k.pc = .lostRace n → k.chan.value ≠ none
  waiting : k.pc.waiting ≠ none → handedTo c trace = k.chan.value.toList
  unparked : (∀ n id, .parked c n id ∉ trace) → handedTo c trace = []
  dead : k.pc = .dead → handedTo c trace = []
  timedOut : .deregistered c ∈ trace → handedTo c trace = []
  served : ∀ n id, .parked c n id ∈ trace → k.pc.waiting = none → k.pc ≠ .dead →
    .deregistered c ∉ trace → ∃ x, handedTo c trace = [x]
  closed : handedTo c trace ≠ [] ∨ .deregistered c ∈ trace → k.chan.txAlive = false

/-- Every connection's account is in order. -/
def Handoffs (s : Hub) : Prop :=
  ∀ c, match s.conns c with
    | none => handedTo c s.trace = []
    | some k => Account c k s.trace

namespace Account

variable {c : ConnId} {k k' : Conn} {t obs : List Obs}

/-- Observations of other connections that hand nothing to `c`. -/
theorem append (h : Account c k t) (hobs : handedTo c obs = [])
    (hparked : ∀ n id, .parked c n id ∉ obs) (hdereg : .deregistered c ∉ obs) :
    Account c k (t ++ obs) where
  open_of_empty := h.open_of_empty
  filled := h.filled
  waiting hw := by rw [handedTo_append, hobs, List.append_nil, h.waiting hw]
  unparked hu := by
    rw [handedTo_append, hobs, List.append_nil]
    exact h.unparked fun n id hm => hu n id (List.mem_append_left _ hm)
  dead hd := by rw [handedTo_append, hobs, List.append_nil, h.dead hd]
  timedOut hm := by
    rw [handedTo_append, hobs, List.append_nil]
    exact h.timedOut ((List.mem_append.1 hm).resolve_right hdereg)
  served n id hp hw hd hm := by
    rw [handedTo_append, hobs, List.append_nil]
    exact h.served n id ((List.mem_append.1 hp).resolve_right (hparked n id)) hw hd
      fun hmem => hm (List.mem_append_left _ hmem)
  closed hc := by
    rw [handedTo_append, hobs, List.append_nil] at hc
    exact h.closed (hc.imp_right fun hm => (List.mem_append.1 hm).resolve_right hdereg)

theorem sameWait (h : Account c k t) (hk : k.SameWait k') : Account c k' t where
  open_of_empty := by
    rw [hk.waiting, hk.chan]
    exact h.open_of_empty
  filled n hn := by
    rw [hk.chan]
    exact h.filled n (hk.lostRace n hn)
  waiting := by
    rw [hk.waiting, hk.chan]
    exact h.waiting
  unparked := h.unparked
  dead hd := h.dead (hk.dead.1 hd)
  timedOut := h.timedOut
  served n id hp hw hd hm := h.served n id hp (hk.waiting ▸ hw) (fun hdead => hd (hk.dead.2 hdead)) hm
  closed := by
    rw [hk.chan]
    exact h.closed

/-- A wait that ends with the envelope in the channel. -/
theorem handed {name : String} {x : Stamped} (h : Account c k t) (hk : k.pc.waiting = some name)
    (hvalue : k.chan.value = some x) (hk' : k'.pc.waiting = none) (hdead : k'.pc ≠ .dead)
    (hchan : k'.chan = k.chan.dropRx) : Account c k' t := by
  have hx : handedTo c t = [x] := by rw [h.waiting (by simp [hk]), hvalue, Option.toList_some]
  refine ⟨fun hw => absurd hk' hw, fun n hn => ?_, fun hw => absurd hk' hw, h.unparked,
    fun hd => absurd hd hdead, h.timedOut, fun _ _ _ _ _ _ => ⟨x, hx⟩, fun hc => ?_⟩
  · rw [hn] at hk'
    cases hk'
  · rw [hchan]
    exact h.closed hc

/-- A task that dies while its channel is empty. -/
theorem died {name : String} (h : Account c k t) (hk : k.pc.waiting = some name)
    (hvalue : k.chan.value = none) (hdead : k'.pc = .dead) (hchan : k'.chan = k.chan.dropRx) :
    Account c k' t := by
  have hnil : handedTo c t = [] := by rw [h.waiting (by simp [hk]), hvalue, Option.toList_none]
  refine ⟨fun hw => ?_, fun n hn => ?_, fun hw => ?_, fun _ => hnil, fun _ => hnil, fun _ => hnil,
    fun _ _ _ _ hd => absurd hdead hd, fun hc => ?_⟩
  · simp [hdead, Pc.waiting] at hw
  · rw [hdead] at hn
    cases hn
  · simp [hdead, Pc.waiting] at hw
  · rw [hchan]
    exact h.closed hc

end Account

namespace Handoffs

theorem account (h : Handoffs s) {c : ConnId} {k : Conn} (hk : s.conns c = some k) :
    Account c k s.trace := by
  have := h c
  rwa [hk] at this

theorem init (audit : AuditLog) : Handoffs (Hub.init audit) :=
  fun _ => rfl

theorem congr (h : Handoffs s) (hconns : s'.conns = s.conns) (htrace : s'.trace = s.trace) :
    Handoffs s' := by
  intro c
  rw [hconns, htrace]
  exact h c

/-- A step of the task of `c` that hands nothing over. -/
theorem put {c : ConnId} {k : Conn} {obs : List Obs} (h : Handoffs s)
    (hobs : ∀ o ∈ obs, o.conn = c) (hhanded : ∀ d, handedTo d obs = [])
    (hacc : Account c k (s.trace ++ obs)) : Handoffs (s.put c k obs) := by
  intro d
  rw [put_conns, put_trace]
  split_ifs with hd
  · exact hd ▸ hacc
  · have hother := h d
    cases hkd : s.conns d with
    | none =>
      rw [hkd] at hother
      simp only [handedTo_append, hhanded, List.append_nil]
      exact hother
    | some kd =>
      rw [hkd] at hother
      exact hother.append (hhanded d) (fun n id hm => hd (hobs _ hm)) fun hm => hd (hobs _ hm)

theorem sameWait {c : ConnId} {k k' : Conn} {obs : List Obs} (h : Handoffs s)
    (hk : s.conns c = some k) (hobs : ∀ o ∈ obs, o.conn = c) (hquiet : Quiet obs)
    (hsame : k.SameWait k') : Handoffs (s.put c k' obs) := by
  refine h.put hobs hquiet.handedTo (((h.account hk).sameWait hsame).append (hquiet.handedTo c) ?_ ?_)
  · intro n id hm
    cases hquiet _ hm
  · intro hm
    cases hquiet _ hm

theorem task {now : DateTime} {c : ConnId} {k k' : Conn} {obs : List Obs} (h : Handoffs s)
    (hk : s.conns c = some k) (hstep : k.LocalStep L roster now c k' obs) :
    Handoffs (s.put c k' obs) := by
  have hquiet := quiet_of_localStep hstep
  have hacc := h.account hk
  rcases wait_of_localStep hstep with hsame | ⟨name, x, hw, hvalue, hpc, hchan⟩ | ⟨name, hw, hvalue, htx⟩ |
    ⟨name, hw, hvalue, hpc, hchan⟩
  · exact h.sameWait hk (conn_of_localStep hstep) hquiet hsame
  · refine h.put (conn_of_localStep hstep) hquiet.handedTo
      ((hacc.handed hw hvalue (by simp [hpc, Pc.waiting]) (by simp [hpc]) hchan).append
        (hquiet.handedTo c) (fun n id hm => ?_) fun hm => ?_) <;> cases hquiet _ hm
  · -- the branch of `ChannelLost`
    rw [hacc.open_of_empty (by simp [hw]) hvalue] at htx
    cases htx
  · refine h.put (conn_of_localStep hstep) hquiet.handedTo
      ((hacc.died hw hvalue hpc hchan).append (hquiet.handedTo c) (fun n id hm => ?_) fun hm => ?_) <;>
      cases hquiet _ hm

theorem routing {c : ConnId} {k : Conn} {pc : Pc} {x : Stamped} {p : QueuePlacement}
    (h : Handoffs s) (hreg : Registry s) (halone : AllAlone L roster s) (hk : s.conns c = some k)
    (hsame : k.SameWait { k with pc }) :
    Handoffs (s.routing c k pc x p) := by
  intro d
  rw [routing_conns, routing_trace]
  have hd : ∀ kd, (if d = c then some { k with pc } else s.conns d) = some kd →
      ∃ kd₀, s.conns d = some kd₀ ∧ kd₀.SameWait kd := by
    intro kd hkd
    split_ifs at hkd with hdc
    · obtain rfl := Option.some.inj hkd
      exact ⟨k, hdc ▸ hk, hsame⟩
    · exact ⟨kd, hkd, rfl, rfl, Iff.rfl, fun _ h => h⟩
  cases hkd : (if d = c then some { k with pc } else s.conns d) with
  | none =>
    have hdc : d ≠ c := fun hdc => by simp [hdc] at hkd
    rw [if_neg hdc] at hkd
    have hother := h d
    rw [hkd] at hother
    have hout : (routeEnvelope s.closed s.state x p).2 ≠ .handedOff d := by
      intro hout
      obtain ⟨pre, w, post, hw, rfl, -⟩ := handedOff_spec s.closed s.state x p hout
      obtain ⟨kw, hkw⟩ := hreg.registered _ w (by rw [hw]; simp)
      have hconn := hkw.conn
      rw [hkd] at hconn
      cases hconn
    simp only [Option.map_none, handedTo_append, hother, List.nil_append]
    rw [handedTo_routed, if_neg hout]
  | some kd =>
    obtain ⟨kd₀, hkd₀, hsame⟩ := hd kd hkd
    have hacc := (h.account hkd₀).sameWait hsame
    simp only [Option.map_some]
    split_ifs with hout
    · -- `d` is handed `x` : it waits, its channel is empty
      obtain ⟨pre, w, post, hw, htx, hopen, -⟩ := handedOff_spec s.closed s.state x p hout
      obtain ⟨kw, hkw⟩ := hreg.registered _ w (by rw [hw]; simp)
      obtain rfl : kd₀ = kw := Option.some.inj (hkd₀.symm.trans (htx ▸ hkw.conn))
      obtain ⟨kd', hkd', hwait⟩ := halone.closed_eq_false.1 hopen
      obtain rfl := Option.some.inj (hkd₀.symm.trans hkd')
      have hwait' : kd.pc.waiting ≠ none := by rwa [hsame.waiting]
      have hnil : handedTo d s.trace = [] := by
        rw [hacc.waiting hwait', hsame.chan, hkw.empty, Option.toList_none]
      have hone : handedTo d (s.trace ++ [.routed c x p (routeEnvelope s.closed s.state x p).2]) =
          [x] := by
        rw [handedTo_append, hnil, handedTo_routed, if_pos hout, List.nil_append]
      refine ⟨fun _ hv => by simp [Oneshot.send] at hv, fun _ _ hv => by simp [Oneshot.send] at hv,
        fun _ => hone, fun hu => ?_, fun hdead => ?_, fun hm => ?_,
        fun n id _ hnone => absurd hnone hwait', fun _ => rfl⟩
      · exact absurd (List.mem_append_left _ (htx ▸ hkw.parked)) (hu _ _)
      · have hdead' : kd.pc = .dead := hdead
        rw [hdead'] at hwait'
        exact absurd rfl hwait'
      · have hmem : .deregistered d ∈ s.trace := by simpa using hm
        have := (marked_of_run (halone.run hkd₀)).le _ (mem_traceOf.2 ⟨hmem, rfl⟩) 19 rfl
        generalize kd₀.pc = pc₀ at hwait this
        cases pc₀ <;> simp [Pc.waiting, Pc.stage] at hwait this
    · refine hacc.append ?_ (by simp) (by simp)
      rw [handedTo_routed, if_neg hout]

theorem accept {now : DateTime} {c : ConnId} {peer : String} (h : Handoffs s)
    (halone : AllAlone L roster s) (hnew : s.conns c = none) :
    Handoffs (s.put c (.accepted now peer) []) := by
  have hnil := h c
  rw [hnew] at hnil
  have hnone : ∀ o ∈ s.trace, o.conn ≠ c := by
    have := halone c
    rw [hnew] at this
    exact fun o ho hc => List.filter_eq_nil_iff.1 this o ho (by simpa using hc)
  refine h.put (by simp) (fun d => rfl) ?_
  rw [List.append_nil]
  exact ⟨fun hw => absurd rfl hw, by rintro _ ⟨⟩, fun hw => absurd rfl hw, fun _ => hnil, fun _ => hnil,
    fun _ => hnil, fun n id hp => absurd rfl (hnone (.parked c n id) hp), fun _ => rfl⟩

theorem park {c : ConnId} {k : Conn} {name : String} {id : UInt64} {filter : AwaitFilter}
    {timeoutSecs : Option UInt64} (h : Handoffs s) (halone : AllAlone L roster s)
    (hk : s.conns c = some k) (hpc : k.pc = .awaiting name filter timeoutSecs) :
    Handoffs (s.put c { k with pc := .parked name id timeoutSecs, chan := .fresh }
      [.parked c name id]) := by
  have hnil := (h.account hk).unparked fun n id =>
    halone.not_parked hk (by simp [hpc, Pc.stage])
  have hnil' : handedTo c (s.trace ++ [.parked c name id]) = [] := by
    rw [handedTo_append, hnil]
    rfl
  refine h.put (by simp [Obs.conn]) (fun d => rfl) ?_
  refine ⟨fun _ _ => rfl, by rintro _ ⟨⟩, fun _ => hnil', fun _ => hnil', by rintro ⟨⟩,
    fun _ => hnil', by rintro _ _ _ ⟨⟩,
    fun hc => ?_⟩
  have hm : .deregistered c ∈ s.trace := by simpa [hnil'] using hc
  have := (marked_of_run (halone.run hk)).le _ (mem_traceOf.2 ⟨hm, rfl⟩) 19 rfl
  simp [hpc, Pc.stage] at this

/-- The timer branch finds its own waiter : nothing was handed over. -/
theorem deregister {c : ConnId} {k : Conn} {name : String} {id : UInt64} {w : Waiter}
    {state : HubState Stamped} (h : Handoffs s) (hreg : Registry s) (hk : s.conns c = some k)
    (hpc : k.pc = .timerFired name id) (hremove : removeWaiter s.state name id = some (w, state))
    (hown : w.tx = c) :
    Handoffs ({ s.put c { k with pc := .replying .timeout .finish, chan := k.chan.dropRx }
      [.deregistered c] with state }.onChan w.tx Oneshot.dropTx) := by
  obtain ⟨pre, post, hw, -⟩ := removeWaiter_eq_some hremove
  obtain ⟨kw, hkw⟩ := hreg.registered name w (by simp [hw])
  obtain rfl : k = kw := Option.some.inj (hk.symm.trans (hown ▸ hkw.conn))
  have hnil : handedTo c s.trace = [] := by
    rw [(h.account hk).waiting (by simp [hpc, Pc.waiting]), hkw.empty, Option.toList_none]
  have hnil' : handedTo c (s.trace ++ [.deregistered c]) = [] := by
    rw [handedTo_append, hnil]
    rfl
  have hput := @put s c { k with pc := .replying .timeout .finish, chan := k.chan.dropRx.dropTx }
    [.deregistered c] h (by simp [Obs.conn]) (fun d => rfl)
    ⟨fun hwait => absurd rfl hwait, by rintro _ ⟨⟩, fun hwait => absurd rfl hwait,
      fun _ => hnil', fun _ => hnil', fun _ => hnil', fun n id _ _ _ hm => absurd (by simp) hm,
      fun _ => rfl⟩
  refine hput.congr (funext fun d => ?_) (onChan_trace _ _ _)
  rw [onChan_conns, put_conns, hown]
  split_ifs with hd
  · simp only [hd, put_conns, if_true, Option.map_some]
  · simp only [put_conns, if_neg hd, Option.map_id']

/-- The timer branch finds no waiter : it left as the channel was filled. -/
theorem loseRace {c : ConnId} {k : Conn} {name : String} {id : UInt64} (h : Handoffs s)
    (hreg : Registry s) (halone : AllAlone L roster s) (hk : s.conns c = some k)
    (hpc : k.pc = .timerFired name id) (hremove : removeWaiter s.state name id = none) :
    Handoffs (s.put c { k with pc := .lostRace name } []) := by
  have hacc := h.account hk
  have hwait : k.pc.waiting = some name := by rw [hpc]; rfl
  have hvalue : k.chan.value ≠ none := by
    intro hnone
    obtain ⟨w, hw, rfl⟩ := hreg.of_open c k name hk hwait (hacc.open_of_empty (by simp [hwait]) hnone)
    obtain ⟨kw, hkw⟩ := hreg.registered name w hw
    have hknown := (known_of_run (halone.run hk)).1
    rw [hpc] at hknown
    exact removeWaiter_eq_none hremove w hw
      (halone.parked_unique hkw.parked (mem_traceOf.1 hknown.2).1).2
  refine h.put (by simp) (fun d => rfl) ?_
  rw [List.append_nil]
  exact ⟨fun _ => hacc.open_of_empty (by simp [hwait]), fun _ _ => hvalue,
    fun _ => hacc.waiting (by simp [hwait]), hacc.unparked, by rintro ⟨⟩, hacc.timedOut,
    by rintro _ _ _ ⟨⟩, hacc.closed⟩

/-- Every step of a run with fewer than `2 ^ 64` parked awaits keeps the accounts. -/
theorem step {a : DateTime × Action} (h : Handoffs s) (hids : Ids s) (hparks : parks s.trace ≤ 2 ^ 64)
    (hreg : Registry s) (halone : AllAlone L roster s) (hstep : Step L roster s a s') :
    Handoffs s' := by
  cases hstep with
  | accept hnew => exact h.accept halone hnew
  | task hk hstep => exact h.task hk hstep
  | lockAudit hfree hk hstep | append hlock hk hevent hwrite hstep =>
    have hquiet : Quiet _ := quiet_of_auditStep hstep (by simp)
    exact (h.sameWait hk (conn_of_sharedStep hstep) hquiet
      (sameWait_of_sharedStep hstep (by simp) (by simp))).congr rfl rfl
  | route hk hpc => exact h.routing hreg halone hk (by constructor <;> simp [hpc, Pc.waiting])
  | unlockAudit hlock hk hpc =>
    exact (h.sameWait hk (by simp) (by simp [Quiet]) (sameWait_of_afterUnlock hpc)).congr rfl rfl
  | take hk hpc htake =>
    refine (h.put (by simp [Obs.conn]) (fun d => rfl)
      (((h.account hk).sameWait ?_).append rfl (by simp) (by simp))).congr rfl rfl
    constructor <;> simp [hpc, Pc.waiting]
  | park hk hpc htake => exact (h.park halone hk hpc).congr rfl rfl
  | deregister hk hpc hremove =>
    exact h.deregister hreg hk hpc hremove (hids.own_waiter hparks hreg halone hk hpc hremove)
  | loseRace hk hpc hremove => exact h.loseRace hreg halone hk hpc hremove
  | requeue hk hpc => exact h.routing hreg halone hk (by constructor <;> simp [hpc, Pc.waiting])

end Handoffs

theorem handoffs_of_reach (h : Reach L roster audit s) (hparks : parks s.trace ≤ 2 ^ 64) :
    Handoffs s := by
  refine Machine.ReachVia.invariant (P := fun s => parks s.trace ≤ 2 ^ 64 → Handoffs s) h
    (fun _ => Handoffs.init audit) (fun s a s' hr hP _ hs hb => ?_) hparks
  have hstep := step_cases hs
  have hle : parks s.trace ≤ 2 ^ 64 := by
    obtain ⟨t, ht⟩ := trace_prefix_of_step hstep
    rw [← ht, parks_append] at hb
    omega
  exact (hP hle).step (ids_of_reach hr) hle (registry_of_reach hr) (allAlone_of_reach hr) hstep

end Hub

end AgentHub
