import AgentHub.Arbitration
import AgentHub.HubSteps

/-!
# The registry, the channels and the tasks

What ties the waiters in the registry to the channels and the program points of the tasks
that registered them (`Hub.Registry`), in every state the hub reaches. A registered waiter
is the only one of its connection, and its channel is open and empty. A task that waits on
an open channel is registered. A channel holds an envelope only while its task waits, and
only one addressed to its agent.

None of this needs the waiter ids to be distinct. What does is in `Handoff`.
-/

namespace AgentHub

/-- The agent for which a task waits on its handoff channel. -/
def Pc.waiting : Pc → Option String
  | .parked name _ _ | .timerFired name _ | .lostRace name => some name
  | _ => none

section Channel

variable {L : Libs} {roster : Roster} {now : DateTime} {c : ConnId} {k k' : Conn} {obs : List Obs}

/-- A task that goes on waiting keeps its channel, one that stops drops its receiver. -/
def Conn.KeepsChannel (k k' : Conn) : Prop :=
  (k'.chan = k.chan ∧ k'.pc.waiting = k.pc.waiting) ∨
    (k'.chan = k.chan.dropRx ∧ k'.pc.waiting = none)

theorem keepsChannel_of_localStep (h : k.LocalStep L roster now c k' obs) : k.KeepsChannel k' := by
  cases h with
  | helloRefused hpc hfill hrefuse | verbRefused hpc hfill hrefuse =>
    cases hrefuse <;> simp [Conn.KeepsChannel, hpc, Pc.waiting]
  | handed | channelLost | died => exact Or.inr ⟨rfl, rfl⟩
  | peerClosed => exact Or.inl ⟨rfl, rfl⟩
  | _ => simp [Conn.KeepsChannel, *, Pc.waiting]

theorem keepsChannel_of_afterUnlock {pc : Pc} (h : Conn.afterUnlock k.pc = some pc) :
    k.KeepsChannel { k with pc } := by
  unfold Conn.afterUnlock at h
  split at h
  · rename_i next hpc
    cases next <;> cases h <;> simp [Conn.KeepsChannel, hpc, Pc.waiting]
  all_goals cases h
  all_goals simp [Conn.KeepsChannel, *, Pc.waiting]

/-- Under a lock, only an await that parks gets a new channel. -/
theorem keepsChannel_of_sharedStep {i : Input} (h : k.SharedStep now c i k' obs)
    (hi : ∀ waiterId, i ≠ .parked waiterId) : k.KeepsChannel k' := by
  cases h with
  | unlocked hpc => exact keepsChannel_of_afterUnlock hpc
  | parked => exact absurd rfl (hi _)
  | deregistered hpc => exact Or.inr ⟨rfl, rfl⟩
  | _ => simp [Conn.KeepsChannel, *, Pc.waiting]

/-- The receiver of a task's channel is alive while the task waits. -/
theorem rxAlive_iff_of_run {t : List Obs} (h : Conn.Run L roster c t k) :
    k.chan.rxAlive = true ↔ k.pc.waiting ≠ none := by
  have hkeep : ∀ {k k' : Conn}, (k.chan.rxAlive = true ↔ k.pc.waiting ≠ none) →
      k.KeepsChannel k' → (k'.chan.rxAlive = true ↔ k'.pc.waiting ≠ none) := by
    rintro k k' ih (⟨hchan, hpc⟩ | ⟨hchan, hpc⟩)
    · rw [hchan, hpc, ih]
    · simp [hchan, hpc, Oneshot.dropRx]
  induction h with
  | accepted => simp [Conn.accepted, Oneshot.unused, Pc.waiting]
  | «local» _ hstep ih => exact hkeep ih (keepsChannel_of_localStep hstep)
  | @shared now i t obs k k' _ hstep ih =>
    by_cases hi : ∃ waiterId, i = .parked waiterId
    · obtain ⟨waiterId, rfl⟩ := hi
      cases hstep
      simp [Oneshot.fresh, Pc.waiting]
    · exact hkeep ih (keepsChannel_of_sharedStep hstep (by simpa using hi))
  | channel _ hrx ih => simpa only [hrx] using ih

end Channel

namespace Hub

section Facts

variable {L : Libs} {roster : Roster} {s : Hub} {c : ConnId} {k : Conn}

theorem AllAlone.closed_eq_false (h : AllAlone L roster s) :
    s.closed c = false ↔ ∃ k, s.conns c = some k ∧ k.pc.waiting ≠ none := by
  unfold closed
  cases hk : s.conns c with
  | none => simp
  | some k =>
    have := rxAlive_iff_of_run (h.run hk)
    simp [← this]

/-- A connection parks once. -/
theorem AllAlone.parked_unique (h : AllAlone L roster s) {n n' : String} {id id' : UInt64}
    (hp : .parked c n id ∈ s.trace) (hp' : .parked c n' id' ∈ s.trace) : n = n' ∧ id = id' := by
  have halone := h c
  cases hk : s.conns c with
  | none =>
    rw [hk] at halone
    have := List.filter_eq_nil_iff.1 halone _ hp
    simp [Obs.conn] at this
  | some k =>
    have heq := (marked_of_run (h.run hk)).eq_of_mem (mem_traceOf.2 ⟨hp, rfl⟩)
      (mem_traceOf.2 ⟨hp', rfl⟩) rfl rfl
    cases heq
    exact ⟨rfl, rfl⟩

theorem AllAlone.parked_of_waiting (h : AllAlone L roster s) {n : String} (hk : s.conns c = some k)
    (hpc : k.pc.waiting = some n) : ∃ id, .parked c n id ∈ s.trace := by
  have hknown := (known_of_run (h.run hk)).1
  generalize k.pc = pc at hpc hknown
  cases pc with
  | parked name id secs =>
    cases hpc
    exact ⟨id, (mem_traceOf.1 hknown.2).1⟩
  | timerFired name id =>
    cases hpc
    exact ⟨id, (mem_traceOf.1 hknown.2).1⟩
  | lostRace name =>
    cases hpc
    exact hknown.2.imp fun _ hp => (mem_traceOf.1 hp).1
  | _ => cases hpc

theorem AllAlone.not_parked (h : AllAlone L roster s) (hk : s.conns c = some k)
    (hstage : k.pc.stage < 5) {n : String} {id : UInt64} : .parked c n id ∉ s.trace := by
  intro hp
  have := (marked_of_run (h.run hk)).le _ (mem_traceOf.2 ⟨hp, rfl⟩) 5 rfl
  omega

end Facts

/-- What holds of a waiter `w` registered for the agent `n`. -/
structure Registered (s : Hub) (n : String) (w : Waiter) (k : Conn) : Prop where
  conn : s.conns w.tx = some k
  empty : k.chan.value = none
  txAlive : k.chan.txAlive = true
  parked : .parked w.tx n w.id ∈ s.trace
  verb : ∃ timeoutSecs, .verb w.tx n (.await w.filter.replyTo w.filter.kind timeoutSecs) ∈ s.trace

/-- The registry agrees with the channels and the tasks. -/
structure Registry (s : Hub) : Prop where
  registered : ∀ n, ∀ w ∈ s.state.registered n, ∃ k, Registered s n w k
  nodup : ∀ n, ((s.state.registered n).map Waiter.tx).Nodup
  of_open : ∀ c k n, s.conns c = some k → k.pc.waiting = some n → k.chan.txAlive = true →
    ∃ w ∈ s.state.registered n, w.tx = c
  of_value : ∀ c k x, s.conns c = some k → k.chan.value = some x →
    k.pc.waiting = some x.envelope.to ∧ k.chan.txAlive = false

namespace Registry

variable {L : Libs} {roster : Roster} {s s' : Hub}

theorem init (audit : AuditLog) : Registry (Hub.init audit) where
  registered n w hw := by simp [Hub.init] at hw
  nodup n := by simp [Hub.init]
  of_open c k n hk := by simp [Hub.init] at hk
  of_value c k x hk := by simp [Hub.init] at hk

/-- Only the waiters, the connections and the trace matter. -/
theorem congr (h : Registry s) (hreg : ∀ n, s'.state.registered n = s.state.registered n)
    (hconns : s'.conns = s.conns) (htrace : s'.trace = s.trace) : Registry s' where
  registered n w hw := by
    obtain ⟨k, hk⟩ := h.registered n w (hreg n ▸ hw)
    exact ⟨k, hconns ▸ hk.conn, hk.empty, hk.txAlive, htrace ▸ hk.parked, htrace ▸ hk.verb⟩
  nodup n := by
    rw [hreg]
    exact h.nodup n
  of_open c k n hk hpc htx := by
    rw [hreg]
    exact h.of_open c k n (hconns ▸ hk) hpc htx
  of_value c k x hk hx := h.of_value c k x (hconns ▸ hk) hx

/-- A step of a task that keeps its channel. -/
theorem put {c : ConnId} {k k' : Conn} {obs : List Obs} (h : Registry s) (hk : s.conns c = some k)
    (hkeep : k.KeepsChannel k') : Registry (s.put c k' obs) where
  registered n w hw := by
    obtain ⟨kw, hconn, hempty, htx, hparked, secs, hverb⟩ := h.registered n w hw
    by_cases hc : w.tx = c
    · rw [hc, hk] at hconn
      obtain rfl := Option.some.inj hconn
      refine ⟨k', by rw [put_conns, if_pos hc], ?_, ?_, by simp [hparked], secs, by simp [hverb]⟩
      · rcases hkeep with ⟨hchan, -⟩ | ⟨hchan, -⟩ <;> simp [hchan, hempty, Oneshot.dropRx]
      · rcases hkeep with ⟨hchan, -⟩ | ⟨hchan, -⟩ <;> simp [hchan, htx, Oneshot.dropRx]
    · exact ⟨kw, by rw [put_conns, if_neg hc, hconn], hempty, htx, by simp [hparked], secs,
        by simp [hverb]⟩
  nodup := h.nodup
  of_open d kd n hd hpc htx := by
    rw [put_conns] at hd
    split_ifs at hd with hdc
    · obtain rfl := Option.some.inj hd
      subst hdc
      rcases hkeep with ⟨hchan, hwait⟩ | ⟨hchan, hwait⟩
      · exact h.of_open d k n hk (hwait ▸ hpc) (hchan ▸ htx)
      · rw [hwait] at hpc
        cases hpc
    · exact h.of_open d kd n hd hpc htx
  of_value d kd x hd hx := by
    rw [put_conns] at hd
    split_ifs at hd with hdc
    · obtain rfl := Option.some.inj hd
      subst hdc
      rcases hkeep with ⟨hchan, hwait⟩ | ⟨hchan, hwait⟩
      · rw [hchan] at hx ⊢
        rw [hwait]
        exact h.of_value d k x hk hx
      · simp [hchan, Oneshot.dropRx] at hx
    · exact h.of_value d kd x hd hx

theorem accept {c : ConnId} {now : DateTime} {peer : String} (h : Registry s)
    (hnew : s.conns c = none) : Registry (s.put c (.accepted now peer) []) where
  registered n w hw := by
    obtain ⟨k, hk⟩ := h.registered n w hw
    have hne : w.tx ≠ c := fun heq => by simp [← heq, hk.conn] at hnew
    exact ⟨k, by rw [put_conns, if_neg hne, hk.conn], hk.empty, hk.txAlive, by simp [hk.parked],
      by simpa using hk.verb⟩
  nodup := h.nodup
  of_open d k n hd hpc htx := by
    rw [put_conns] at hd
    split_ifs at hd with hdc
    · obtain rfl := Option.some.inj hd
      cases hpc
    · exact h.of_open d k n hd hpc htx
  of_value d k x hd hx := by
    rw [put_conns] at hd
    split_ifs at hd with hdc
    · obtain rfl := Option.some.inj hd
      cases hx
    · exact h.of_value d k x hd hx

/-- A parked await registers, and its channel opens. -/
theorem park {c : ConnId} {k : Conn} {name : String} {filter : AwaitFilter}
    {timeoutSecs : Option UInt64} (h : Registry s) (halone : AllAlone L roster s)
    (hk : s.conns c = some k) (hpc : k.pc = .awaiting name filter timeoutSecs) :
    Registry { s.put c { k with pc := .parked name s.state.nextWaiterId timeoutSecs, chan := .fresh }
        [.parked c name s.state.nextWaiterId] with
      state := s.state.park name filter c } := by
  have hnot : ∀ n, ∀ w ∈ s.state.registered n, w.tx ≠ c := by
    intro n w hw heq
    obtain ⟨kw, hkw⟩ := h.registered n w hw
    exact halone.not_parked hk (by simp [hpc, Pc.stage]) (heq ▸ hkw.parked)
  have hverb := (known_of_run (halone.run hk)).1
  rw [hpc] at hverb
  refine ⟨fun n w hw => ?_, fun n => ?_, fun d kd n hd hwait htx => ?_, fun d kd x hd hx => ?_⟩
  · simp only [registered_park] at hw
    by_cases hold : w ∈ s.state.registered n
    · obtain ⟨kw, hkw⟩ := h.registered n w hold
      exact ⟨kw, by rw [put_conns, if_neg (hnot n w hold), hkw.conn], hkw.empty, hkw.txAlive,
        by simp [hkw.parked], by simpa using hkw.verb⟩
    · split_ifs at hw with hn
      · obtain rfl : w = ⟨s.state.nextWaiterId, filter, c⟩ := by simpa [hold] using hw
        subst hn
        exact ⟨_, by rw [put_conns, if_pos rfl], rfl, rfl, by simp, timeoutSecs,
          by simp [(mem_traceOf.1 hverb).1]⟩
      · exact absurd hw hold
  · simp only [registered_park]
    split_ifs with hn
    · rw [List.map_append, List.nodup_append]
      refine ⟨h.nodup n, by simp, fun tx htx d hd => ?_⟩
      obtain ⟨w, hw, rfl⟩ := List.mem_map.1 htx
      rw [List.mem_singleton.1 hd]
      exact hnot n w hw
    · exact h.nodup n
  · simp only [registered_park]
    rw [put_conns] at hd
    split_ifs at hd with hdc
    · obtain rfl := Option.some.inj hd
      obtain rfl := Option.some.inj hwait
      exact ⟨⟨s.state.nextWaiterId, filter, c⟩, by simp, hdc.symm⟩
    · obtain ⟨w, hw, htx⟩ := h.of_open d kd n hd hwait htx
      refine ⟨w, ?_, htx⟩
      split_ifs <;> simp [hw]
  · rw [put_conns] at hd
    split_ifs at hd with hdc
    · obtain rfl := Option.some.inj hd
      cases hx
    · exact h.of_value d kd x hd hx

/-- A waiter with another connection than one that left the registry. -/
theorem tx_ne_of_split (h : Registry s) (halone : AllAlone L roster s) {n m : String} {w v : Waiter}
    {pre post : List Waiter} (hw : s.state.registered n = pre ++ w :: post)
    (hv : v ∈ s.state.registered m) (hmem : m = n → v ∈ pre ++ post) : v.tx ≠ w.tx := by
  intro heq
  by_cases hm : m = n
  · have hnodup := h.nodup n
    rw [hw] at hnodup
    have hperm : (pre ++ w :: post).Perm (w :: (pre ++ post)) := List.perm_middle
    rw [(hperm.map Waiter.tx).nodup_iff, List.map_cons, List.nodup_cons] at hnodup
    exact hnodup.1 (heq ▸ List.mem_map_of_mem (hmem hm))
  · obtain ⟨kv, hkv⟩ := h.registered m v hv
    obtain ⟨kw, hkw⟩ := h.registered n w (by simp [hw])
    exact hm (halone.parked_unique hkv.parked (heq ▸ hkw.parked)).1

/-- Routing : the chosen waiter leaves the registry as its channel is filled, the others it
removes are dead. -/
theorem route (h : Registry s) (halone : AllAlone L roster s) (x : Stamped) (p : QueuePlacement) :
    Registry (s.route x p) := by
  unfold Hub.route
  have hsub := registered_sublist s.closed s.state x p
  -- a waiter left in the registry is not the one the envelope was handed to
  have hleft : ∀ n, ∀ w ∈ (routeEnvelope s.closed s.state x p).1.registered n,
      (routeEnvelope s.closed s.state x p).2 ≠ .handedOff w.tx := by
    intro n v hv hout
    obtain ⟨pre, w, post, hw, htx, -, -, hrest, -⟩ := handedOff_spec s.closed s.state x p hout
    exact h.tx_ne_of_split halone hw ((hsub n).subset hv) (fun hn => hrest.subset (hn ▸ hv)) htx.symm
  refine ⟨fun n w hw => ?_, fun n => ?_, fun d kd n hd hwait htx => ?_, fun d kd y hd hy => ?_⟩
  · rw [handOff_state] at hw
    obtain ⟨k, hk⟩ := h.registered n w ((hsub n).subset hw)
    refine ⟨k, ?_, hk.empty, hk.txAlive, by simp [hk.parked], by simpa using hk.verb⟩
    rw [handOff_conns]
    simp [hk.conn, hleft n w hw]
  · rw [handOff_state]
    exact (h.nodup n).sublist ((hsub n).map Waiter.tx)
  · rw [handOff_conns] at hd
    obtain ⟨k, hk, rfl⟩ := Option.map_eq_some_iff.1 hd
    split_ifs at hwait htx with hout
    · cases htx
    · obtain ⟨w, hw, rfl⟩ := h.of_open d k n hk hwait htx
      rw [handOff_state]
      refine ⟨w, mem_registered_of_open _ _ _ _ hw (halone.closed_eq_false.2 ⟨k, hk, ?_⟩) hout, rfl⟩
      simp [hwait]
  · rw [handOff_conns] at hd
    obtain ⟨k, hk, rfl⟩ := Option.map_eq_some_iff.1 hd
    split_ifs at hy ⊢ with hout
    · obtain ⟨pre, w, post, hw, rfl, hopen, -⟩ := handedOff_spec s.closed s.state x p hout
      obtain ⟨k', hk', hwait⟩ := halone.closed_eq_false.1 hopen
      obtain rfl := Option.some.inj (hk.symm.trans hk')
      obtain ⟨kw, hkw⟩ := h.registered _ w (by rw [hw]; simp)
      obtain ⟨n, hn⟩ := Option.ne_none_iff_exists'.1 hwait
      obtain ⟨id, hid⟩ := halone.parked_of_waiting hk hn
      obtain rfl := (halone.parked_unique hid hkw.parked).1
      obtain rfl : x = y := by simpa [Oneshot.send] using hy
      exact ⟨hn, rfl⟩
    · exact h.of_value d k y hk hy

/-- A removed waiter's sender is dropped. -/
theorem remove (h : Registry s) (halone : AllAlone L roster s) {name : String} {id : UInt64}
    {w : Waiter} {state : HubState Stamped}
    (hremove : removeWaiter s.state name id = some (w, state)) :
    Registry ({ s with state }.onChan w.tx Oneshot.dropTx) := by
  obtain ⟨pre, post, hw, -, -, hreg, -⟩ := removeWaiter_eq_some hremove
  have hold : ∀ n, ∀ v ∈ state.registered n, v ∈ s.state.registered n ∧ v.tx ≠ w.tx := by
    intro n v hv
    rw [hreg] at hv
    split_ifs at hv with hn
    · subst hn
      have hmem : v ∈ s.state.registered n := by
        rw [hw]
        simp only [List.mem_append, List.mem_cons] at hv ⊢
        tauto
      exact ⟨hmem, h.tx_ne_of_split halone hw hmem fun _ => hv⟩
    · exact ⟨hv, h.tx_ne_of_split halone hw hv fun heq => absurd heq hn⟩
  refine ⟨fun n v hv => ?_, fun n => ?_, fun d kd n hd hwait htx => ?_, fun d kd y hd hy => ?_⟩
  · rw [onChan_state] at hv
    obtain ⟨hmem, hne⟩ := hold n v hv
    obtain ⟨k, hk⟩ := h.registered n v hmem
    refine ⟨k, ?_, hk.empty, hk.txAlive, by simp [hk.parked], by simpa using hk.verb⟩
    rw [onChan_conns]
    simp [hk.conn, hne]
  · simp only [onChan_state, hreg]
    split_ifs with hn
    · subst hn
      have hsub : (pre ++ post).Sublist (pre ++ w :: post) :=
        (List.sublist_cons_self w post).append_left pre
      exact (h.nodup n).sublist (hw ▸ hsub.map Waiter.tx)
    · exact h.nodup n
  · rw [onChan_conns] at hd
    obtain ⟨k, hk, rfl⟩ := Option.map_eq_some_iff.1 hd
    split_ifs at hwait htx with hdw
    · cases htx
    · obtain ⟨v, hv, rfl⟩ := h.of_open d k n hk hwait htx
      refine ⟨v, ?_, rfl⟩
      simp only [onChan_state, hreg]
      split_ifs with hn
      · subst hn
        rw [hw, List.mem_append, List.mem_cons] at hv
        rw [List.mem_append]
        rcases hv with hv | rfl | hv
        · exact Or.inl hv
        · exact absurd rfl hdw
        · exact Or.inr hv
      · exact hv
  · rw [onChan_conns] at hd
    obtain ⟨k, hk, rfl⟩ := Option.map_eq_some_iff.1 hd
    split_ifs at hy ⊢ with hdw
    · exact ⟨(h.of_value d k y hk hy).1, rfl⟩
    · exact h.of_value d k y hk hy

theorem shared {now : DateTime} {c : ConnId} {k k' : Conn} {i : Input} {obs : List Obs}
    (h : Registry s) (hk : s.conns c = some k) (hstep : k.SharedStep now c i k' obs)
    (hi : ∀ waiterId, i ≠ .parked waiterId) : Registry (s.put c k' obs) :=
  h.put hk (keepsChannel_of_sharedStep hstep hi)

/-- Every step of the hub keeps the registry in agreement. -/
theorem step {a : DateTime × Action} (h : Registry s) (halone : AllAlone L roster s)
    (hstep : Step L roster s a s') : Registry s' := by
  cases hstep with
  | accept hnew => exact h.accept hnew
  | task hk hstep => exact h.put hk (keepsChannel_of_localStep hstep)
  | lockAudit hfree hk hstep | append hlock hk hevent hwrite hstep =>
    exact (h.shared hk hstep (by simp)).congr (fun n => rfl) rfl rfl
  | @route now c k x role e hk hpc =>
    rw [routing_eq hk]
    have hstep := @Conn.SharedStep.routed now c k x role e (routeEnvelope s.closed s.state x .back).2 hpc
    exact (h.shared hk hstep (by simp)).route (halone.shared now hk hstep) _ _
  | @unlockAudit now c k pc hlock hk hpc =>
    have hstep := @Conn.SharedStep.unlocked now c k pc hpc
    exact (h.shared hk hstep (by simp)).congr (fun n => rfl) rfl rfl
  | @take now c k name filter secs x state hk hpc htake =>
    obtain ⟨pre, post, -, -, -, -, hwaiters, -⟩ := takeQueued_eq_some htake
    have hstep := @Conn.SharedStep.took now c k x name filter secs hpc
    refine (h.shared hk hstep (by simp)).congr (fun n => ?_) rfl rfl
    simp [HubState.registered, hwaiters]
  | park hk hpc htake => exact h.park halone hk hpc
  | @deregister now c k name id w state hk hpc hremove =>
    have hstep := @Conn.SharedStep.deregistered now c k name id hpc
    exact (h.shared hk hstep (by simp)).remove (halone.shared now hk hstep) hremove
  | @loseRace now c k name id hk hpc hremove =>
    exact h.shared hk (@Conn.SharedStep.raceLost now c k name id hpc) (by simp)
  | @requeue now c k name source x hk hpc =>
    rw [routing_eq hk]
    have hstep := @Conn.SharedStep.requeued now c k name source x (routeEnvelope s.closed s.state x .front).2 hpc
    exact (h.shared hk hstep (by simp)).route (halone.shared now hk hstep) _ _

end Registry

theorem registry_of_reach {L : Libs} {roster : Roster} {audit : AuditLog} {s : Hub}
    (h : Reach L roster audit s) : Registry s :=
  Machine.ReachVia.invariant h (Registry.init audit) fun _ _ _ hr hP _ hs =>
    hP.step (allAlone_of_reach hr) (step_cases hs)

end Hub

end AgentHub
