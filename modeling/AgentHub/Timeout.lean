import AgentHub.Handoff
import AgentHub.Sample

/-!
# Timeouts consume nothing

The race between the timer of a parked await and a handoff. Of a task that has parked, and
has not died, exactly one of three things holds (`timeout_consumes_nothing`) : its waiter
is registered and its channel is empty, one envelope was sent into its channel, or its
timer branch took its waiter out.
-/

namespace AgentHub

/-- Exactly one of three. -/
def ExactlyOne (p q r : Prop) : Prop :=
  (p ∧ ¬q ∧ ¬r) ∨ (¬p ∧ q ∧ ¬r) ∨ (¬p ∧ ¬q ∧ r)

theorem ExactlyOne.intro {p q r : Prop} (h : p ∨ q ∨ r) (hpq : p → ¬q) (hpr : p → ¬r) (hqr : q → ¬r) :
    ExactlyOne p q r := by
  unfold ExactlyOne
  tauto

/-- Whether the timer of an await of the agent has fired. -/
def Pc.firedFor (name : String) : Pc → Bool
  | .timerFired n _ => n = name
  | _ => false

namespace Hub

/-- The waiter of `c` is registered once, with that id for that agent, and the channel of
`c` is empty. -/
structure StillParked (s : Hub) (c : ConnId) (name : String) (id : UInt64) (k : Conn) : Prop where
  once : (s.state.registered name).countP (fun w => w.tx = c) = 1
  id_eq : ∀ w ∈ s.state.registered name, w.tx = c → w.id = id
  elsewhere : ∀ n, n ≠ name → ∀ w ∈ s.state.registered n, w.tx ≠ c
  empty : k.chan.value = none
  unsent : handedTo c s.trace = []

/-- The waiter of `c` is gone, and exactly one envelope was sent into its channel. -/
structure HandedOne (s : Hub) (c : ConnId) : Prop where
  gone : ∀ n, ∀ w ∈ s.state.registered n, w.tx ≠ c
  sent : ∃ x, handedTo c s.trace = [x]

/-- `c` has deregistered itself, its channel is empty and nothing was ever sent into it. -/
structure TimedOut (s : Hub) (c : ConnId) (k : Conn) : Prop where
  deregistered : .deregistered c ∈ s.trace
  gone : ∀ n, ∀ w ∈ s.state.registered n, w.tx ≠ c
  empty : k.chan.value = none
  unsent : handedTo c s.trace = []

variable {L : Libs} {roster : Roster} {audit : AuditLog} {s : Hub} {c : ConnId} {k : Conn}

theorem gone_of_closed (hreg : Registry s) (hk : s.conns c = some k) (htx : k.chan.txAlive = false) :
    ∀ n, ∀ w ∈ s.state.registered n, w.tx ≠ c := by
  rintro n w hw rfl
  obtain ⟨kw, hkw⟩ := hreg.registered n w hw
  obtain rfl := Option.some.inj (hk.symm.trans hkw.conn)
  rw [hkw.txAlive] at htx
  cases htx

theorem stillParked_of_registered (hreg : Registry s) (halone : AllAlone L roster s)
    (hacc : Account c k s.trace) (hk : s.conns c = some k) {name : String} {id : UInt64} {w : Waiter}
    (hw : w ∈ s.state.registered name) (htx : w.tx = c) (hparked : .parked c name id ∈ s.trace) :
    StillParked s c name id k := by
  obtain ⟨kw, hkw⟩ := hreg.registered name w hw
  obtain rfl : k = kw := Option.some.inj (hk.symm.trans (htx ▸ hkw.conn))
  refine ⟨?_, fun v hv hvc => ?_, fun n hn v hv hvc => ?_, hkw.empty, ?_⟩
  · have hcount : ((s.state.registered name).map Waiter.tx).count c = 1 :=
      List.count_eq_one_of_mem (hreg.nodup name) (htx ▸ List.mem_map_of_mem hw)
    rw [List.count_eq_countP, List.countP_map] at hcount
    exact hcount
  · obtain ⟨kv, hkv⟩ := hreg.registered name v hv
    exact (halone.parked_unique (hvc ▸ hkv.parked) hparked).2
  · obtain ⟨kv, hkv⟩ := hreg.registered n v hv
    exact hn (halone.parked_unique (hvc ▸ hkv.parked) hparked).1
  · by_contra hne
    have := hacc.closed (Or.inl hne)
    rw [hkw.txAlive] at this
    cases this

/-- The three ways a parked await can stand. -/
theorem exactlyOne_of_parked (hreg : Registry s) (halone : AllAlone L roster s) (hacc : Account c k s.trace)
    (hk : s.conns c = some k) {name : String} {id : UInt64} (hparked : .parked c name id ∈ s.trace)
    (halive : k.pc ≠ .dead) :
    ExactlyOne (StillParked s c name id k) (HandedOne s c) (TimedOut s c k) := by
  refine ExactlyOne.intro ?_ ?_ ?_ ?_
  · by_cases hdereg : .deregistered c ∈ s.trace
    · have htx := hacc.closed (Or.inr hdereg)
      refine Or.inr (Or.inr ⟨hdereg, gone_of_closed hreg hk htx, ?_, hacc.timedOut hdereg⟩)
      by_contra hvalue
      obtain ⟨x, hx⟩ := Option.ne_none_iff_exists'.1 hvalue
      have := hacc.waiting (by simp [(hreg.of_value c k x hk hx).1])
      rw [hacc.timedOut hdereg, hx] at this
      cases this
    by_cases hwait : k.pc.waiting = none
    · obtain ⟨x, hx⟩ := hacc.served name id hparked hwait halive hdereg
      exact Or.inr (Or.inl ⟨gone_of_closed hreg hk (hacc.closed (Or.inl (by simp [hx]))), x, hx⟩)
    cases hvalue : k.chan.value with
    | some x =>
      have hx := hacc.waiting hwait
      rw [hvalue, Option.toList_some] at hx
      exact Or.inr (Or.inl ⟨gone_of_closed hreg hk (hacc.closed (Or.inl (by simp [hx]))), x, hx⟩)
    | none =>
      obtain ⟨n, hn⟩ := Option.ne_none_iff_exists'.1 hwait
      obtain ⟨w, hw, htx⟩ := hreg.of_open c k n hk hn (hacc.open_of_empty hwait hvalue)
      obtain ⟨kw, hkw⟩ := hreg.registered n w hw
      obtain rfl := (halone.parked_unique (htx ▸ hkw.parked) hparked).1
      exact Or.inl (stillParked_of_registered hreg halone hacc hk hw htx hparked)
  · rintro hp ⟨-, x, hx⟩
    rw [hp.unsent] at hx
    cases hx
  · intro hp ht
    obtain ⟨w, hw, htx⟩ := List.countP_pos_iff.1 (hp.once ▸ Nat.one_pos)
    exact ht.gone name w hw (by simpa using htx)
  · rintro ⟨-, x, hx⟩ ht
    rw [ht.unsent] at hx
    cases hx

/-- An await that was answered `timeout` has consumed nothing. -/
theorem unserved_of_timeout (h : Reach L roster audit s) (hacc : ∀ k, s.conns c = some k →
    Account c k s.trace) (hans : .answered c .timeout ∈ s.trace) :
    handedTo c s.trace = [] ∧ ∀ x, .took c x ∉ s.trace := by
  obtain ⟨k, hk⟩ := exists_conn_of_mem h hans
  obtain ⟨pre, post, hsplit, hdereg⟩ := (justified_of_reach h c).of_mem (mem_traceOf.2 ⟨hans, rfl⟩)
  have hmem : .deregistered c ∈ s.traceOf c := by
    rw [hsplit]
    exact List.mem_append_left _ hdereg
  obtain ⟨pre', post', hsplit', name, id, -, hparked⟩ := (justified_of_reach h c).of_mem hmem
  have hparked' : .parked c name id ∈ s.traceOf c := by
    rw [hsplit']
    exact List.mem_append_left _ hparked
  exact ⟨(hacc k hk).timedOut (mem_traceOf.1 hmem).1, fun x hx =>
    not_took_of_parked (justified_of_reach h c) hparked' (mem_traceOf.2 ⟨hx, rfl⟩)⟩

/-- A timer that fires after the handoff loses the race : the waiter is gone, and the next
poll finds the envelope. -/
theorem delivers_of_handed (hids : Ids s) (hparks : parks s.trace ≤ 2 ^ 64) (hreg : Registry s)
    (halone : AllAlone L roster s) (hacc : Account c k s.trace) (hk : s.conns c = some k)
    {name : String} {id : UInt64} {x : Stamped} (hpc : k.pc = .timerFired name id)
    (hx : handedTo c s.trace = [x]) (now now' : DateTime) :
    ∃ s₁ s₂, s.step L roster (now, .deregister c) = some s₁ ∧
      s₁.step L roster (now', .task c .polled) = some s₂ ∧
      s₂.pc c = some (.writing name x "handoff" 0) := by
  have hvalue : k.chan.value = some x := by
    have := hacc.waiting (by simp [hpc, Pc.waiting])
    rw [hx] at this
    cases hv : k.chan.value with
    | none => simp [hv] at this
    | some y => simpa [hv] using this.symm
  have hremove : removeWaiter s.state name id = none := by
    by_contra hne
    obtain ⟨⟨w, state⟩, hw⟩ := Option.ne_none_iff_exists'.1 hne
    obtain ⟨pre, post, hmem, -⟩ := removeWaiter_eq_some hw
    obtain ⟨kw, hkw⟩ := hreg.registered name w (by simp [hmem])
    have hown := hids.own_waiter hparks hreg halone hk hpc hw
    obtain rfl := Option.some.inj (hk.symm.trans (hown ▸ hkw.conn))
    rw [hkw.empty] at hvalue
    cases hvalue
  have h₁ : s.step L roster (now, .deregister c) =
      some (s.put c { k with pc := .lostRace name } []) := by
    simp [step, Hub.pc, hk, hpc, hremove, taskStep, Conn.step, put]
  have h₂ : (s.put c { k with pc := .lostRace name } []).step L roster (now', .task c .polled) =
      some ((s.put c { k with pc := .lostRace name } []).put c
        { k with pc := .writing name x "handoff" 0, chan := k.chan.dropRx } []) := by
    simp [step, Input.isLocal, taskStep, put, Conn.step, hvalue]
  exact ⟨_, _, h₁, h₂, by simp [Hub.pc, put]⟩

/-- In every run with fewer than `2 ^ 64` awaits that park : of a task that has parked and
is alive exactly one of the three holds; one that deregistered was and is handed nothing,
and an await answered `timeout` consumed nothing; a timer that fires after the handoff
leads to the delivery; `remove_waiter` removes the waiter of its caller only; and no task
finds its handoff channel closed and empty. -/
theorem timeout_consumes_nothing (h : Reach L roster audit s) (hparks : parks s.trace < 2 ^ 64) :
    (∀ c k name id, s.conns c = some k → .parked c name id ∈ s.trace → k.pc ≠ .dead →
      ExactlyOne (StillParked s c name id k) (HandedOne s c) (TimedOut s c k)) ∧
    (∀ c k, s.conns c = some k → .deregistered c ∈ s.trace →
      handedTo c s.trace = [] ∧ k.chan.value = none) ∧
    (∀ c, .answered c .timeout ∈ s.trace → handedTo c s.trace = [] ∧ ∀ x, .took c x ∉ s.trace) ∧
    (∀ c k name id x, s.conns c = some k → k.pc = .timerFired name id →
      handedTo c s.trace = [x] → ∀ now now',
        ∃ s₁ s₂, s.step L roster (now, .deregister c) = some s₁ ∧
          s₁.step L roster (now', .task c .polled) = some s₂ ∧
          s₂.pc c = some (.writing name x "handoff" 0)) ∧
    (∀ c k name id w state, s.conns c = some k → k.pc = .timerFired name id →
      removeWaiter s.state name id = some (w, state) → w.tx = c) ∧
    ∀ c k, s.conns c = some k → k.pc.waiting ≠ none →
      ¬(k.chan.value = none ∧ k.chan.txAlive = false) := by
  have hids := ids_of_reach h
  have hreg := registry_of_reach h
  have halone := allAlone_of_reach h
  have hacc : ∀ c k, s.conns c = some k → Account c k s.trace := fun c k hk =>
    (handoffs_of_reach h hparks.le).account hk
  refine ⟨fun c k name id hk hparked halive => ?_, fun c k hk hdereg => ?_, fun c hans => ?_,
    fun c k name id x hk hpc hx => ?_, fun c k name id w state hk hpc hremove => ?_,
    fun c k hk hwait hlost => ?_⟩
  · exact exactlyOne_of_parked hreg halone (hacc c k hk) hk hparked halive
  · refine ⟨(hacc c k hk).timedOut hdereg, ?_⟩
    by_contra hvalue
    obtain ⟨x, hx⟩ := Option.ne_none_iff_exists'.1 hvalue
    have := (hacc c k hk).waiting (by simp [(hreg.of_value c k x hk hx).1])
    rw [(hacc c k hk).timedOut hdereg, hx] at this
    cases this
  · exact unserved_of_timeout h (hacc c) hans
  · exact delivers_of_handed hids hparks.le hreg halone (hacc c k hk) hk hpc hx
  · exact hids.own_waiter hparks.le hreg halone hk hpc hremove
  · have := (hacc c k hk).open_of_empty hwait hlost.1
    rw [hlost.2] at this
    cases this

/-- The timer of an await fires after a send has handed it an envelope. -/
def race : List Action :=
  opening 0 aliceHello.bytes awaitAny.bytes ++ [.await 0] ++
  opening 1 bobHello.bytes sendTask.bytes ++ committing 1 (sampleEnvelope "m1" "task") ++
  [.task 0 .timer]

theorem timeout_consumes_nothing_race : ∃ s x, SampleReach s ∧ handedTo 0 s.trace = [x] ∧
    ∃ s₁ s₂, s.step sampleLibs sampleRoster (0, .deregister 0) = some s₁ ∧
      s₁.step sampleLibs sampleRoster (0, .task 0 .polled) = some s₂ ∧
      s₂.pc 0 = some (.writing "alice" x "handoff" 0) := by
  obtain ⟨s, h, hs⟩ := @exists_of_runSample race (fun s => parks s.trace < 2 ^ 64 ∧
    (handedTo 0 s.trace).length = 1 ∧ (s.pc 0).any (Pc.firedFor "alice")) (by decide +kernel)
  obtain ⟨hparks, hhanded, hpc⟩ := of_decide_eq_true hs
  obtain ⟨x, hx⟩ := List.length_eq_one_iff.1 hhanded
  obtain ⟨pc, hpc, htimer⟩ := Option.any_eq_true _ _ |>.1 hpc
  obtain ⟨k, hk, rfl⟩ := pc_eq_some.1 hpc
  cases hfired : k.pc with
  | timerFired name id =>
    obtain rfl : name = "alice" := by simpa [hfired, Pc.firedFor] using htimer
    exact ⟨s, x, h, hx, (timeout_consumes_nothing h hparks).2.2.2.1 0 k "alice" id x hk hfired hx 0 0⟩
  | _ => simp [hfired, Pc.firedFor] at htimer

end Hub

end AgentHub
