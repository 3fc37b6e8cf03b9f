import AgentHub.Custody
import AgentHub.Handoff
import AgentHub.Sample

/-!
# When waiter ids wrap

Waiter ids are `u64`s and `next_waiter_id += 1` wraps, so the `2 ^ 64 + 1`-st await that
parks gets the id of the first one. A timer branch that then finds the waiter of the other
await answers `timeout`, and drops what a send has put into its channel
(`vanishes_of_foreign_waiter`).

Any number of awaits can park (`crowd`), so the hub does reach such a state
(`exists_foreign_waiter`).
-/

namespace AgentHub

open Function

namespace Hub

variable {L : Libs} {roster : Roster} {audit : AuditLog} {s : Hub} {c : ConnId} {k : Conn}

/-- A timer branch that finds a waiter while there is an envelope in its channel drops the
envelope. -/
theorem vanishes_of_foreign_waiter (h : Reach L roster audit s) (hk : s.conns c = some k)
    {name : String} {id : UInt64} {w : Waiter} {state : HubState Stamped} {x : Stamped}
    (hpc : k.pc = .timerFired name id) (hvalue : k.chan.value = some x)
    (hremove : removeWaiter s.state name id = some (w, state)) :
    ∃ s', Reach L roster audit s' ∧ s'.trace = s.trace ++ [.deregistered c] ∧
      x ∈ routedOf s'.trace ∧ ∀ p, x ∉ s'.held p := by
  have hcustody := custody_of_reach h
  have hx : x ∈ s.held (.channel c) := by simp [held_channel hk, hvalue]
  have hstep := @step_deregister L roster s 0 c k _ _ _ _ hk hpc hremove
  refine ⟨_, .next h trivial hstep, by simp, ?_, fun p hp => ?_⟩
  · have := hcustody.routed _ x hx
    simpa [routedOf_append] using Or.inl this
  · rw [held_deregister hk hpc hremove] at hp
    split_ifs at hp with hpc
    · cases hp
    · exact hpc (hcustody.exclusive.apart p _ x x hp hx rfl)

/-- From `s₀` on, `n` awaits of `bob` have parked on the connections `1` to `n`, after one of `alice` on
connection `0`, and all are still parked. -/
structure Crowd (L : Libs) (s₀ : Hub) (n : ℕ) (s : Hub) : Prop where
  reach : Machine.ReachVia (step L sampleRoster) (fun _ a => a.2.conn ≠ 0) s₀ s
  auditLock : s.auditLock = none
  queues : ∀ name, s.state.queues name = none
  alice : s.state.registered "alice" = [⟨0, ⟨none, none⟩, 0⟩]
  next : s.state.nextWaiterId = UInt64.ofNat (n + 1)
  first : ∃ k, s.conns 0 = some k ∧ k.pc = .parked "alice" 0 (some 1) ∧ k.chan = .fresh
  fresh : ∀ d, n < d → s.conns d = none
  parks : parks s.trace = n + 1

theorem takeQueued_of_queues {state : HubState Stamped} {name : String} (filter : AwaitFilter)
    (h : state.queues name = none) : takeQueued state name filter = none := by
  simp [takeQueued, h]

/-- The await of an agent parks. -/
theorem reach_await_parked (hL : L.Serializes) {name token : String}
    (hello : (ClientLine.hello name token).Bytes L) (hroster : roster.get name = some token)
    (line : (ClientLine.await none none (some 1)).Bytes L) (hfree : s.auditLock = none)
    (hnew : s.conns c = none) (hqueue : s.state.queues name = none) :
    ∃ s' k, Machine.ReachVia (step L roster) (fun _ a => a.2.conn = c) s s' ∧ s'.auditLock = none ∧
      s'.state = s.state.park name ⟨none, none⟩ c ∧ s'.conns = update s.conns c (some k) ∧
      k.pc = .parked name s.state.nextWaiterId (some 1) ∧ k.chan = .fresh ∧
      parks s'.trace = parks s.trace + 1 := by
  obtain ⟨s', k, hreach, hlock, hstate, hconns, hpc, hchan, htrace⟩ :=
    @reach_parked L roster s c hL hfree hnew _ _ none none (some 1) hello hroster line (by simp)
      (by simp) (takeQueued_of_queues _ hqueue) "127.0.0.1:49152"
  refine ⟨s', k, hreach, hlock, hstate, hconns, hpc, hchan, ?_⟩
  rw [htrace, parks_append]
  rfl

/-- The connections but one act. -/
theorem others_of_own {d : ConnId} {s' : Hub} (hd : d ≠ c)
    (h : Machine.ReachVia (step L roster) (fun _ a => a.2.conn = d) s s') :
    Machine.ReachVia (step L roster) (fun _ a => a.2.conn ≠ c) s s' :=
  h.mono fun _ _ hconn => hconn.trans_ne hd

/-- A crowd of one. -/
theorem crowd_zero {k : Conn} (hstate : s.state = (HubState.empty Stamped).park "alice" ⟨none, none⟩ 0)
    (hfree : s.auditLock = none) (hconns : s.conns = update (fun _ => none) 0 (some k))
    (hpc : k.pc = .parked "alice" 0 (some 1)) (hchan : k.chan = .fresh) (hparks : parks s.trace = 1) :
    Crowd L s 0 s where
  reach := .init
  auditLock := hfree
  queues name := by
    rw [hstate]
    rfl
  alice := by
    rw [hstate, registered_park]
    rfl
  next := by
    rw [hstate]
    rfl
  first := ⟨k, by rw [hconns, update_self], hpc, hchan⟩
  fresh d hd := by rw [hconns, update_of_ne (Nat.pos_iff_ne_zero.1 hd)]
  parks := hparks

section

variable {s₀ : Hub} (hL : L.Serializes) (bob : (ClientLine.hello "bob" "b-token").Bytes L)
  (line : (ClientLine.await none none (some 1)).Bytes L)

include hL bob line

theorem crowd (h₀ : Crowd L s₀ 0 s₀) (n : ℕ) : ∃ s, Crowd L s₀ n s := by
  induction n with
  | zero => exact ⟨s₀, h₀⟩
  | succ n ih =>
    obtain ⟨s, h⟩ := ih
    obtain ⟨s', k, hreach, hlock, hstate, hconns, -, -, hparks⟩ :=
      @reach_await_parked L sampleRoster s (n + 1) hL _ _ bob rfl line h.auditLock
        (h.fresh _ (by omega)) (h.queues _)
    obtain ⟨k₀, hk₀, hpc₀, hchan₀⟩ := h.first
    refine ⟨s', h.reach.trans (others_of_own n.succ_ne_zero hreach), hlock, fun name => ?_, ?_, ?_,
      ⟨k₀, ?_, hpc₀, hchan₀⟩, fun d hd => ?_, by rw [hparks, h.parks]⟩
    · rw [hstate]
      exact h.queues name
    · rw [hstate, registered_park, if_neg (by decide), h.alice]
    · rw [hstate]
      simp [HubState.park, h.next]
    · rw [hconns, update_of_ne n.succ_ne_zero.symm, hk₀]
    · have hne : d ≠ n + 1 := by omega
      rw [hconns, update_of_ne hne, h.fresh d (by omega)]

/-- After `2 ^ 64` awaits another one of `alice` parks with the id of her first one, and a send goes
to the first one. -/
theorem exists_shared_id (alice : (ClientLine.hello "alice" "a-token").Bytes L)
    (task : (ClientLine.send (sampleEnvelope "m1" "task")).Bytes L)
    (hvalid : (sampleEnvelope "m1" "task").validate L.parseFromRfc3339 = .ok ()) (h₀ : Crowd L s₀ 0 s₀) :
    ∃ s k x w state, Machine.ReachVia (step L sampleRoster) (fun _ a => a.2.conn ≠ 0) s₀ s ∧
      parks s.trace = 2 ^ 64 + 1 ∧ s.conns 0 = some k ∧ k.pc = .parked "alice" 0 (some 1) ∧
      k.chan.value = some x ∧ removeWaiter s.state "alice" 0 = some (w, state) ∧ w.tx ≠ 0 := by
  obtain ⟨s, h⟩ := crowd hL bob line h₀ (2 ^ 64 - 1)
  obtain ⟨k₀, hk₀, hpc₀, hchan₀⟩ := h.first
  have hnext : s.state.nextWaiterId = 0 := by
    rw [h.next]
    decide
  -- the second await of `alice`
  obtain ⟨s₁, k₁, hreach₁, hlock₁, hstate₁, hconns₁, hpc₁, hchan₁, hparks₁⟩ :=
    @reach_await_parked L sampleRoster s (2 ^ 64) hL _ _ alice rfl line h.auditLock
      (h.fresh _ (by decide)) (h.queues _)
  have halice : s₁.state.registered "alice" = [⟨0, ⟨none, none⟩, 0⟩, ⟨0, ⟨none, none⟩, 2 ^ 64⟩] := by
    rw [hstate₁, registered_park, if_pos rfl, h.alice, hnext]
    rfl
  have hk₁ : s₁.conns 0 = some k₀ := by rw [hconns₁, update_of_ne (by decide), hk₀]
  -- the send
  let x : Stamped := ⟨sampleEnvelope "m1" "task", (acceptedOf s₁.trace).length⟩
  obtain ⟨s₂, hreach₂, hlock₂, hstate₂, hothers₂, htrace₂⟩ :=
    @reach_committed L sampleRoster s₁ (2 ^ 64 + 1) hL hlock₁
      (by rw [hconns₁, update_of_ne (by decide), h.fresh _ (by decide)]) _ _ _ bob rfl task hvalid
      "127.0.0.1:49153" x rfl
  obtain ⟨hout, hleft⟩ := handedOff_head s₁.closed s₁.state x .back (b := toLex (false, false)) halice
    (by simp [closed, hk₁, hchan₀, Oneshot.fresh]) rfl fun v hv a ha => by
      rw [List.mem_singleton.1 hv] at ha
      exact (Option.some.inj ha).symm.le
  have hopen : s₁.closed (2 ^ 64) = false := by
    simp [closed, hconns₁, hchan₁, Oneshot.fresh]
  have halice₂ : s₂.state.registered "alice" = [⟨0, ⟨none, none⟩, 2 ^ 64⟩] := by
    rw [hstate₂]
    refine hleft.trans (List.filter_cons_of_pos ?_)
    rw [staysAfter, hopen, Bool.false_and, Bool.not_false]
  have hk₂ : s₂.conns 0 = some { k₀ with chan := k₀.chan.send x } := by
    rw [hothers₂ 0 (by decide), hk₁, Option.map_some, if_pos hout]
  have hparks₂ : parks s₂.trace = 2 ^ 64 + 1 := by
    rw [htrace₂, parks_append, hparks₁, h.parks]
    rfl
  -- the waiter that is left
  obtain ⟨r, hremove⟩ : ∃ r, removeWaiter s₂.state "alice" 0 = some r := by
    by_contra hne
    have hnone := Option.eq_none_iff_forall_ne_some.2 fun r hr => hne ⟨r, hr⟩
    exact removeWaiter_eq_none hnone ⟨0, ⟨none, none⟩, 2 ^ 64⟩ (by simp [halice₂]) rfl
  obtain ⟨pre, post, hmem, -⟩ := removeWaiter_eq_some hremove
  have hw : r.1 = ⟨0, ⟨none, none⟩, 2 ^ 64⟩ := by
    have : r.1 ∈ s₂.state.registered "alice" := by
      rw [hmem]
      simp
    rwa [halice₂, List.mem_singleton] at this
  exact ⟨s₂, _, x, r.1, r.2,
    (h.reach.trans (others_of_own (by decide) hreach₁)).trans (others_of_own (by decide) hreach₂),
    hparks₂, hk₂, hpc₀, rfl, hremove, by rw [hw]; decide⟩

end

/-- The timer of the first await fires. -/
theorem exists_foreign_waiter : ∃ s k x w state, Reach sampleLibs sampleRoster sampleAudit s ∧
    parks s.trace = 2 ^ 64 + 1 ∧ s.conns 0 = some k ∧ k.pc = .timerFired "alice" 0 ∧
    k.chan.value = some x ∧ removeWaiter s.state "alice" 0 = some (w, state) := by
  obtain ⟨s₀, k₀, hreach₀, hlock₀, hstate₀, hconns₀, hpc₀, hchan₀, hparks₀⟩ :=
    @reach_await_parked sampleLibs sampleRoster (Hub.init sampleAudit) 0 sampleLibs_serializes _ _
      aliceHello rfl awaitAny rfl rfl rfl
  have h₀ : Crowd sampleLibs s₀ 0 s₀ := crowd_zero hstate₀ hlock₀ hconns₀ hpc₀ hchan₀ hparks₀
  obtain ⟨s, k, x, w, state, hreach, hparks, hk, hpc, hvalue, hremove, -⟩ :=
    exists_shared_id sampleLibs_serializes bobHello awaitAny aliceHello sendTask rfl h₀
  have htimer := @reach_timerFired sampleLibs sampleRoster s 0 _ _ _ _ hk hpc
  exact ⟨s.put 0 { k with pc := .timerFired "alice" 0 } [], { k with pc := .timerFired "alice" 0 }, x, w, state,
    (hreach₀.reach.trans hreach.reach).trans htimer.reach, by simpa using hparks,
    by rw [put_conns, if_pos rfl], rfl, hvalue, hremove⟩

end Hub

end AgentHub
