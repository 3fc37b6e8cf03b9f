import AgentHub.Custody
import AgentHub.Handoff
import AgentHub.Matching
import AgentHub.Wraparound

/-!
# Conservation

Every committed envelope is in exactly one place, unchanged, as long as no waiter id is
drawn twice (`conservation`). `Custody` says that it is never in two. What is left is that
no step loses one : a timer branch could drop what is in its channel only by removing the
waiter of another await.

Along the way : the place an envelope is in belongs to the agent it is addressed to
(`Addressed`), and a connection that has accepted bytes of an envelope owns it until it is
written or lost (`touched_of_run`).
-/

namespace AgentHub

open Function

/-- The recipient and the lost envelope a bounce is about. -/
def Role.delivers : Role → Option (String × Stamped)
  | .bounce x name => some (name, x)
  | .send _ => none

/-- The agent for which a task delivers or has lost an envelope, and that envelope. -/
def Pc.delivers : Pc → Option (String × Stamped)
  | .writing name x _ _ | .requeueing name x _ | .bouncing name x => some (name, x)
  | .committing _ role _ => role.delivers
  | _ => none

/-- What an envelope for the agent `name` can be held by : the queue of `name`, or the
connection of an await of `name`. -/
def Place.For (trace : List Obs) (name : String) : Place → Prop
  | .queue n => n = name
  | .channel c | .task c | .written c | .lost c => Awaits c trace name

section Task

variable {L : Libs} {roster : Roster} {now : DateTime} {c : ConnId} {k k' : Conn} {obs : List Obs}

/-- A task delivers on, or begins with what is in its channel. -/
theorem delivers_of_localStep (h : k.LocalStep L roster now c k' obs) {name : String} {x : Stamped}
    (hd : k'.pc.delivers = some (name, x)) : k.pc.delivers = some (name, x) ∨
      (k.pc.waiting = some name ∧ k.chan.value = some x) := by
  cases h with
  | helloRefused hpc hfill hrefuse | verbRefused hpc hfill hrefuse => cases hrefuse <;> cases hd
  | handed hwaits hvalue =>
    cases hd
    refine Or.inr ⟨?_, hvalue⟩
    generalize k.pc = pc at hwaits
    cases hwaits <;> rfl
  | wroteMore hpc | failedClean hpc | failedPartial hpc | bounced hpc =>
    cases hd
    exact Or.inl (by rw [hpc]; rfl)
  | peerClosed => exact Or.inl hd
  | _ => cases hd

theorem delivers_of_sharedStep {i : Input} (h : k.SharedStep now c i k' obs)
    (hi : ∀ x, i ≠ .took x) {name : String} {x : Stamped} (hd : k'.pc.delivers = some (name, x)) :
    k.pc.delivers = some (name, x) := by
  cases h with
  | took => exact absurd rfl (hi _)
  | lockedCommit hpc | accepted hpc | refused hpc | routed hpc =>
    rw [hpc]
    exact hd
  | unlocked hpc =>
    generalize k.pc = p at hpc
    unfold Conn.afterUnlock at hpc
    split at hpc
    · rename_i next
      cases next <;> cases hpc <;> cases hd
    · cases hpc
      cases hd
    · cases hpc
      cases hd
    · cases hpc
      cases hd
    · cases hpc
      cases hd
    · cases hpc
  | _ => cases hd

/-- Bytes of `x` are accepted, and it is not written or lost yet. -/
def Pc.touches (x : Stamped) : Pc → Prop
  | .writing _ y _ written => y = x ∧ 0 < written
  | _ => False

theorem touched_of_localStep (h : k.LocalStep L roster now c k' obs) (x : Stamped)
    (hx : k.pc.touches x ∨ .bytes c x ∈ obs) :
    k'.pc.touches x ∨ .written c x ∈ obs ∨ .lost c x ∈ obs := by
  cases h with
  | wroteMore hpc hlt =>
    rw [hpc] at hx
    refine Or.inl ⟨?_, by omega⟩
    rcases hx with hx | hx
    · exact hx.1
    · simpa [eq_comm] using hx
  | wroteAll hpc hobs =>
    rw [hpc] at hx
    refine Or.inr (Or.inl ?_)
    rcases hx with ⟨rfl, -⟩ | hx
    · simp
    · rcases hobs with rfl | rfl
      · simp at hx
      · simp at hx
        simp [hx]
  | failedClean hpc =>
    rw [hpc] at hx
    rcases hx with ⟨-, hx⟩ | hx
    · exact absurd hx (lt_irrefl 0)
    · cases hx
  | failedPartial hpc | bounceLost hpc =>
    rw [hpc] at hx
    rcases hx with ⟨rfl, -⟩ | hx
    · simp
    · simp at hx
  | peerClosed =>
    rcases hx with hx | hx
    · exact Or.inl hx
    · simp at hx
  | handed hwaits | channelLost hwaits =>
    generalize k.pc = pc at hwaits hx
    cases hwaits <;> simp [Pc.touches] at hx
  | died hmortal =>
    generalize k.pc = pc at hmortal hx
    cases hmortal <;> simp [Pc.touches] at hx
  | helloMore hpc | helloRefused hpc | helloAccepted hpc | verbMore hpc | verbRefused hpc
  | verbInvalid hpc | verbSend hpc | verbAwait hpc | repliedVerb hpc | replyLost hpc | answered hpc
  | timer hpc | bounced hpc =>
    rw [hpc] at hx
    simp [Pc.touches] at hx

theorem touched_of_sharedStep {i : Input} (h : k.SharedStep now c i k' obs) (x : Stamped) :
    ¬k.pc.touches x ∧ .bytes c x ∉ obs := by
  cases h with
  | unlocked hpc =>
    refine ⟨?_, by simp⟩
    generalize k.pc = p at hpc
    unfold Conn.afterUnlock at hpc
    split at hpc
    · exact id
    · exact id
    · exact id
    · exact id
    · exact id
    · cases hpc
  | lockedAudit hpc | lockedCommit hpc | logged hpc | unlogged hpc | accepted hpc | refused hpc
  | routed hpc | took hpc | parked hpc | deregistered hpc | raceLost hpc | requeued hpc =>
    rw [hpc]
    simp [Pc.touches]

/-- A connection that has accepted bytes of an envelope is writing it, has written it or
has lost it. -/
theorem touched_of_run {t : List Obs} (h : Conn.Run L roster c t k) (x : Stamped)
    (hx : .bytes c x ∈ t) : k.pc.touches x ∨ .written c x ∈ t ∨ .lost c x ∈ t := by
  have hrun := @Conn.Run.pending_or_closed L roster c (Pc.touches x) (· = .bytes c x)
    (fun o => o = .written c x ∨ o = .lost c x)
    (fun hstep ho => by
      simpa [and_or_left, exists_or] using touched_of_localStep hstep x (by simpa using ho))
    (fun hstep ho => by
      obtain ⟨hno, hobs⟩ := touched_of_sharedStep hstep x
      exact absurd (by simpa using ho) (not_or.2 ⟨hno, hobs⟩))
    t k h ⟨_, hx, rfl⟩
  simpa [and_or_left, exists_or] using hrun

/-- What is written or lost is what the task owned. -/
theorem carried_of_localStep (h : k.LocalStep L roster now c k' obs) {d : ConnId} {x : Stamped}
    (hx : .written d x ∈ obs ∨ .lost d x ∈ obs) : d = c ∧ k.pc.carried = some x := by
  have hd : d = c := by
    rcases hx with hx | hx
    · exact conn_of_localStep h _ hx
    · exact conn_of_localStep h _ hx
  subst hd
  rw [← mem_writtenTo, ← mem_lostOn] at hx
  refine ⟨rfl, ?_⟩
  cases moves_of_localStep h with
  | same hvalue hpc hwritten hlost => simp [hwritten, hlost] at hx
  | handed y hvalue hvalue' hpc hpc' hwritten hlost => simp [hwritten, hlost] at hx
  | written y hvalue hpc hpc' hwritten hlost | lost y hvalue hpc hpc' hwritten hlost =>
    obtain rfl : x = y := by simpa [hwritten, hlost] using hx
    exact hpc

theorem not_carried_of_sharedStep {i : Input} (h : k.SharedStep now c i k' obs) {d : ConnId}
    {x : Stamped} : .written d x ∉ obs ∧ .lost d x ∉ obs := by
  cases h <;> simp

theorem not_accepted_of_localStep (h : k.LocalStep L roster now c k' obs) {d : ConnId} {role : Role}
    {ts : DateTime} {x : Stamped} : .accepted d role ts x ∉ obs := by
  cases h with
  | wroteAll hpc hobs => rcases hobs with rfl | rfl <;> simp
  | _ => simp

/-- What is accepted in a role is accepted at the commit in that role. -/
theorem role_of_sharedStep {i : Input} (h : k.SharedStep now c i k' obs) {d : ConnId} {role : Role}
    {ts : DateTime} {x : Stamped} (hx : .accepted d role ts x ∈ obs) :
    d = c ∧ k.pc = .committing .locked role x.envelope := by
  cases h with
  | accepted hpc =>
    simp only [List.mem_singleton, Obs.accepted.injEq] at hx
    obtain ⟨rfl, rfl, -, rfl⟩ := hx
    exact ⟨rfl, hpc⟩
  | _ => simp at hx

theorem Pc.exists_delivers {pc : Pc} {x : Stamped} (h : pc.carried = some x) :
    ∃ name, pc.delivers = some (name, x) := by
  cases pc with
  | writing name y source written | requeueing name y source =>
    cases h
    exact ⟨name, rfl⟩
  | _ => cases h

/-- A task delivers for the agent that awaits on its connection. -/
theorem awaits_of_delivers {t : List Obs} {pc : Pc} {name : String} {x : Stamped}
    (hk : pc.Known L c t) (h : pc.delivers = some (name, x)) : Awaits c t name := by
  cases pc with
  | writing n y source written =>
    cases h
    exact hk.1
  | requeueing n y source =>
    cases h
    exact hk
  | bouncing n y =>
    cases h
    exact hk.2.2
  | committing phase role e =>
    cases role with
    | send n => cases h
    | bounce y n =>
      cases h
      exact hk.1.2.2.1
  | _ => cases h

end Task

section State

variable {ε : Type} [Carries ε] {closed : ConnId → Bool} {state state' : HubState ε}

/-- Every queued envelope is in the queue of the agent it is addressed to. -/
def HubState.Keyed (state : HubState ε) : Prop :=
  ∀ n, ∀ x ∈ state.queue n, (Carries.envelope x).to = n

theorem HubState.Keyed.route (h : state.Keyed) (x : ε) (p : QueuePlacement) :
    (routeEnvelope closed state x p).1.Keyed := by
  intro n y hy
  cases hout : (routeEnvelope closed state x p).2 with
  | handedOff tx =>
    obtain ⟨pre, w, post, -, -, -, -, -, hqueues⟩ := handedOff_spec closed state x p hout
    simp only [HubState.queue, hqueues] at hy
    exact h n y hy
  | queued depth =>
    obtain ⟨-, -, hqueues⟩ := queued_spec closed state x p hout
    have hqueue : (routeEnvelope closed state x p).1.queue n = (state.enqueue x p).1.queue n := by
      simp only [HubState.queue, hqueues]
    rw [hqueue, queue_enqueue] at hy
    split_ifs at hy with hn
    · have hy' : y = x ∨ y ∈ state.queue n := by
        cases p <;> simpa [or_comm] using hy
      rcases hy' with rfl | hy
      · exact hn.symm
      · exact h n y hy
    · exact h n y hy

theorem HubState.Keyed.op (h : state.Keyed) (hop : HubState.Op closed state state') :
    state'.Keyed := by
  cases hop with
  | none => exact h
  | route x p => exact h.route x p
  | take htake =>
    obtain ⟨pre, post, hq, -, -, hqueue, -⟩ := takeQueued_eq_some htake
    intro n x hx
    rw [hqueue] at hx
    split_ifs at hx with hn
    · refine h n x ?_
      rw [hn, hq]
      simp only [List.mem_append, List.mem_cons] at hx ⊢
      tauto
    · exact h n x hx
  | park => exact h
  | remove hremove =>
    obtain ⟨pre, post, -, -, -, -, hqueues, -⟩ := removeWaiter_eq_some hremove
    intro n x hx
    simp only [HubState.queue, hqueues] at hx
    exact h n x hx

end State

namespace Hub

variable {L : Libs} {roster : Roster} {audit : AuditLog} {s s' : Hub}

/-! ## Recipients -/

/-- Envelopes are queued, delivered and lost for the agent they are addressed to. -/
structure Addressed (s : Hub) : Prop where
  keyed : s.state.Keyed
  delivers : ∀ c k name x, s.conns c = some k → k.pc.delivers = some (name, x) →
    x.envelope.to = name
  served : ∀ c x, x ∈ s.held (.written c) ∨ x ∈ s.held (.lost c) →
    Awaits c s.trace x.envelope.to
  bounced : ∀ c x name ts y, .accepted c (.bounce x name) ts y ∈ s.trace → x.envelope.to = name

theorem Addressed.init (audit : AuditLog) : Addressed (Hub.init audit) where
  keyed n x hx := by cases hx
  delivers c k name x hk := by cases hk
  served c x hx := by rcases hx with hx | hx <;> cases hx
  bounced c x name ts y hy := by cases hy

/-- For whom a task delivers after a step : the agent it delivered for, or waited for, or
took the envelope from the queue of. -/
theorem delivers_of_step {a : DateTime × Action} (h : Step L roster s a s') {d : ConnId}
    {k' : Conn} {name : String} {x : Stamped} (hk' : s'.conns d = some k')
    (hd : k'.pc.delivers = some (name, x)) :
    (∃ k, s.conns d = some k ∧ (k.pc.delivers = some (name, x) ∨
      (k.pc.waiting = some name ∧ k.chan.value = some x))) ∨ x ∈ s.state.queue name := by
  have hput : ∀ {c : ConnId} {k₁ : Conn}, update s.conns c (some k₁) d = some k' →
      (d = c ∧ k' = k₁) ∨ (d ≠ c ∧ s.conns d = some k') := by
    intro c k₁ hput
    by_cases hdc : d = c
    · rw [hdc, update_self] at hput
      exact Or.inl ⟨hdc, (Option.some.inj hput).symm⟩
    · rw [update_of_ne hdc] at hput
      exact Or.inr ⟨hdc, hput⟩
  have hother : s.conns d = some k' → (∃ k, s.conns d = some k ∧ (k.pc.delivers = some (name, x) ∨
      (k.pc.waiting = some name ∧ k.chan.value = some x))) ∨ x ∈ s.state.queue name :=
    fun hk => Or.inl ⟨k', hk, Or.inl hd⟩
  cases h with
  | accept hnew =>
    rcases hput hk' with ⟨rfl, rfl⟩ | ⟨-, hk⟩
    · cases hd
    · exact hother hk
  | task hk hstep =>
    rcases hput hk' with ⟨rfl, rfl⟩ | ⟨-, hk⟩
    · exact Or.inl ⟨_, hk, delivers_of_localStep hstep hd⟩
    · exact hother hk
  | lockAudit hfree hk hstep | append hlock hk hevent hwrite hstep =>
    rcases hput hk' with ⟨rfl, rfl⟩ | ⟨-, hk⟩
    · exact Or.inl ⟨_, hk, Or.inl (delivers_of_sharedStep hstep (by simp) hd)⟩
    · exact hother hk
  | @unlockAudit now c k pc hlock hk hpc =>
    rcases hput hk' with ⟨rfl, rfl⟩ | ⟨-, hk⟩
    · exact Or.inl ⟨_, hk, Or.inl
        (delivers_of_sharedStep (@Conn.SharedStep.unlocked now d k pc hpc) (by simp) hd)⟩
    · exact hother hk
  | take hk hpc htake =>
    rcases hput hk' with ⟨rfl, rfl⟩ | ⟨-, hk⟩
    · cases hd
      obtain ⟨pre, post, hq, -⟩ := takeQueued_eq_some htake
      exact Or.inr (by rw [hq]; simp)
    · exact hother hk
  | park hk hpc htake | loseRace hk hpc hremove =>
    rcases hput hk' with ⟨rfl, rfl⟩ | ⟨-, hk⟩
    · cases hd
    · exact hother hk
  | deregister hk hpc hremove =>
    rw [onChan_conns] at hk'
    obtain ⟨k₁, hk₁, rfl⟩ := Option.map_eq_some_iff.1 hk'
    have hpc₁ : k₁.pc.delivers = some (name, x) := by split_ifs at hd <;> exact hd
    rw [put_conns] at hk₁
    split_ifs at hk₁
    · cases hk₁
      cases hpc₁
    · exact Or.inl ⟨k₁, hk₁, Or.inl hpc₁⟩
  | @route now c k y role e hk hpc =>
    rw [routing_conns] at hk'
    obtain ⟨k₁, hk₁, rfl⟩ := Option.map_eq_some_iff.1 hk'
    have hpc₁ : k₁.pc.delivers = some (name, x) := by split_ifs at hd <;> exact hd
    split_ifs at hk₁ with hdc
    · cases hk₁
      exact Or.inl ⟨k, hdc ▸ hk, Or.inl (by rw [hpc]; exact hpc₁)⟩
    · exact Or.inl ⟨k₁, hk₁, Or.inl hpc₁⟩
  | requeue hk hpc =>
    rw [routing_conns] at hk'
    obtain ⟨k₁, hk₁, rfl⟩ := Option.map_eq_some_iff.1 hk'
    have hpc₁ : k₁.pc.delivers = some (name, x) := by split_ifs at hd <;> exact hd
    split_ifs at hk₁ with hdc
    · cases hk₁
      cases hpc₁
    · exact Or.inl ⟨k₁, hk₁, Or.inl hpc₁⟩

theorem Addressed.step {a : DateTime × Action} (h : Addressed s) (hreg : Registry s)
    (halone : AllAlone L roster s) (hstep : Step L roster s a s') : Addressed s' := by
  have htrace := trace_prefix_of_step hstep
  refine ⟨h.keyed.op (op_of_step hstep), fun c k' name x hk' hd => ?_, fun c x hx => ?_,
    fun c x name ts y hy => ?_⟩
  · rcases delivers_of_step hstep hk' hd with ⟨k, hk, hd | ⟨hwait, hvalue⟩⟩ | hq
    · exact h.delivers c k name x hk hd
    · exact Option.some.inj ((hreg.of_value c k x hk hvalue).1.symm.trans hwait)
    · exact h.keyed name x hq
  · have hold : .written c x ∈ s.trace ∨ .lost c x ∈ s.trace →
        Awaits c s'.trace x.envelope.to := fun ho =>
      (h.served c x (ho.imp mem_writtenTo.2 mem_lostOn.2)).mono htrace.subset
    replace hx : .written c x ∈ s'.trace ∨ .lost c x ∈ s'.trace :=
      hx.imp mem_writtenTo.1 mem_lostOn.1
    rcases task_of_step hstep with ⟨-, heq, -⟩ | ⟨k, k', obs, hk, -, heq, hemit⟩
    · exact hold (heq ▸ hx)
    · rw [heq, List.mem_append, List.mem_append] at hx
      by_cases hnew : .written c x ∈ obs ∨ .lost c x ∈ obs
      · rcases hemit with hlocal | ⟨i, hshared, -⟩
        · obtain ⟨rfl, hcarried⟩ := carried_of_localStep hlocal hnew
          obtain ⟨name, hd⟩ := Pc.exists_delivers hcarried
          have hawaits := awaits_of_delivers (known_of_run (halone.run hk)).1 hd
          rw [h.delivers _ k name x hk hd]
          exact hawaits.mono (List.Subset.trans List.filter_sublist.subset htrace.subset)
        · have := @not_carried_of_sharedStep _ _ _ _ _ _ hshared c x
          tauto
      · exact hold (by tauto)
  · rcases task_of_step hstep with ⟨-, heq, -⟩ | ⟨k, k', obs, hk, -, heq, hemit⟩
    · exact h.bounced c x name ts y (heq ▸ hy)
    · rw [heq, List.mem_append] at hy
      rcases hy with hy | hy
      · exact h.bounced c x name ts y hy
      · rcases hemit with hlocal | ⟨i, hshared, -⟩
        · exact absurd hy (not_accepted_of_localStep hlocal)
        · obtain ⟨rfl, hpc⟩ := role_of_sharedStep hshared hy
          exact h.delivers _ k name x hk (by rw [hpc]; rfl)

theorem addressed_of_reach (h : Reach L roster audit s) : Addressed s :=
  Machine.ReachVia.invariant h (Addressed.init audit) fun _ _ _ hr hP _ hs =>
    hP.step (registry_of_reach hr) (allAlone_of_reach hr) (step_cases hs)

/-! ## Nothing is lost on the way -/

/-- Every routed envelope is somewhere. -/
def Kept (s : Hub) : Prop :=
  ∀ x ∈ routedOf s.trace, ∃ p, x ∈ s.held p

theorem Kept.step {a : DateTime × Action} (h : Kept s) (hids : Ids s)
    (hparks : parks s.trace ≤ 2 ^ 64) (hreg : Registry s) (halone : AllAlone L roster s)
    (hstep : Step L roster s a s') : Kept s' := by
  intro x hx
  rcases transfer_of_step hreg hstep with
    ⟨new, ht, hrouted, -⟩ | ⟨hrouted, c, k, name, id, w, state, hk, hpc, hremove, hheld⟩
  · rw [hrouted, List.mem_append] at hx
    exact (ht.mem_iff x).2 (hx.imp_left (h x))
  · -- the timer branch removes its own waiter, whose channel is empty
    obtain ⟨p, hp⟩ := h x (hrouted ▸ hx)
    have hown := hids.own_waiter hparks hreg halone hk hpc hremove
    obtain ⟨pre, post, hw, -⟩ := removeWaiter_eq_some hremove
    obtain ⟨kw, hkw⟩ := hreg.registered name w (by simp [hw])
    have hne : p ≠ .channel c := by
      rintro rfl
      rw [← hown, held_channel hkw.conn, hkw.empty] at hp
      cases hp
    exact ⟨p, by rwa [hheld, if_neg hne]⟩

theorem kept_of_reach (h : Reach L roster audit s) (hparks : parks s.trace ≤ 2 ^ 64) : Kept s := by
  refine Machine.ReachVia.invariant (P := fun s => parks s.trace ≤ 2 ^ 64 → Kept s) h
    (fun _ x hx => by cases hx) (fun s a s' hr hP _ hs hb => ?_) hparks
  have hstep := step_cases hs
  have hle : parks s.trace ≤ 2 ^ 64 := by
    obtain ⟨t, ht⟩ := trace_prefix_of_step hstep
    rw [← ht, parks_append] at hb
    omega
  exact (hP hle).step (ids_of_reach hr) hle (registry_of_reach hr) (allAlone_of_reach hr) hstep

theorem for_of_held (h : Reach L roster audit s) {p : Place} {x : Stamped} (hx : x ∈ s.held p) :
    p.For s.trace x.envelope.to := by
  have haddr := addressed_of_reach h
  have hsub : ∀ c, s.traceOf c ⊆ s.trace := fun c => List.filter_sublist.subset
  cases p with
  | queue n => exact (haddr.keyed n x hx).symm
  | channel c =>
    cases hk : s.conns c with
    | none => simp [held, hk] at hx
    | some k =>
      have hvalue : k.chan.value = some x := by simpa [held, hk] using hx
      have hwait := ((registry_of_reach h).of_value c k x hk hvalue).1
      have hknown := (known_of_run (run_of_reach h hk)).1
      generalize k.pc = pc at hwait hknown
      cases pc with
      | parked name | timerFired name | lostRace name =>
        cases hwait
        exact hknown.1.mono (hsub c)
      | _ => cases hwait
  | task c =>
    cases hk : s.conns c with
    | none => simp [held, hk] at hx
    | some k =>
      have hcarried : k.pc.carried = some x := by simpa [held, hk] using hx
      obtain ⟨name, hd⟩ := Pc.exists_delivers hcarried
      have hawaits := awaits_of_delivers (known_of_run (run_of_reach h hk)).1 hd
      rw [haddr.delivers c k name x hk hd]
      exact hawaits.mono (hsub c)
  | written c => exact haddr.served c x (Or.inl hx)
  | lost c => exact haddr.served c x (Or.inr hx)

/-- Bytes of an envelope go to the connection that holds it. -/
theorem held_of_bytes (h : Reach L roster audit s) {c : ConnId} {x : Stamped}
    (hx : .bytes c x ∈ s.trace) : ∃ p, x ∈ s.held p ∧ (p = .task c ∨ p = .written c ∨ p = .lost c) := by
  obtain ⟨k, hk⟩ : ∃ k, s.conns c = some k := exists_conn_of_mem h hx
  rcases touched_of_run (run_of_reach h hk) x (mem_traceOf.2 ⟨hx, rfl⟩) with hpc | hx | hx
  · refine ⟨.task c, ?_, Or.inl rfl⟩
    rw [held_task hk]
    generalize k.pc = pc at hpc
    cases pc with
    | writing name y source written =>
      rw [← hpc.1]
      exact List.mem_singleton_self y
    | _ => cases hpc
  · exact ⟨.written c, mem_writtenTo.2 (mem_traceOf.1 hx).1, Or.inr (Or.inl rfl)⟩
  · exact ⟨.lost c, mem_lostOn.2 (mem_traceOf.1 hx).1, Or.inr (Or.inr rfl)⟩

/-- An accepted envelope that is not routed is in its commit. -/
theorem exists_unrouted (h : Reach L roster audit s) {x : Stamped} (hx : x ∈ acceptedOf s.trace)
    (hrouted : x ∉ routedOf s.trace) : ∃ c k, s.conns c = some k ∧ k.pc.unrouted = some x := by
  have horder := auditOrder_of_reach h
  by_contra hnone
  have hall : ∀ d k, s.conns d = some k → k.pc.unrouted = none := by
    intro d k hk
    by_contra hne
    obtain ⟨y, hy⟩ := Option.ne_none_iff_exists'.1 hne
    rw [horder.pending d k y hk hy, List.mem_append, List.mem_singleton] at hx
    rcases hx with hx | rfl
    · exact hrouted hx
    · exact hnone ⟨d, k, hk, hy⟩
  exact hrouted (horder.agree hall ▸ hx)

/-- The instance `x` is held unchanged by `p`, once, and by no other place. -/
structure HeldOnce (s : Hub) (x : Stamped) (p : Place) : Prop where
  mem : x ∈ s.held p
  once : (s.held p).countP (fun y => y.seq = x.seq) = 1
  elsewhere : ∀ q, q ≠ p → ∀ y ∈ s.held q, y.seq ≠ x.seq

theorem heldOnce_of_mem (h : Custody s) {p : Place} {x : Stamped} (hx : x ∈ s.held p) :
    HeldOnce s x p := by
  refine ⟨hx, ?_, fun q hq y hy heq => hq (h.exclusive.apart q p y x hy hx heq)⟩
  have hcount := List.count_eq_one_of_mem (h.exclusive.once p) (List.mem_map_of_mem (f := Stamped.seq) hx)
  rw [List.count_eq_countP, List.countP_map] at hcount
  exact hcount

/-- While at most `2 ^ 64` awaits have parked : every envelope instance that is accepted is
still in its commit, and in no place, or committed, and in exactly one place, unchanged and
once, which is the queue of its destination or at an await of its destination. A lost one
had bytes accepted, and no two connections accept bytes of one instance. -/
theorem conservation (h : Reach L roster audit s) (hparks : parks s.trace ≤ 2 ^ 64) :
    ((acceptedOf s.trace).map Stamped.seq).Nodup ∧
    (∀ x ∈ acceptedOf s.trace,
      (x ∉ routedOf s.trace ∧ (∃ c k, s.conns c = some k ∧ k.pc.unrouted = some x) ∧
        ∀ p, ∀ y ∈ s.held p, y.seq ≠ x.seq) ∨
      (x ∈ routedOf s.trace ∧ ∃ p, HeldOnce s x p ∧ p.For s.trace x.envelope.to)) ∧
    (∀ p, ∀ x ∈ s.held p, x ∈ acceptedOf s.trace) ∧
    (∀ c x, .lost c x ∈ s.trace → .bytes c x ∈ s.trace) ∧
    ∀ c d x y, .bytes c x ∈ s.trace → .bytes d y ∈ s.trace → x.seq = y.seq → c = d := by
  have hcustody := custody_of_reach h
  refine ⟨nodup_of_reach h, fun x hx => ?_, fun p x hx => ?_, fun c x hx => ?_,
    fun c d x y hx hy hxy => ?_⟩
  · by_cases hrouted : x ∈ routedOf s.trace
    · obtain ⟨p, hp⟩ := kept_of_reach h hparks x hrouted
      exact Or.inr ⟨hrouted, p, heldOnce_of_mem hcustody hp, for_of_held h hp⟩
    · obtain ⟨c, k, hk, hun⟩ := exists_unrouted h hx hrouted
      exact Or.inl ⟨hrouted, ⟨c, k, hk, hun⟩, fresh_of_unrouted h hcustody hk hun⟩
  · exact mem_acceptedOf_of_routed h (hcustody.routed p x hx)
  · obtain ⟨pre, post, hsplit, hbytes, -⟩ := (justified_of_reach h c).of_mem (mem_traceOf.2 ⟨hx, rfl⟩)
    have hmem : .bytes c x ∈ s.traceOf c := by
      rw [hsplit]
      exact List.mem_append_left _ hbytes
    exact (mem_traceOf.1 hmem).1
  · obtain ⟨p, hp, hpc⟩ := held_of_bytes h hx
    obtain ⟨q, hq, hqd⟩ := held_of_bytes h hy
    obtain rfl := hcustody.exclusive.apart p q x y hp hq hxy
    rcases hpc with rfl | rfl | rfl <;> simpa using hqd

/-- One accepted envelope is written, one queued. -/
theorem conservation_exchange : ∃ s, SampleReach s ∧ (acceptedOf s.trace).length = 2 ∧
    (writtenTo 0 s.trace).length = 1 ∧ ∀ x ∈ acceptedOf s.trace,
      (x ∉ routedOf s.trace ∧ (∃ c k, s.conns c = some k ∧ k.pc.unrouted = some x) ∧
        ∀ p, ∀ y ∈ s.held p, y.seq ≠ x.seq) ∨
      (x ∈ routedOf s.trace ∧ ∃ p, HeldOnce s x p ∧ p.For s.trace x.envelope.to) := by
  obtain ⟨s, h, hs⟩ := @exists_of_runSample exchange (fun s => (acceptedOf s.trace).length = 2 ∧
    (writtenTo 0 s.trace).length = 1 ∧ parks s.trace ≤ 2 ^ 64) (by decide +kernel)
  obtain ⟨haccepted, hwritten, hparks⟩ := of_decide_eq_true hs
  exact ⟨s, h, haccepted, hwritten, (conservation h hparks).2.1⟩

/-- The bound is needed : one await more, and a committed envelope can be nowhere. -/
theorem exists_vanished : ∃ s x, SampleReach s ∧ parks s.trace = 2 ^ 64 + 1 ∧
    x ∈ routedOf s.trace ∧ ∀ p, x ∉ s.held p := by
  obtain ⟨s, k, x, w, state, h, hparks, hk, hpc, hvalue, hremove⟩ := exists_foreign_waiter
  obtain ⟨s', h', htrace, hrouted, hnone⟩ := vanishes_of_foreign_waiter h hk hpc hvalue hremove
  exact ⟨s', x, h', by rw [htrace, parks_append, hparks]; rfl, hrouted, hnone⟩

end Hub

end AgentHub
