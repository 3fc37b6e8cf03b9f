import AgentHub.Conservation
import AgentHub.Sample

/-!
# Clients that are gone

`route_envelope` passes over a waiter whose receiver is dropped. A client that closes its
connection drops no receiver : a parked await reads nothing, so its task goes on waiting
and its waiter stays registered. An envelope handed to it can then be written into a
socket that no one reads (`exists_absorbed`).

A routing passes such waiters over (`Hub.PassesOver`) when each of them is outranked by a
waiter of a client that is still there. In a run that does so at every routing a client
that is gone consumes nothing, and in no other run (`gone_consumes_nothing`).
-/

namespace AgentHub

/-- Whether the action runs `route_envelope`. -/
def Action.routes : Action → Bool
  | .route _ | .requeue _ => true
  | _ => false

section Task

variable {L : Libs} {roster : Roster} {now : DateTime} {c : ConnId} {k k' : Conn} {obs : List Obs}

/-- A task sees its peer close in a step that does nothing else. -/
theorem peerClosed_cases_of_localStep (h : k.LocalStep L roster now c k' obs) :
    (k' = { k with peerClosed := true } ∧ obs = [.peerClosed c]) ∨
      (k'.peerClosed = k.peerClosed ∧ .peerClosed c ∉ obs) := by
  cases h with
  | peerClosed => exact Or.inl ⟨rfl, rfl⟩
  | wroteAll hpc hobs => exact Or.inr ⟨rfl, by rcases hobs with rfl | rfl <;> simp⟩
  | _ => exact Or.inr ⟨rfl, by simp⟩

theorem peerClosed_of_sharedStep {i : Input} (h : k.SharedStep now c i k' obs) :
    k'.peerClosed = k.peerClosed ∧ .peerClosed c ∉ obs := by
  cases h <;> exact ⟨rfl, by simp⟩

theorem peerClosed_iff_of_run {t : List Obs} (h : Conn.Run L roster c t k) :
    k.peerClosed = true ↔ .peerClosed c ∈ t := by
  induction h with
  | accepted => simp [Conn.accepted]
  | «local» _ hstep ih =>
    rcases peerClosed_cases_of_localStep hstep with ⟨rfl, rfl⟩ | ⟨hsame, hobs⟩
    · simp
    · rw [hsame, ih, List.mem_append, or_iff_left hobs]
  | shared _ hstep ih =>
    obtain ⟨hsame, hobs⟩ := peerClosed_of_sharedStep hstep
    rw [hsame, ih, List.mem_append, or_iff_left hobs]
  | channel _ _ ih => exact ih

end Task

namespace Hub

variable {L : Libs} {roster : Roster} {audit : AuditLog} {s s' : Hub} {c : ConnId} {x : Stamped}

/-- Whether the client of a connection has closed its side. -/
def gone (s : Hub) (c : ConnId) : Bool :=
  (s.conns c).any Conn.peerClosed

theorem gone_iff (h : Reach L roster audit s) : s.gone c = true ↔ .peerClosed c ∈ s.trace := by
  cases hk : s.conns c with
  | some k =>
    have hrun := peerClosed_iff_of_run (run_of_reach h hk)
    rw [mem_traceOf] at hrun
    simpa [gone, hk, Obs.conn] using hrun
  | none =>
    refine iff_of_false (by simp [gone, hk]) fun hmem => ?_
    obtain ⟨k, hk'⟩ : ∃ k, s.conns c = some k := exists_conn_of_mem h hmem
    rw [hk] at hk'
    cases hk'

/-! ## The condition -/

/-- The envelope a step routes. -/
def routes (s : Hub) : Action → Option Stamped
  | .route c => match s.pc c with
    | some (.committing (.appended x) _ _) => some x
    | _ => none
  | .requeue c => match s.pc c with
    | some (.requeueing _ x _) => some x
    | _ => none
  | _ => none

theorem routes_eq_none {a : Action} (h : a.routes = false) : s.routes a = none := by
  cases a with
  | route | requeue => cases h
  | _ => rfl

/-- A waiter that `route_envelope` can hand the envelope to. -/
def Takes (s : Hub) (x : Stamped) (w : Waiter) : Prop :=
  s.closed w.tx = false ∧ w.filter.matches x.envelope = true

/-- Every waiter that takes the envelope and whose client is gone is outranked by one whose
client is not : a more specific one, or one as specific that registered before it. -/
def PassesOver (s : Hub) (x : Stamped) : Prop :=
  ∀ pre v post, s.state.registered x.envelope.to = pre ++ v :: post → s.Takes x v →
    s.gone v.tx = true → ∃ w, s.Takes x w ∧ s.gone w.tx = false ∧
      ((w ∈ pre ∧ v.filter.specificity ≤ w.filter.specificity) ∨
        (w ∈ post ∧ v.filter.specificity < w.filter.specificity))

/-- The step passes over the clients that are gone. -/
def RoutesToPresent (s : Hub) (a : DateTime × Action) : Prop :=
  ∀ x, s.routes a.2 = some x → s.PassesOver x

theorem liveRank_eq_some_iff {w : Waiter} {b : Bool ×ₗ Bool} :
    liveRank s.closed x.envelope w = some b ↔ s.Takes x w ∧ w.filter.specificity = b := by
  rw [liveRank_eq_some, Takes, and_assoc]
  refine and_congr_right fun _ => ⟨rank_eq_some, fun h => ?_⟩
  simp [Waiter.rank, h.1, h.2]

/-- A handoff goes to a client that is still there exactly if those that are gone are
outranked. -/
theorem passesOver_iff (s : Hub) (x : Stamped) (p : QueuePlacement) : s.PassesOver x ↔
    ∀ tx, (routeEnvelope s.closed s.state x p).2 = .handedOff tx → s.gone tx = false := by
  rcases routeEnvelope_spec s.closed s.state x p with ⟨pre, w, post, b, h⟩ | h
  · have hreg : s.state.registered x.envelope.to = pre ++ w :: post := h.registered_eq
    obtain ⟨htakes, rfl⟩ := liveRank_eq_some_iff.1 h.leftmost.score_eq
    constructor
    · intro hover tx hout
      obtain rfl := SendOutcome.handedOff.inj (h.outcome.symm.trans hout)
      by_contra hgone
      obtain ⟨v, hv, -, ⟨hmem, hle⟩ | ⟨hmem, hlt⟩⟩ :=
        hover pre w post hreg htakes (by simpa using hgone)
      · exact absurd (h.leftmost.lt_of_mem_pre v hmem _ (liveRank_eq_some_iff.2 ⟨hv, rfl⟩)) hle.not_gt
      · exact absurd (h.leftmost.le_of_mem_post v hmem _ (liveRank_eq_some_iff.2 ⟨hv, rfl⟩)) hlt.not_ge
    · -- the waiter chosen outranks every other one
      intro hpresent pre' v post' hreg' hv hgone
      have hw := hpresent w.tx h.outcome
      refine ⟨w, htakes, hw, ?_⟩
      rcases append_eq_append_cons (hreg.symm.trans hreg') with ⟨mid, rfl, hmid⟩ | ⟨mid, rfl, hmid⟩
      · cases mid with
        | nil =>
          obtain ⟨rfl, -⟩ := List.cons.inj hmid
          rw [hgone] at hw
          cases hw
        | cons u mid =>
          obtain ⟨rfl, rfl⟩ := List.cons.inj hmid
          exact Or.inl ⟨by simp, h.leftmost.le_of_mem_post v (by simp) _ (liveRank_eq_some_iff.2 ⟨hv, rfl⟩)⟩
      · exact Or.inr ⟨by simp [hmid],
          h.leftmost.lt_of_mem_pre v (by simp) _ (liveRank_eq_some_iff.2 ⟨hv, rfl⟩)⟩
  · refine iff_of_true (fun pre v post hreg hv _ => ?_) fun tx hout => ?_
    · have := h.all_dead v (by rw [carries_stamped, hreg]; simp) hv.2
      rw [hv.1] at this
      cases this
    · rw [h.outcome] at hout
      cases hout

/-! ## What a routing hands over -/

/-- A step that routes emits only what it routed; the envelope is where it was routed to. -/
theorem routed_of_step {a : DateTime × Action} (hreg : Registry s) (h : Step L roster s a s') :
    (∃ obs, s'.trace = s.trace ++ obs ∧ s.routes a.2 = none ∧ ∀ d y p o, .routed d y p o ∉ obs) ∨
    ∃ y p, s.routes a.2 = some y ∧
      s'.trace = s.trace ++ [.routed a.2.conn y p (routeEnvelope s.closed s.state y p).2] ∧
      y ∈ s'.held (destination y (routeEnvelope s.closed s.state y p).2) := by
  have hquiet : ∀ {obs : List Obs}, Quiet obs → ∀ d y p o, .routed d y p o ∉ obs :=
    fun hq d y p o hmem => by cases hq _ hmem
  cases h with
  | accept | unlockAudit | loseRace => exact Or.inl ⟨_, rfl, rfl, by simp⟩
  | task hk hstep => exact Or.inl ⟨_, rfl, rfl, hquiet (quiet_of_localStep hstep)⟩
  | lockAudit hfree hk hstep => exact Or.inl ⟨_, rfl, rfl, hquiet (quiet_of_auditStep hstep (by simp))⟩
  | append hlock hk hevent hwrite hstep =>
    exact Or.inl ⟨_, rfl, rfl, hquiet (quiet_of_auditStep hstep (by simp))⟩
  | take | park => exact Or.inl ⟨_, rfl, rfl, by simp⟩
  | deregister => exact Or.inl ⟨_, onChan_trace _ _ _, rfl, by simp⟩
  | @route now c k y role e hk hpc =>
    refine Or.inr ⟨y, .back, ?_, routing_trace _ _ _ _ _ _, ?_⟩
    · simp only [routes, pc_eq_some.2 ⟨k, hk, hpc⟩]
    · exact (held_routing_destination hreg).mem_iff.2 List.mem_cons_self
  | @requeue now c k name source y hk hpc =>
    refine Or.inr ⟨y, .front, ?_, routing_trace _ _ _ _ _ _, ?_⟩
    · simp only [routes, pc_eq_some.2 ⟨k, hk, hpc⟩]
    · exact (held_routing_destination hreg).mem_iff.2 List.mem_cons_self

/-- An await of the agent the envelope is for has parked on `c`, and its filter accepts the
envelope. -/
def WaitsFor (t : List Obs) (c : ConnId) (x : Stamped) : Prop :=
  (∃ id, .parked c x.envelope.to id ∈ t) ∧ ∃ filter : AwaitFilter, ∃ timeoutSecs,
    .verb c x.envelope.to (.await filter.replyTo filter.kind timeoutSecs) ∈ t ∧
    filter.matches x.envelope = true

theorem waitsFor_of_handedOff (hreg : Registry s) {p : QueuePlacement} {tx : ConnId}
    (hout : (routeEnvelope s.closed s.state x p).2 = .handedOff tx) : WaitsFor s.trace tx x := by
  obtain ⟨pre, w, post, hw, rfl, -, hmatches, -⟩ := handedOff_spec s.closed s.state x p hout
  obtain ⟨k, hk⟩ := hreg.registered _ w (by rw [hw]; simp)
  obtain ⟨timeoutSecs, hverb⟩ := hk.verb
  exact ⟨⟨w.id, hk.parked⟩, w.filter, timeoutSecs, hverb, hmatches⟩

/-- A handoff goes to a waiter whose client is still there. -/
def HandsToPresent (t : List Obs) : Obs → Prop
  | .routed _ x _ (.handedOff tx) => .peerClosed tx ∉ t ∧ WaitsFor t tx x
  | _ => True

theorem justified_of_reachVia
    (h : Machine.ReachVia (step L roster) RoutesToPresent (Hub.init audit) s) :
    Justified HandsToPresent s.trace := by
  refine Machine.ReachVia.invariant (P := fun s => Justified HandsToPresent s.trace) h .nil
    fun s a s' hr hP hq hs => ?_
  have hreach : Reach L roster audit s := hr.reach
  have hreg := registry_of_reach hreach
  rcases routed_of_step hreg (step_cases hs) with ⟨obs, htrace, -, hobs⟩ | ⟨y, p, hroutes, htrace, -⟩
  · rw [htrace]
    refine hP.append fun pre o post hsplit => ?_
    cases o with
    | routed d y p outcome => exact absurd (by rw [hsplit]; simp) (hobs d y p outcome)
    | _ => trivial
  · rw [htrace]
    refine Justified.append_singleton.2 ⟨hP, ?_⟩
    cases hout : (routeEnvelope s.closed s.state y p).2 with
    | queued depth => trivial
    | handedOff tx =>
      refine ⟨fun hmem => ?_, waitsFor_of_handedOff hreg hout⟩
      have := (passesOver_iff s y p).1 (hq y hroutes) tx hout
      rw [(gone_iff hreach).2 hmem] at this
      cases this

/-! ## What a connection holds -/

end Hub

/-- The place belongs to the connection. -/
def Place.At (c : ConnId) : Place → Prop
  | .queue _ => False
  | .channel d | .task d | .written d | .lost d => d = c

namespace Hub

variable {L : Libs} {roster : Roster} {audit : AuditLog} {s s' : Hub} {c d : ConnId} {k k' : Conn}
  {obs : List Obs} {x : Stamped} {p : Place}

/-- On its own a task comes to hold nothing it did not hold. -/
theorem at_of_put (hk : s.conns d = some k) (hobs : ∀ o ∈ obs, o.conn = d) (hmoves : k.Moves d k' obs)
    (hp : p.At c) (hx : x ∈ (s.put d k' obs).held p) : ∃ q, q.At c ∧ x ∈ s.held q := by
  have hchan := held_channel hk
  have htask := held_task hk
  have hown : k.chan.value = some x ∨ k.pc.carried = some x → c = d → ∃ q, q.At c ∧ x ∈ s.held q := by
    rintro (hvalue | hcarried) rfl
    · exact ⟨.channel c, rfl, by rw [hchan, hvalue]; simp⟩
    · exact ⟨.task c, rfl, by rw [htask, hcarried]; simp⟩
  rw [held_put hobs] at hx
  split_ifs at hx with h₁ h₂ h₃ h₄
  · subst h₁
    refine hown (Or.inl ?_) hp.symm
    cases hmoves with
    | same hvalue | written y hvalue | lost y hvalue => rwa [← hvalue, ← Option.mem_toList]
    | handed y hvalue hvalue' => simp [hvalue'] at hx
  · subst h₂
    refine hown ?_ hp.symm
    cases hmoves with
    | same hvalue hpc => exact Or.inr (by rwa [← hpc, ← Option.mem_toList])
    | handed y hvalue hvalue' hpc hpc' =>
      obtain rfl : x = y := by simpa [hpc'] using hx
      exact Or.inl hvalue
    | written y hvalue hpc hpc' | lost y hvalue hpc hpc' => simp [hpc'] at hx
  · subst h₃
    rcases List.mem_append.1 hx with hx | hx
    · exact ⟨_, hp, hx⟩
    · refine hown (Or.inr ?_) hp.symm
      cases hmoves with
      | same hvalue hpc hwritten | handed y hvalue hvalue' hpc hpc' hwritten
      | lost y hvalue hpc hpc' hwritten => simp [hwritten] at hx
      | written y hvalue hpc hpc' hwritten =>
        obtain rfl : x = y := by simpa [hwritten] using hx
        exact hpc
  · subst h₄
    rcases List.mem_append.1 hx with hx | hx
    · exact ⟨_, hp, hx⟩
    · refine hown (Or.inr ?_) hp.symm
      cases hmoves with
      | same hvalue hpc hwritten hlost | handed y hvalue hvalue' hpc hpc' hwritten hlost
      | written y hvalue hpc hpc' hwritten hlost => simp [hlost] at hx
      | lost y hvalue hpc hpc' hwritten hlost =>
        obtain rfl : x = y := by simpa [hlost] using hx
        exact hpc
  · exact ⟨p, hp, hx⟩

/-- Routing brings in only what it hands over. -/
theorem at_of_routing {pc : Pc} {y : Stamped} {placement : QueuePlacement} (hreg : Registry s)
    (hk : s.conns d = some k) (hpc : pc.carried = none) (hp : p.At c)
    (hx : x ∈ (s.routing d k pc y placement).held p) : x ∈ s.held p ∨
      x = y ∧ (routeEnvelope s.closed s.state y placement).2 = .handedOff c := by
  by_cases hdest : p = destination y (routeEnvelope s.closed s.state y placement).2
  · rw [hdest, (held_routing_destination hreg).mem_iff, List.mem_cons, ← hdest] at hx
    rcases hx with rfl | hx
    · cases hout : (routeEnvelope s.closed s.state x placement).2 with
      | handedOff tx =>
        rw [hdest, hout] at hp
        exact Or.inr ⟨rfl, congrArg _ hp⟩
      | queued depth =>
        rw [hdest, hout] at hp
        exact hp.elim
    · exact Or.inl hx
  · by_cases htask : p = .task d
    · rw [htask, held_routing_task, hpc] at hx
      cases hx
    · rw [held_routing_other hk hdest htask] at hx
      exact Or.inl hx

/-- An envelope comes to a connection from the queue, taken by its await, or by a handoff. -/
theorem at_of_step {a : DateTime × Action} (hreg : Registry s) (h : Step L roster s a s')
    (hp : p.At c) (hx : x ∈ s'.held p) : (∃ q, q.At c ∧ x ∈ s.held q) ∨ .took c x ∈ s'.trace ∨
      s.routes a.2 = some x ∧
        ∃ placement, (routeEnvelope s.closed s.state x placement).2 = .handedOff c := by
  cases h with
  | @accept now d peer hnew =>
    rw [held_put (by simp)] at hx
    split_ifs at hx
    · cases hx
    · cases hx
    · exact Or.inl ⟨p, hp, by simpa [writtenTo] using hx⟩
    · exact Or.inl ⟨p, hp, by simpa [lostOn] using hx⟩
    · exact Or.inl ⟨p, hp, hx⟩
  | task hk hstep =>
    exact Or.inl (at_of_put hk (conn_of_localStep hstep) (moves_of_localStep hstep) hp hx)
  | lockAudit hfree hk hstep | append hlock hk hevent hwrite hstep =>
    exact Or.inl (at_of_put hk (conn_of_sharedStep hstep) (moves_of_auditStep hstep (by simp)) hp hx)
  | @unlockAudit now d k pc hlock hk hpc =>
    have hstep := @Conn.SharedStep.unlocked now d k pc hpc
    exact Or.inl (at_of_put hk (conn_of_sharedStep hstep) (moves_of_auditStep hstep (by simp)) hp hx)
  | @route now d k y role e hk hpc =>
    rcases at_of_routing hreg hk rfl hp hx with hx | ⟨rfl, hout⟩
    · exact Or.inl ⟨p, hp, hx⟩
    · exact Or.inr (Or.inr ⟨by simp only [routes, pc_eq_some.2 ⟨k, hk, hpc⟩], .back, hout⟩)
  | @requeue now d k name source y hk hpc =>
    rcases at_of_routing hreg hk rfl hp hx with hx | ⟨rfl, hout⟩
    · exact Or.inl ⟨p, hp, hx⟩
    · exact Or.inr (Or.inr ⟨by simp only [routes, pc_eq_some.2 ⟨k, hk, hpc⟩], .front, hout⟩)
  | @take now d k name filter secs y state hk hpc htake =>
    have hput : x ∈ (s.put d { k with pc := .writing name y "queue" 0 } [.took d y]).held p := by
      cases p with
      | queue n => exact hp.elim
      | _ => exact hx
    rw [held_put (by simp [Obs.conn])] at hput
    split_ifs at hput with h₁ h₂ h₃ h₄
    · exact Or.inl ⟨p, hp, by rwa [h₁, held_channel hk]⟩
    · subst h₂
      obtain rfl : d = c := hp
      obtain rfl : x = y := by simpa [Pc.carried] using hput
      exact Or.inr (Or.inl (by simp))
    · exact Or.inl ⟨p, hp, by simpa [writtenTo] using hput⟩
    · exact Or.inl ⟨p, hp, by simpa [lostOn] using hput⟩
    · exact Or.inl ⟨p, hp, hput⟩
  | @park now d k name filter secs hk hpc htake =>
    have hnone : k.chan.value = none := by
      by_contra hne
      obtain ⟨y, hy⟩ := Option.ne_none_iff_exists'.1 hne
      have := (hreg.of_value d k y hk hy).1
      rw [hpc] at this
      cases this
    refine Or.inl (@at_of_put s c d k { k with pc := .parked name s.state.nextWaiterId secs, chan := .fresh }
      [.parked d name s.state.nextWaiterId] x p hk (by simp [Obs.conn]) ?_ hp ?_)
    · exact .same hnone.symm (by rw [hpc]; rfl) rfl rfl
    · cases p with
      | queue n => exact hp.elim
      | _ => exact hx
  | deregister hk hpc hremove =>
    rw [held_deregister hk hpc hremove] at hx
    split_ifs at hx
    · cases hx
    · exact Or.inl ⟨p, hp, hx⟩
  | @loseRace now d k name id hk hpc hremove =>
    refine Or.inl (@at_of_put s c d k { k with pc := .lostRace name } [] x p hk (by simp) ?_ hp hx)
    exact .same rfl (by rw [hpc]; rfl) rfl rfl

/-! ## Clients that are gone consume nothing -/

/-- The trace routes the envelope after an await of `c` has parked and its client is gone. -/
def RoutedPast (t : List Obs) (c : ConnId) (x : Stamped) : Prop :=
  ∃ pre d placement outcome post, t = pre ++ .routed d x placement outcome :: post ∧
    (∃ name id, .parked c name id ∈ pre) ∧ .peerClosed c ∈ pre

/-- In a run that passes over the clients that are gone, none of them comes to hold an
envelope routed past it. -/
theorem unheld_of_reachVia
    (h : Machine.ReachVia (step L roster) RoutesToPresent (Hub.init audit) s) :
    ∀ c x, RoutedPast s.trace c x → ∀ p, p.At c → x ∉ s.held p := by
  refine Machine.ReachVia.invariant
    (P := fun s => ∀ c x, RoutedPast s.trace c x → ∀ p, p.At c → x ∉ s.held p) h ?_ ?_
  · rintro c x ⟨pre, d, placement, outcome, post, hsplit, -⟩
    simp [Hub.init] at hsplit
  intro s a s' hr hP hq hs c x hpast p hp hx
  have hreach : Reach L roster audit s := hr.reach
  have hreach' : Reach L roster audit s' := .next hreach trivial hs
  have hstep := step_cases hs
  have hreg := registry_of_reach hreach
  obtain ⟨pre, d, placement, outcome, post, hsplit, ⟨name, id, hparked⟩, hgone⟩ := hpast
  have hpresent : ∀ y placement', s.routes a.2 = some y → .peerClosed c ∈ s.trace →
      (routeEnvelope s.closed s.state y placement').2 ≠ .handedOff c := by
    intro y placement' hroutes hmem hout
    have := (passesOver_iff s y placement').1 (hq y hroutes) c hout
    rw [(gone_iff hreach).2 hmem] at this
    cases this
  have hold : RoutedPast s.trace c x → False := by
    intro hpast
    have hgone : .peerClosed c ∈ s.trace := by
      obtain ⟨pre, d, placement, outcome, post, hsplit, -, hgone⟩ := hpast
      rw [hsplit]
      exact List.mem_append_left _ hgone
    rcases at_of_step hreg hstep hp hx with ⟨q, hq, hxq⟩ | htook | ⟨hroutes, placement', hout⟩
    · exact hP c x hpast q hq hxq
    · exact not_took_of_parked (justified_of_reach hreach' c)
        (mem_traceOf.2 ⟨by rw [hsplit]; exact List.mem_append_left _ hparked, rfl⟩)
        (mem_traceOf.2 ⟨htook, rfl⟩)
    · exact hpresent x placement' hroutes hgone hout
  rcases routed_of_step hreg hstep with ⟨obs, htrace, -, hobs⟩ | ⟨y, placement', hroutes, htrace, hmem⟩
  · rcases append_eq_append_cons (htrace.symm.trans hsplit) with ⟨mid, -, hmid⟩ | ⟨mid, hmid, -⟩
    · exact hobs d x placement outcome (by rw [hmid]; simp)
    · exact hold ⟨pre, d, placement, outcome, mid, hmid, ⟨name, id, hparked⟩, hgone⟩
  · rcases append_eq_append_cons (htrace.symm.trans hsplit) with ⟨mid, hpre, hmid⟩ | ⟨mid, hmid, -⟩
    · -- this step routes `x`, which is then only where it was routed to
      obtain ⟨rfl, hmid⟩ : mid = [] ∧ _ := by
        cases mid with
        | nil => exact ⟨rfl, hmid⟩
        | cons o mid => simp at hmid
      obtain ⟨-, rfl, -, -⟩ := Obs.routed.inj (List.cons.inj hmid).1
      rw [List.append_nil] at hpre
      obtain ⟨rfl, -⟩ := (custody_of_reach hreach').exclusive.eq_of_mem hx hmem rfl
      cases hout : (routeEnvelope s.closed s.state y placement').2 with
      | handedOff tx =>
        rw [hout] at hp
        obtain rfl : tx = c := hp
        exact hpresent y placement' hroutes (hpre ▸ hgone) hout
      | queued depth =>
        rw [hout] at hp
        exact hp
    · exact hold ⟨pre, d, placement, outcome, mid, hmid, ⟨name, id, hparked⟩, hgone⟩

/-- An envelope that was routed to `outcome` after the observations `pre` has passed over `c`, whose
client was gone. -/
structure Spared (s : Hub) (c : ConnId) (x : Stamped) (pre : List Obs) (outcome : SendOutcome) :
    Prop where
  rerouted : (∃ depth, outcome = .queued depth) ∨
    ∃ tx, outcome = .handedOff tx ∧ tx ≠ c ∧ .peerClosed tx ∉ pre ∧ WaitsFor pre tx x
  unheld : ∀ p, p.At c → x ∉ s.held p
  untouched : .bytes c x ∉ s.trace
  unrecorded : ∀ ts id name peer, .logged c (.delivery ts id name peer) ∈ s.trace →
    ∃ y, y ≠ x ∧ .written c y ∈ s.trace ∧ y.envelope.id = id

/-- In a run in which every routing passes over the clients that are gone, and in no other
run, an envelope routed after the client of a parked await has closed its connection goes to
a waiter whose client is still there, or is queued : it never comes into the hands of that
await, no byte of it is accepted there, and no delivery recorded there is one of it. -/
theorem gone_consumes_nothing (h : Reach L roster audit s) :
    (∀ c x pre d placement outcome post, s.trace = pre ++ .routed d x placement outcome :: post →
      (∃ name id, .parked c name id ∈ pre) → .peerClosed c ∈ pre → Spared s c x pre outcome) ↔
    Machine.ReachVia (step L roster) RoutesToPresent (Hub.init audit) s := by
  constructor
  · intro hspared
    refine Machine.Reach.via h fun s₁ a s₂ h₁ hs h₂ y hroutes => ?_
    have hreg := registry_of_reach h₁
    rcases routed_of_step hreg (step_cases hs) with ⟨obs, -, hnone, -⟩ | ⟨x, p, hroutes', htrace, -⟩
    · rw [hroutes] at hnone
      cases hnone
    obtain rfl : y = x := Option.some.inj (hroutes.symm.trans hroutes')
    refine (passesOver_iff s₁ y p).2 fun tx hout => ?_
    by_contra hgone
    obtain ⟨post, hpost⟩ := trace_prefix_of_reach h₂
    rw [htrace, List.append_assoc] at hpost
    obtain ⟨id, hparked⟩ := (waitsFor_of_handedOff hreg hout).1
    have hmem := (gone_iff h₁).1 (by simpa using hgone)
    rcases (hspared tx y s₁.trace _ p _ post hpost.symm ⟨_, id, hparked⟩ hmem).rerouted with
      ⟨depth, hqueued⟩ | ⟨tx', hout', hne, -⟩
    · rw [hout] at hqueued
      cases hqueued
    · rw [hout] at hout'
      exact hne (SendOutcome.handedOff.inj hout').symm
  · intro hvia c x pre d placement outcome post hsplit hparked hgone
    have hunheld := unheld_of_reachVia hvia c x
      ⟨pre, d, placement, outcome, post, hsplit, hparked, hgone⟩
    have hwritten : .written c x ∉ s.trace := fun hmem =>
      hunheld (.written c) rfl (mem_writtenTo.2 hmem)
    refine ⟨?_, hunheld, fun hmem => ?_, fun ts id name peer hmem => ?_⟩
    · cases outcome with
      | queued depth => exact Or.inl ⟨depth, rfl⟩
      | handedOff tx =>
        obtain ⟨hpresent, hwaits⟩ := justified_of_reachVia hvia pre _ post hsplit
        exact Or.inr ⟨tx, rfl, fun heq => hpresent (heq ▸ hgone), hpresent, hwaits⟩
    · obtain ⟨p, hxp, hp⟩ := held_of_bytes h hmem
      exact hunheld p (by rcases hp with rfl | rfl | rfl <;> rfl) hxp
    · obtain ⟨pre', hsub, -, y, hy, hid⟩ := grounded_of_mem h hmem
      have hy' := (mem_traceOf.1 (hsub hy)).1
      exact ⟨y, fun heq => hwritten (heq ▸ hy'), hy', hid⟩

/-! ## Two runs -/

/-- The envelope a commit routes at position `n` of a trace, and where it went, if an await
of `c` has parked before and its client is gone. -/
def routedPastAt (t : List Obs) (c : ConnId) (n : ℕ) : Option (Stamped × SendOutcome) :=
  if ((t.take n).any fun | .parked d _ _ => d = c | _ => false) ∧
      (t.take n).any fun | .peerClosed d => d = c | _ => false then
    match t.drop n with
    | .routed _ x .back outcome :: _ => some (x, outcome)
    | _ => none
  else none

/-- The ids of the deliveries recorded on a connection. -/
def deliveredOn (c : ConnId) (t : List Obs) : List String :=
  t.filterMap fun
    | .logged d (.delivery _ id _ _) => if d = c then some id else none
    | _ => none

theorem exists_delivery {t : List Obs} {id : String} (h : id ∈ deliveredOn c t) :
    ∃ ts name peer, .logged c (.delivery ts id name peer) ∈ t := by
  obtain ⟨o, ho, hid⟩ := List.mem_filterMap.1 h
  split at hid
  · rw [Option.ite_none_right_eq_some, Option.some.injEq] at hid
    obtain ⟨rfl, rfl⟩ := hid
    exact ⟨_, _, _, ho⟩
  · cases hid

theorem split_of_routedPastAt {t : List Obs} {n : ℕ} {outcome : SendOutcome}
    (h : routedPastAt t c n = some (x, outcome)) : ∃ d post,
      t = t.take n ++ .routed d x .back outcome :: post ∧
      (∃ name id, .parked c name id ∈ t.take n) ∧ .peerClosed c ∈ t.take n := by
  unfold routedPastAt at h
  split_ifs at h with hpre
  obtain ⟨hparked, hgone⟩ := hpre
  split at h
  · rename_i d y outcome' post hdrop
    cases h
    refine ⟨d, post, by rw [← hdrop, List.take_append_drop], ?_, ?_⟩
    · obtain ⟨o, ho, hc⟩ := List.any_eq_true.1 hparked
      split at hc
      · obtain rfl := of_decide_eq_true hc
        exact ⟨_, _, ho⟩
      · cases hc
    · obtain ⟨o, ho, hc⟩ := List.any_eq_true.1 hgone
      split at hc
      · obtain rfl := of_decide_eq_true hc
        exact ho
      · cases hc
  · cases h

/-- `alice` awaits on the connection `0` and closes it, and awaits on `2` with the line
`line`. `bob` sends `e` with the line `sent`. -/
def leaving (line sent : List UInt8) (e : Envelope) : List Action :=
  opening 0 aliceHello.bytes awaitAny.bytes ++ [.await 0, .task 0 .peerClosed] ++
  opening 2 aliceHello.bytes line ++ [.await 2] ++ opening 1 bobHello.bytes sent ++
  [.lockAudit 1, .append 1 (whole (.accepted 0 e))]

/-- The await on `2` is the more specific one and takes the envelope. -/
theorem gone_consumes_nothing_outranked : ∃ s pre x d post,
    Machine.ReachVia (step sampleLibs sampleRoster) RoutesToPresent (Hub.init sampleAudit) s ∧
    s.trace = pre ++ .routed d x .back (.handedOff 2) :: post ∧
    (∃ name id, .parked 0 name id ∈ pre) ∧ .peerClosed 0 ∈ pre ∧
    Spared s 0 x pre (.handedOff 2) := by
  have hrun : ((runSample (leaving awaitResult.bytes sendResult.bytes (sampleEnvelope "m2" "result"))).any
      fun s₁ => (((s₁.routes (.route 1)).any fun x =>
        (routeEnvelope s₁.closed s₁.state x .back).2 = .handedOff 2 ∧ s₁.gone 2 = false) ∧
      (s₁.step sampleLibs sampleRoster (0, .route 1)).any fun s =>
        (routedPastAt s.trace 0 13).any fun r => r.2 = .handedOff 2)) = true := by decide +kernel
  obtain ⟨s₁, hs₁, hP⟩ := Option.any_eq_true _ _ |>.1 hrun
  obtain ⟨hroutes, hstep⟩ := of_decide_eq_true hP
  obtain ⟨x, hx, hout⟩ := Option.any_eq_true _ _ |>.1 hroutes
  obtain ⟨hout, hthere⟩ := of_decide_eq_true hout
  obtain ⟨s, hs, hpast⟩ := Option.any_eq_true _ _ |>.1 hstep
  obtain ⟨⟨y, outcome⟩, hat, houtcome⟩ := Option.any_eq_true _ _ |>.1 hpast
  obtain rfl : outcome = .handedOff 2 := of_decide_eq_true houtcome
  have hprefix : Machine.ReachVia (step sampleLibs sampleRoster) RoutesToPresent
      (Hub.init sampleAudit) s₁ := by
    refine Machine.reachVia_of_run hs₁ fun s a ha y hy => ?_
    have hnone : ∀ a ∈ leaving awaitResult.bytes sendResult.bytes (sampleEnvelope "m2" "result"),
        a.routes = false := by decide +kernel
    obtain ⟨b, hb, rfl⟩ := List.mem_map.1 ha
    rw [routes_eq_none (hnone b hb)] at hy
    cases hy
  have hover : RoutesToPresent s₁ (0, .route 1) := by
    intro z hz
    obtain rfl : z = x := Option.some.inj (hz.symm.trans hx)
    refine (passesOver_iff s₁ z .back).2 fun tx htx => ?_
    obtain rfl := SendOutcome.handedOff.inj (hout.symm.trans htx)
    exact hthere
  have hvia := Machine.ReachVia.next hprefix hover hs
  obtain ⟨d, post, hsplit, hparked, hgone⟩ := split_of_routedPastAt hat
  exact ⟨s, _, y, d, post, hvia, hsplit, hparked, hgone,
    (gone_consumes_nothing hvia.reach).2 hvia 0 y _ d .back _ post hsplit hparked hgone⟩

/-- The await on `2` is as specific as the one on `0` and came after it : the envelope is
written to the connection that `alice` has closed, and its delivery is recorded. -/
theorem exists_absorbed : ∃ s pre x d post, SampleReach s ∧
    s.trace = pre ++ .routed d x .back (.handedOff 0) :: post ∧
    (∃ name id, .parked 0 name id ∈ pre) ∧ .peerClosed 0 ∈ pre ∧
    s.closed 2 = false ∧ s.gone 2 = false ∧ .written 0 x ∈ s.trace ∧
    (∃ ts name peer, .logged 0 (.delivery ts x.envelope.id name peer) ∈ s.trace) ∧
    ¬Spared s 0 x pre (.handedOff 0) := by
  obtain ⟨s, h, hs⟩ := @exists_of_runSample
    (leaving awaitAny.bytes sendTask.bytes (sampleEnvelope "m1" "task") ++
      [.route 1, .unlockAudit 1, .task 0 .polled, delivering 0 (sampleEnvelope "m1" "task"),
        .lockAudit 0, .append 0 (whole (.delivery 0 "m1" "alice" "127.0.0.1:49152")), .unlockAudit 0])
    (fun s => s.closed 2 = false ∧ s.gone 2 = false ∧ (routedPastAt s.trace 0 13).any fun r =>
      r.2 = .handedOff 0 ∧ ((writtenTo 0 s.trace).any fun y => y.seq = r.1.seq) ∧
      r.1.envelope.id ∈ deliveredOn 0 s.trace)
    (by decide +kernel)
  obtain ⟨hopen, hthere, hpast⟩ := of_decide_eq_true hs
  obtain ⟨⟨x, outcome⟩, hat, hr⟩ := Option.any_eq_true _ _ |>.1 hpast
  obtain ⟨rfl, hwritten, hlogged⟩ := of_decide_eq_true hr
  obtain ⟨d, post, hsplit, hparked, hgone⟩ := split_of_routedPastAt hat
  obtain ⟨y, hy, hseq⟩ := List.any_eq_true.1 hwritten
  have hrouted : x ∈ routedOf s.trace := mem_routedOf.2 ⟨d, .handedOff 0, by rw [hsplit]; simp⟩
  obtain rfl : y = x := List.inj_on_of_nodup_map (nodup_of_reach h)
    (mem_acceptedOf_of_routed h ((custody_of_reach h).routed (.written 0) y hy))
    (mem_acceptedOf_of_routed h hrouted) (of_decide_eq_true hseq)
  refine ⟨s, _, y, d, post, h, hsplit, hparked, hgone, hopen, hthere, mem_writtenTo.1 hy,
    exists_delivery hlogged, fun hspared => hspared.unheld (.written 0) rfl hy⟩

end Hub

end AgentHub
