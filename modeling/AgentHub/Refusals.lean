import AgentHub.Handoff
import AgentHub.Identity

/-!
# Refusals

A connection whose last line is an error has neither committed nor taken anything, and nothing
was handed to it (`Hub.untouched_of_error`). The same holds of a connection whose verb was never
dispatched (`Hub.untouched_of_silent`). Neither needs the waiter ids to be distinct : a parked
await that loses its sender to a foreign timer has an empty channel.
-/

namespace AgentHub

/-- Nothing was committed or taken on the connection, and nothing handed to it. -/
structure Untouched (c : ConnId) (t : List Obs) : Prop where
  accepted : ∀ role ts x, .accepted c role ts x ∉ t
  routed : ∀ x p outcome, .routed c x p outcome ∉ t
  took : ∀ x, .took c x ∉ t
  handed : handedTo c t = []

/-- The observation commits, routes or takes an envelope. -/
def Obs.touches : Obs → Bool
  | .accepted _ _ _ _ | .routed _ _ _ _ | .took _ _ => true
  | _ => false

/-- A task that has not committed or taken anything, and may still come to an error. -/
def Pc.isBare : Pc → Bool
  | .auditing _ _ .readHello | .auditing _ _ (.refuse _) | .readHello _ | .replying _ (.readVerb _)
  | .replying (.error _) _ | .readVerb _ _ | .awaiting _ _ _ | .parked _ _ _ | .timerFired _ _
  | .lostRace _ | .committing .waiting (.send _) _ | .committing .locked (.send _) _
  | .committing (.failed _) (.send _) _ => true
  | _ => false

/-- The task is about to answer with an error. -/
def Pc.isError : Pc → Bool
  | .replying (.error _) .finish => true
  | _ => false

section Task

variable {L : Libs} {roster : Roster} {now : DateTime} {c : ConnId} {k k' : Conn} {t obs : List Obs}

/-- A task that is bare after a step, or has answered with an error, was bare before it. -/
theorem bare_of_localStep (h : k.LocalStep L roster now c k' obs)
    (hbare : k'.pc.isBare = true ∨ ∃ message, .answered c (.error message) ∈ obs) :
    k.pc.isBare = true ∧ ∀ o ∈ obs, o.touches = false := by
  cases h with
  | helloMore hpc | helloRefused hpc | helloAccepted hpc | verbMore hpc | verbRefused hpc
  | verbInvalid hpc | verbSend hpc | verbAwait hpc | repliedVerb hpc | timer hpc =>
    rw [hpc]
    simp [Pc.isBare, Obs.touches]
  | handed hwaits | channelLost hwaits =>
    generalize k.pc = pc at hwaits
    cases hwaits <;> simp [Pc.isBare]
  | died hmortal =>
    generalize k.pc = pc at hmortal
    cases hmortal <;> simp [Pc.isBare]
  | @answered line out hpc =>
    obtain ⟨message, hmem⟩ : ∃ message, .answered c (.error message) ∈ [Obs.answered c line] :=
      hbare.resolve_left (by simp [Pc.isBare])
    obtain ⟨-, rfl⟩ := Obs.answered.inj (List.mem_singleton.1 hmem)
    rw [hpc]
    simp [Pc.isBare, Obs.touches]
  | wroteAll hpc hobs =>
    rcases hobs with rfl | rfl <;> simp [Pc.isBare] at hbare
  | peerClosed => exact ⟨hbare.resolve_right (by simp), by simp [Obs.touches]⟩
  | replyLost hpc | wroteMore hpc | failedClean hpc | failedPartial hpc | bounceLost hpc | bounced hpc =>
    simp [Pc.isBare] at hbare

theorem bare_of_sharedStep {i : Input} (h : k.SharedStep now c i k' obs) (hbare : k'.pc.isBare = true) :
    k.pc.isBare = true ∧ ∀ o ∈ obs, o.touches = false := by
  cases h with
  | @lockedAudit event next hpc | @logged event next seq hpc | @unlogged event next e hpc =>
    rw [hpc]
    cases next with
    | finish => cases hbare
    | readHello | refuse => simp [Pc.isBare, Obs.touches]
  | @lockedCommit role e hpc | @refused role e cause hpc =>
    rw [hpc]
    cases role with
    | bounce => cases hbare
    | send => simp [Pc.isBare, Obs.touches]
  | @accepted role e seq hpc | @routed x role e outcome hpc =>
    cases role <;> cases hbare
  | unlocked hpc =>
    refine ⟨?_, by simp⟩
    generalize k.pc = pc at hpc
    unfold Conn.afterUnlock at hpc
    split at hpc
    · rename_i next
      obtain rfl := Option.some.inj hpc
      cases next with
      | finish => cases hbare
      | readHello | refuse => rfl
    · obtain rfl := Option.some.inj hpc
      cases hbare
    · rfl
    · obtain rfl := Option.some.inj hpc
      cases hbare
    · obtain rfl := Option.some.inj hpc
      cases hbare
    · cases hpc
  | took hpc | deregistered hpc | requeued hpc => cases hbare
  | parked hpc | raceLost hpc =>
    rw [hpc]
    simp [Pc.isBare, Obs.touches]

/-- A task that has answered emits no mark any more. -/
theorem untouched_of_advances {m n : ℕ} (h : Advances Obs.stage m obs n) (hm : 20 ≤ m) :
    ∀ o ∈ obs, o.touches = false := by
  intro o ho
  by_contra hne
  obtain ⟨i, hi⟩ : ∃ i, o.stage = some i := by
    cases o with
    | routed c x p outcome => cases p <;> exact ⟨_, rfl⟩
    | accepted | took => exact ⟨_, rfl⟩
    | _ => simp [Obs.touches] at hne
  have hlt := (MarkedUpTo.of_advances h).2.1 o ho i hi
  have hle := stage_le hi
  omega

/-- A bare task has touched no envelope, and neither has one that has answered with an error. -/
theorem untouched_of_run (h : Conn.Run L roster c t k)
    (hbare : k.pc.isBare = true ∨ ∃ message, .answered c (.error message) ∈ t) :
    ∀ o ∈ t, o.touches = false := by
  have hnext : ∀ {k k' : Conn} {t obs : List Obs}, Conn.Run L roster c t k →
      (k.pc.isBare = true ∨ (∃ message, .answered c (.error message) ∈ t) →
        ∀ o ∈ t, o.touches = false) →
      Advances Obs.stage k.pc.stage obs k'.pc.stage →
      ((k'.pc.isBare = true ∨ ∃ message, .answered c (.error message) ∈ obs) →
        k.pc.isBare = true ∧ ∀ o ∈ obs, o.touches = false) →
      (k'.pc.isBare = true ∨ ∃ message, .answered c (.error message) ∈ t ++ obs) →
      ∀ o ∈ t ++ obs, o.touches = false := by
    intro k k' t obs h ih hadvances hstep hbare
    have hcases : (k'.pc.isBare = true ∨ ∃ message, .answered c (.error message) ∈ obs) ∨
        ∃ message, .answered c (.error message) ∈ t := by
      simp only [List.mem_append, exists_or] at hbare
      tauto
    rw [List.forall_mem_append]
    rcases hcases with hbare | ⟨message, hmem⟩
    · obtain ⟨hk, hobs⟩ := hstep hbare
      exact ⟨ih (Or.inl hk), hobs⟩
    · have hstage := (marked_of_run h).le _ hmem 20 rfl
      exact ⟨ih (Or.inr ⟨message, hmem⟩), untouched_of_advances hadvances hstage⟩
  induction h with
  | accepted => simp
  | «local» h hstep ih =>
    exact hnext h ih (advances_of_localStep hstep) (bare_of_localStep hstep) hbare
  | shared h hstep ih =>
    refine hnext h ih (advances_of_sharedStep hstep) (fun hb => ?_) hbare
    refine bare_of_sharedStep hstep (hb.resolve_right ?_)
    rintro ⟨message, hmem⟩
    cases hstep <;> simp at hmem
  | channel _ _ ih => exact ih hbare

/-! ## What was handed over -/

/-- What the connection `c` was handed : what is in its channel while it waits, nothing before
it parks, and nothing if it comes to an error. -/
structure Share (c : ConnId) (k : Conn) (t : List Obs) : Prop where
  waiting : k.pc.waiting ≠ none → handedTo c t = k.chan.value.toList
  unparked : (∀ n id, .parked c n id ∉ t) → handedTo c t = []
  refused : (k.pc.isError = true ∨ ∃ message, .answered c (.error message) ∈ t) → handedTo c t = []

/-- The task of a commit that failed. -/
def Pc.isFailed : Pc → Bool
  | .committing (.failed _) (.send _) _ => true
  | _ => false

/-- A task comes to an error before it parks, or from an empty channel. -/
theorem refusing_of_localStep (h : k.LocalStep L roster now c k' obs)
    (herror : k'.pc.isError = true ∨ ∃ message, .answered c (.error message) ∈ obs) :
    k.pc.stage < 5 ∨ k.pc.isError = true ∨ (k.pc.waiting ≠ none ∧ k.chan.value = none) := by
  cases h with
  | helloMore hpc | helloRefused hpc | helloAccepted hpc | verbMore hpc | verbRefused hpc
  | verbInvalid hpc | verbSend hpc | verbAwait hpc | repliedVerb hpc | replyLost hpc =>
    rw [hpc]
    exact Or.inl (by simp [Pc.stage])
  | @answered line out hpc =>
    obtain ⟨message, hmem⟩ : ∃ message, .answered c (.error message) ∈ [Obs.answered c line] :=
      herror.resolve_left (by simp [Pc.isError])
    obtain ⟨-, rfl⟩ := Obs.answered.inj (List.mem_singleton.1 hmem)
    rw [hpc]
    exact Or.inr (Or.inl rfl)
  | channelLost hwaits hvalue => exact Or.inr (Or.inr ⟨by simp [hwaits.waiting], hvalue⟩)
  | wroteAll hpc hobs => rcases hobs with rfl | rfl <;> simp [Pc.isError] at herror
  | peerClosed => exact Or.inr (Or.inl (herror.resolve_right (by simp)))
  | handed | timer | wroteMore | failedClean | failedPartial | bounceLost | bounced | died =>
    simp [Pc.isError] at herror

theorem refusing_of_sharedStep {i : Input} (h : k.SharedStep now c i k' obs) (herror : k'.pc.isError = true) :
    k.pc.stage < 5 ∨ k.pc.isFailed = true := by
  cases h with
  | unlocked hpc =>
    generalize k.pc = pc at hpc
    unfold Conn.afterUnlock at hpc
    split at hpc
    · rename_i next
      obtain rfl := Option.some.inj hpc
      cases next with
      | refuse => exact Or.inl (by simp [Pc.stage, AuditNext.stage])
      | readHello | finish => cases herror
    · obtain rfl := Option.some.inj hpc
      cases herror
    · exact Or.inr rfl
    · obtain rfl := Option.some.inj hpc
      cases herror
    · obtain rfl := Option.some.inj hpc
      cases herror
    · cases hpc
  | _ => cases herror

namespace Share

theorem append (h : Share c k t) (hobs : handedTo c obs = [])
    (hanswered : ∀ message, .answered c (.error message) ∉ obs) : Share c k (t ++ obs) where
  waiting hw := by rw [handedTo_append, hobs, List.append_nil, h.waiting hw]
  unparked hu := by
    rw [handedTo_append, hobs, List.append_nil]
    exact h.unparked fun n id hm => hu n id (List.mem_append_left _ hm)
  refused hr := by
    rw [handedTo_append, hobs, List.append_nil]
    exact h.refused (hr.imp_right fun hr => hr.imp fun message hm =>
      (List.mem_append.1 hm).resolve_right (hanswered message))

/-- A step of the task by which it is handed nothing. -/
theorem next (h : Share c k t) (hkeep : k.KeepsChannel k') (hobs : handedTo c obs = [])
    (herror : (k'.pc.isError = true ∨ ∃ message, .answered c (.error message) ∈ obs) →
      k.pc.isError = true ∨ handedTo c t = []) : Share c k' (t ++ obs) where
  waiting hw := by
    rw [handedTo_append, hobs, List.append_nil]
    rcases hkeep with ⟨hchan, hwait⟩ | ⟨-, hwait⟩
    · rw [hchan]
      exact h.waiting (hwait ▸ hw)
    · exact absurd hwait hw
  unparked hu := by
    rw [handedTo_append, hobs, List.append_nil]
    exact h.unparked fun n id hm => hu n id (List.mem_append_left _ hm)
  refused hr := by
    rw [handedTo_append, hobs, List.append_nil]
    have hcases : (k'.pc.isError = true ∨ ∃ message, .answered c (.error message) ∈ obs) ∨
        ∃ message, .answered c (.error message) ∈ t := by
      simp only [List.mem_append, exists_or] at hr
      tauto
    rcases hcases with hr | hr
    · exact (herror hr).elim (fun he => h.refused (Or.inl he)) id
    · exact h.refused (Or.inr hr)

theorem localStep (h : Share c k t) (hstep : k.LocalStep L roster now c k' obs)
    (hearly : k.pc.stage < 5 → handedTo c t = []) : Share c k' (t ++ obs) := by
  refine h.next (keepsChannel_of_localStep hstep) ((quiet_of_localStep hstep).handedTo c) fun herror => ?_
  rcases refusing_of_localStep hstep herror with hstage | herror | ⟨hwait, hvalue⟩
  · exact Or.inr (hearly hstage)
  · exact Or.inl herror
  · exact Or.inr (by rw [h.waiting hwait, hvalue, Option.toList_none])

theorem sharedStep {i : Input} (h : Share c k t) (hstep : k.SharedStep now c i k' obs)
    (hi : ∀ waiterId, i ≠ .parked waiterId) (hobs : handedTo c obs = [])
    (hearly : k.pc.stage < 5 ∨ k.pc.isFailed = true → handedTo c t = []) : Share c k' (t ++ obs) := by
  refine h.next (keepsChannel_of_sharedStep hstep hi) hobs fun herror => Or.inr (hearly ?_)
  refine refusing_of_sharedStep hstep (herror.resolve_right ?_)
  rintro ⟨message, hmem⟩
  cases hstep <;> simp at hmem

end Share

end Task

namespace Hub

variable {L : Libs} {roster : Roster} {audit : AuditLog} {s s' : Hub} {c : ConnId}

/-- Every connection was handed its share. -/
def Shares (s : Hub) : Prop :=
  ∀ c, match s.conns c with
    | none => handedTo c s.trace = []
    | some k => Share c k s.trace

namespace Shares

theorem share (h : Shares s) {k : Conn} (hk : s.conns c = some k) : Share c k s.trace := by
  have := h c
  rwa [hk] at this

theorem congr (h : Shares s) (hconns : s'.conns = s.conns) (htrace : s'.trace = s.trace) : Shares s' := by
  intro c
  rw [hconns, htrace]
  exact h c

theorem put {k : Conn} {obs : List Obs} (h : Shares s) (hobs : ∀ o ∈ obs, o.conn = c)
    (hhanded : ∀ d, handedTo d obs = []) (hshare : Share c k (s.trace ++ obs)) :
    Shares (s.put c k obs) := by
  intro d
  rw [put_conns, put_trace]
  split_ifs with hd
  · exact hd ▸ hshare
  · have hother := h d
    cases hkd : s.conns d with
    | none =>
      rw [hkd] at hother
      simp only [handedTo_append, hhanded, List.append_nil]
      exact hother
    | some kd =>
      rw [hkd] at hother
      exact hother.append (hhanded d) fun message hm => hd (hobs _ hm)

/-- Early on, and when its commit has failed, a task has not parked. -/
theorem early (h : Shares s) (halone : AllAlone L roster s) {k : Conn} (hk : s.conns c = some k)
    (hearly : k.pc.stage < 5 ∨ k.pc.isFailed = true) : handedTo c s.trace = [] := by
  refine (h.share hk).unparked fun n id hparked => ?_
  rcases hearly with hstage | hfailed
  · exact halone.not_parked hk hstage hparked
  · have hknown := (known_of_run (halone.run hk)).1
    generalize k.pc = pc at hknown hfailed
    unfold Pc.isFailed at hfailed
    split at hfailed
    · have := hknown.2 _ rfl _ (mem_traceOf.2 ⟨hparked, rfl⟩)
      cases this
    · cases hfailed

theorem task {now : DateTime} {k k' : Conn} {obs : List Obs} (h : Shares s) (halone : AllAlone L roster s)
    (hk : s.conns c = some k) (hstep : k.LocalStep L roster now c k' obs) : Shares (s.put c k' obs) :=
  h.put (conn_of_localStep hstep) (quiet_of_localStep hstep).handedTo
    ((h.share hk).localStep hstep fun hstage => h.early halone hk (Or.inl hstage))

theorem shared {now : DateTime} {i : Input} {k k' : Conn} {obs : List Obs} (h : Shares s)
    (halone : AllAlone L roster s) (hk : s.conns c = some k) (hstep : k.SharedStep now c i k' obs)
    (hi : ∀ waiterId, i ≠ .parked waiterId) (hobs : ∀ d, handedTo d obs = []) : Shares (s.put c k' obs) :=
  h.put (conn_of_sharedStep hstep) hobs
    ((h.share hk).sharedStep hstep hi (hobs c) fun hearly => h.early halone hk hearly)

theorem accept {now : DateTime} {peer : String} (h : Shares s) (hnew : s.conns c = none) : Shares (s.put c (.accepted now peer) []) := by
  have hnil := h c
  rw [hnew] at hnil
  refine h.put (by simp) (fun d => rfl) ⟨fun hw => absurd rfl hw, fun _ => ?_, fun _ => ?_⟩
  · simpa using hnil
  · simpa using hnil

theorem park {k : Conn} {name : String} {id : UInt64} {filter : AwaitFilter} {timeoutSecs : Option UInt64}
    (h : Shares s) (halone : AllAlone L roster s) (hk : s.conns c = some k)
    (hpc : k.pc = .awaiting name filter timeoutSecs) :
    Shares (s.put c { k with pc := .parked name id timeoutSecs, chan := .fresh } [.parked c name id]) := by
  have hnil := h.early halone hk (Or.inl (by simp [hpc, Pc.stage]))
  have hnil' : handedTo c (s.trace ++ [.parked c name id]) = [] := by
    rw [handedTo_append, hnil]
    rfl
  exact h.put (by simp [Obs.conn]) (fun d => rfl) ⟨fun _ => hnil', fun _ => hnil', fun _ => hnil'⟩

/-- A task that waits has not answered. -/
theorem not_answered_of_waiting (halone : AllAlone L roster s) {k : Conn} (hk : s.conns c = some k)
    (hwait : k.pc.waiting ≠ none) (line : ServerLine) : .answered c line ∉ s.trace := by
  intro hmem
  have hstage := (marked_of_run (halone.run hk)).le _ (mem_traceOf.2 ⟨hmem, rfl⟩) 20 rfl
  generalize k.pc = pc at hwait hstage
  cases pc <;> simp [Pc.waiting, Pc.stage] at hwait hstage

/-- Routing hands over to a task that waits on an empty channel. -/
theorem route {x : Stamped} {p : QueuePlacement} {k : Conn} {pc : Pc} (h : Shares s) (hreg : Registry s)
    (halone : AllAlone L roster s) (hk : s.conns c = some k) (hwait : k.pc.waiting = none)
    (hwait' : pc.waiting = none) (herror : pc.isError = false) : Shares (s.routing c k pc x p) := by
  intro d
  rw [routing_conns, routing_trace]
  have hskip : (routeEnvelope s.closed s.state x p).2 ≠ .handedOff d →
      handedTo d [.routed c x p (routeEnvelope s.closed s.state x p).2] = [] := fun hout => by
    rw [handedTo_routed, if_neg hout]
  by_cases hout : (routeEnvelope s.closed s.state x p).2 = .handedOff d
  · obtain ⟨pre, w, post, hw, rfl, hopen, -⟩ := handedOff_spec s.closed s.state x p hout
    obtain ⟨kd, hkd⟩ := hreg.registered _ w (by rw [hw]; simp)
    obtain ⟨kd', hkd', hwaits⟩ := halone.closed_eq_false.1 hopen
    obtain rfl := Option.some.inj (hkd.conn.symm.trans hkd')
    have hne : w.tx ≠ c := fun heq => by
      obtain rfl := Option.some.inj (hk.symm.trans (heq ▸ hkd.conn))
      exact hwaits hwait
    have hnil : handedTo w.tx s.trace = [] := by
      rw [(h.share hkd.conn).waiting hwaits, hkd.empty, Option.toList_none]
    rw [if_neg hne, hkd.conn, Option.map_some, if_pos hout]
    refine ⟨fun _ => ?_, fun hu => ?_, fun hr => ?_⟩
    · rw [handedTo_append, hnil, handedTo_routed, if_pos hout]
      rfl
    · exact absurd (List.mem_append_left _ hkd.parked) (hu _ _)
    · exfalso
      rcases hr with hr | ⟨message, hm⟩
      · dsimp only at hr
        generalize kd.pc = pcd at hr hwaits
        unfold Pc.isError at hr
        split at hr
        · exact hwaits rfl
        · cases hr
      · exact not_answered_of_waiting halone hkd.conn hwaits _ (by simpa using hm)
  · have hother := h d
    simp only [if_neg hout, Option.map_id']
    split_ifs with hd
    · subst hd
      have hshare := h.share hk
      refine Share.append ⟨fun hw => absurd hwait' hw, hshare.unparked, fun hr => ?_⟩ (hskip hout) (by simp)
      refine hshare.refused (hr.imp_left fun hr => ?_)
      rw [herror] at hr
      cases hr
    · cases hkd : s.conns d with
      | none =>
        rw [hkd] at hother
        simp only [handedTo_append, hskip hout, List.append_nil]
        exact hother
      | some kd =>
        rw [hkd] at hother
        exact hother.append (hskip hout) (by simp)

/-- Dropping a sender leaves the channel's slot alone. -/
theorem dropTx (h : Shares s) (tx : ConnId) : Shares (s.onChan tx Oneshot.dropTx) := by
  intro d
  rw [onChan_conns, onChan_trace]
  have hother := h d
  cases hkd : s.conns d with
  | none =>
    rw [hkd] at hother
    exact hother
  | some kd =>
    rw [hkd] at hother
    rw [Option.map_some]
    split_ifs
    · exact ⟨hother.waiting, hother.unparked, hother.refused⟩
    · exact hother

theorem step {a : DateTime × Action} (h : Shares s) (hreg : Registry s) (halone : AllAlone L roster s)
    (hstep : Step L roster s a s') : Shares s' := by
  cases hstep with
  | accept hnew => exact h.accept hnew
  | task hk hstep => exact h.task halone hk hstep
  | lockAudit hfree hk hstep | append hlock hk hevent hwrite hstep =>
    have hquiet : Quiet _ := quiet_of_auditStep hstep (by simp)
    exact (h.shared halone hk hstep (by simp) hquiet.handedTo).congr rfl rfl
  | route hk hpc | requeue hk hpc => exact h.route hreg halone hk (by rw [hpc]; rfl) rfl rfl
  | @unlockAudit now c k pc hlock hk hpc =>
    exact (h.shared halone hk (@Conn.SharedStep.unlocked now c k pc hpc) (by simp) fun _ => rfl).congr rfl rfl
  | @take now c k name filter secs x state hk hpc htake =>
    exact (h.shared halone hk (@Conn.SharedStep.took now c k x name filter secs hpc) (by simp)
      fun _ => rfl).congr rfl rfl
  | park hk hpc htake => exact (h.park halone hk hpc).congr rfl rfl
  | @deregister now c k name id w state hk hpc hremove =>
    refine Shares.dropTx ?_ _
    exact (h.shared halone hk (@Conn.SharedStep.deregistered now c k name id hpc) (by simp)
      fun _ => rfl).congr rfl rfl
  | @loseRace now c k name id hk hpc hremove =>
    exact h.shared halone hk (@Conn.SharedStep.raceLost now c k name id hpc) (by simp) fun _ => rfl

end Shares

theorem shares_of_reach (h : Reach L roster audit s) : Shares s :=
  Machine.ReachVia.invariant h (fun _ => rfl) fun _ _ _ hr hP _ hs =>
    hP.step (registry_of_reach hr) (allAlone_of_reach hr) (step_cases hs)

/-! ## What a refusal means -/

/-- A connection answered with an error has touched nothing. -/
theorem untouched_of_error (h : Reach L roster audit s) {message : String}
    (hans : .answered c (.error message) ∈ s.trace) : Untouched c s.trace := by
  obtain ⟨k, hk⟩ := exists_conn_of_mem h hans
  have hbare := untouched_of_run (run_of_reach h hk) (Or.inr ⟨message, mem_traceOf.2 ⟨hans, rfl⟩⟩)
  have hnot : ∀ o ∈ s.trace, o.conn = c → o.touches = false := fun o ho hc =>
    hbare o (mem_traceOf.2 ⟨ho, hc⟩)
  refine ⟨fun role ts x hm => ?_, fun x p outcome hm => ?_, fun x hm => ?_, ?_⟩
  · cases hnot _ hm rfl
  · cases hnot _ hm rfl
  · cases hnot _ hm rfl
  · exact ((shares_of_reach h).share hk).refused (Or.inr ⟨message, hans⟩)

/-- A connection that has not come to its verb has touched nothing. -/
theorem untouched_of_silent (h : Reach L roster audit s)
    (hverb : ∀ name line, .verb c name line ∉ s.trace) : Untouched c s.trace := by
  have hground : ∀ {o : Obs}, o ∈ s.trace → ∃ pre, pre ⊆ s.trace ∧ o.Grounded L pre := by
    intro o ho
    obtain ⟨pre, hpre, hg⟩ := grounded_of_mem h ho
    exact ⟨pre, List.Subset.trans hpre (traceOf_subset s _), hg⟩
  have hawaits : ∀ {t : List Obs} {name : String}, t ⊆ s.trace → ¬Awaits c t name := fun ht ha => by
    obtain ⟨name, line, hmem⟩ := (ha.mono ht).verb
    exact hverb name line hmem
  have haccepted : ∀ role ts x, .accepted c role ts x ∉ s.trace := fun role ts x hm => by
    obtain ⟨name, line, hmem⟩ := (role_of_accepted h hm).verb
    exact hverb name line hmem
  refine ⟨haccepted, fun x p outcome hm => ?_, fun x hm => ?_, ?_⟩
  · obtain ⟨pre, hpre, hg⟩ := hground hm
    cases p with
    | back =>
      obtain ⟨role, ts, ha⟩ := hg
      exact haccepted _ _ _ (hpre ha)
    | front =>
      obtain ⟨name, ha⟩ := hg
      exact hawaits hpre ha
  · obtain ⟨pre, hpre, -, name, ha⟩ := hground hm
    exact hawaits hpre ha
  · have hshares := shares_of_reach h c
    cases hk : s.conns c with
    | none =>
      rw [hk] at hshares
      exact hshares
    | some k =>
      refine ((shares_of_reach h).share hk).unparked fun n id hm => ?_
      obtain ⟨pre, hpre, -, ha⟩ := hground hm
      exact hawaits hpre ha

end Hub

end AgentHub
