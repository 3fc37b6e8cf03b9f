import AgentHub.Bounces
import AgentHub.Causality

/-!
# What the delivery records account for

An id can be used by many envelopes, so a `delivery` record does not say which of them was
delivered. Counted over an id and a recipient the records still add up, in every prefix of
the log (`deliveries_backed`) : each `delivery` record stands for an envelope written on its
connection, each bounce for an envelope lost, no envelope is both, and each was accepted
before. When every append succeeds, each written envelope has its record in the end.
-/

namespace AgentHub

/-- The observations of appended records. -/
def audited (trace : List Obs) : List Obs :=
  trace.filter fun o => !(recordsOf [o]).isEmpty

/-- The connections that log the delivery of an envelope with that id to that recipient. -/
def deliveriesFor (id recipient : String) (trace : List Obs) : List ConnId :=
  trace.filterMap fun
    | .logged c (.delivery _ i n _) => if i = id ∧ n = recipient then some c else none
    | _ => none

/-- The written envelopes with that id and recipient, each behind its connection. -/
def writtenFor (id recipient : String) (trace : List Obs) : List (ConnId × Stamped) :=
  trace.filterMap fun
    | .written c x => if x.envelope.id = id ∧ x.envelope.to = recipient then some (c, x) else none
    | _ => none

/-- The lost envelopes with that id and recipient for which a bounce is accepted. -/
def bouncedFor (id recipient : String) (trace : List Obs) : List Stamped :=
  ((bouncesOf trace).map Prod.fst).filter fun x => x.envelope.id = id ∧ x.envelope.to = recipient

/-- The accepted envelopes with that id and recipient. -/
def acceptedFor (id recipient : String) (trace : List Obs) : List Stamped :=
  (acceptedOf trace).filter fun x => x.envelope.id = id ∧ x.envelope.to = recipient

section Lists

variable {id recipient : String} {trace : List Obs} {c : ConnId} {x : Stamped}

theorem recordsOf_audited (trace : List Obs) : recordsOf (audited trace) = recordsOf trace := by
  rw [recordsOf, audited, List.filterMap_filter]
  refine List.filterMap_congr fun o _ => ?_
  cases o <;> rfl

theorem acceptedOf_audited (trace : List Obs) : acceptedOf (audited trace) = acceptedOf trace := by
  rw [acceptedOf, audited, List.filterMap_filter]
  refine List.filterMap_congr fun o _ => ?_
  cases o <;> rfl

theorem bouncesOf_audited (trace : List Obs) : bouncesOf (audited trace) = bouncesOf trace := by
  rw [bouncesOf, audited, List.filterMap_filter]
  refine List.filterMap_congr fun o _ => ?_
  cases o <;> rfl

theorem deliveriesFor_audited (id recipient : String) (trace : List Obs) :
    deliveriesFor id recipient (audited trace) = deliveriesFor id recipient trace := by
  rw [deliveriesFor, audited, List.filterMap_filter]
  refine List.filterMap_congr fun o _ => ?_
  cases o <;> rfl

theorem mem_deliveriesFor : c ∈ deliveriesFor id recipient trace ↔
    ∃ ts peer, .logged c (.delivery ts id recipient peer) ∈ trace := by
  unfold deliveriesFor
  rw [List.mem_filterMap]
  constructor
  · rintro ⟨o, ho, hc⟩
    split at hc
    · rw [Option.ite_none_right_eq_some, Option.some.injEq] at hc
      obtain ⟨⟨rfl, rfl⟩, rfl⟩ := hc
      exact ⟨_, _, ho⟩
    · cases hc
  · rintro ⟨ts, peer, ho⟩
    exact ⟨_, ho, if_pos ⟨rfl, rfl⟩⟩

theorem mem_writtenFor : (c, x) ∈ writtenFor id recipient trace ↔
    .written c x ∈ trace ∧ x.envelope.id = id ∧ x.envelope.to = recipient := by
  unfold writtenFor
  rw [List.mem_filterMap]
  constructor
  · rintro ⟨o, ho, hx⟩
    split at hx
    · rw [Option.ite_none_right_eq_some, Option.some.injEq, Prod.mk.injEq] at hx
      obtain ⟨habout, rfl, rfl⟩ := hx
      exact ⟨ho, habout⟩
    · cases hx
  · rintro ⟨ho, habout⟩
    exact ⟨_, ho, if_pos habout⟩

theorem mem_bouncedFor : x ∈ bouncedFor id recipient trace ↔
    (∃ y, (x, y) ∈ bouncesOf trace) ∧ x.envelope.id = id ∧ x.envelope.to = recipient := by
  simp [bouncedFor]

theorem mem_acceptedFor : x ∈ acceptedFor id recipient trace ↔
    x ∈ acceptedOf trace ∧ x.envelope.id = id ∧ x.envelope.to = recipient := by
  simp [acceptedFor]

end Lists

namespace Hub

variable {L : Libs} {roster : Roster} {audit : AuditLog} {s s' : Hub} {id recipient : String}

/-- Each record is appended in a step of its own. -/
theorem length_audited_le {a : DateTime × Action} (h : Step L roster s a s') :
    ∃ obs, s'.trace = s.trace ++ obs ∧ (audited obs).length ≤ 1 := by
  have hnone : ∀ {obs : List Obs}, recordsOf obs = [] → (audited obs).length ≤ 1 := by
    intro obs hobs
    rw [← recordsOf_audited] at hobs
    cases haud : audited obs with
    | nil => simp
    | cons o rest =>
      have ho : o ∈ audited obs := by simp [haud]
      rw [haud, ← List.singleton_append, recordsOf_append, List.append_eq_nil_iff] at hobs
      simp [audited, hobs.1] at ho
  rcases task_of_step h with ⟨-, htrace, -⟩ | ⟨k, k', obs, -, -, htrace, hlocal | ⟨i, hshared, -⟩⟩
  · exact ⟨[], by simpa using htrace, by simp [audited]⟩
  · exact ⟨obs, htrace, hnone (recordsOf_localStep hlocal)⟩
  · refine ⟨obs, htrace, (List.length_filter_le _ _).trans ?_⟩
    cases hshared <;> simp

/-- A prefix of the log is the log of an earlier state of the run. -/
theorem exists_of_prefix (h : Reach L roster audit s) {pre : List Obs} (hpre : pre <+: audited s.trace) :
    ∃ s₀, Reach L roster audit s₀ ∧ audited s₀.trace = pre := by
  refine Machine.ReachVia.invariant (P := fun s => ∀ pre, pre <+: audited s.trace →
    ∃ s₀, Reach L roster audit s₀ ∧ audited s₀.trace = pre) h ?_ ?_ pre hpre
  · intro pre hpre
    exact ⟨_, .init, (List.prefix_nil.1 hpre).symm⟩
  · intro s a s' hr hP _ hs pre hpre
    obtain ⟨obs, htrace, hle⟩ := length_audited_le (step_cases hs)
    have haud : audited s'.trace = audited s.trace ++ audited obs := by
      rw [htrace, audited, List.filter_append]
      rfl
    by_cases hlast : pre = audited s'.trace
    · exact ⟨s', .next hr trivial hs, hlast.symm⟩
    · refine hP pre ?_
      rw [haud] at hpre hlast
      cases hobs : audited obs with
      | nil => simpa [hobs] using hpre
      | cons o rest =>
        obtain rfl : rest = [] := List.length_eq_zero_iff.1 (by rw [hobs] at hle; simpa using hle)
        rw [hobs] at hpre hlast
        exact (List.prefix_concat_iff.1 hpre).resolve_left hlast

/-- A connection logs one delivery. -/
theorem pairwise_logsDelivery (h : Reach L roster audit s) :
    s.trace.Pairwise fun o o' => ∀ c, o.LogsDelivery c → ¬o'.LogsDelivery c := by
  refine Machine.ReachVia.invariant
    (P := fun s => s.trace.Pairwise fun o o' => ∀ c, o.LogsDelivery c → ¬o'.LogsDelivery c) h .nil
    fun s a s' hr hP _ hs => ?_
  have hnone : ∀ {obs : List Obs} {c : ConnId}, recordsOf obs = [] → ∀ o ∈ obs, ¬o.LogsDelivery c := by
    rintro obs c hobs o ho ⟨ts, id, name, peer, rfl⟩
    have hmem : .delivery ts id name peer ∈ recordsOf obs := List.mem_filterMap.2 ⟨_, ho, rfl⟩
    rw [hobs] at hmem
    cases hmem
  rcases task_of_step (step_cases hs) with
    ⟨-, htrace, -⟩ | ⟨k, k', obs, hk, -, htrace, hlocal | ⟨i, hshared, -⟩⟩
  · rwa [htrace]
  · rw [htrace, List.pairwise_append]
    refine ⟨hP, ?_, fun o _ o' ho' c _ => hnone (recordsOf_localStep hlocal) o' ho'⟩
    exact List.pairwise_of_forall_mem_list fun o _ o' ho' c _ =>
      hnone (recordsOf_localStep hlocal) o' ho'
  · rw [htrace, List.pairwise_append]
    refine ⟨hP, ?_, fun o ho o' ho' c hlog hlog' => ?_⟩
    · cases hshared <;> simp
    · obtain ⟨ts, id, name, peer, rfl⟩ := hlog'
      obtain rfl : c = a.2.conn := conn_of_sharedStep hshared _ ho'
      have hdone := (delivered_of_run (run_of_reach hr hk)).2
        ⟨o, mem_traceOf.2 ⟨ho, by obtain ⟨_, _, _, _, rfl⟩ := hlog; rfl⟩, hlog⟩
      cases hshared with
      | logged hpc =>
        rw [hpc] at hdone
        cases hdone
      | _ => simp at ho'

theorem nodup_deliveriesFor (h : Reach L roster audit s) : (deliveriesFor id recipient s.trace).Nodup := by
  refine List.pairwise_filterMap.2 ((pairwise_logsDelivery h).imp fun {o o'} hlog c hc c' hc' heq => ?_)
  split at hc
  · split at hc'
    · simp only [Option.ite_none_right_eq_some, Option.some.injEq] at hc hc'
      refine hlog c ⟨_, _, _, _, by rw [hc.2]⟩ ⟨_, _, _, _, by rw [heq, hc'.2]⟩
    · cases hc'
  · cases hc

/-- No connection is written two envelopes, and no envelope is written twice. -/
theorem nodup_writtenFor (h : Reach L roster audit s) :
    ((writtenFor id recipient s.trace).map Prod.fst).Nodup ∧
      ((writtenFor id recipient s.trace).map fun w => w.2.seq).Nodup := by
  have hpair : (writtenFor id recipient s.trace).Pairwise fun w w' => w.1 ≠ w'.1 := by
    refine List.pairwise_filterMap.2 ((increasing_of_reach h).imp fun {o o'} hlt w hw w' hw' heq => ?_)
    split at hw
    · split at hw'
      · simp only [Option.ite_none_right_eq_some, Option.some.injEq] at hw hw'
        obtain ⟨-, rfl⟩ := hw
        obtain ⟨-, rfl⟩ := hw'
        exact lt_irrefl 10 (hlt heq 10 rfl 10 rfl)
      · cases hw'
    · cases hw
  refine ⟨List.pairwise_map.2 hpair, List.pairwise_map.2 (hpair.imp_of_mem fun hw hw' hne heq => hne ?_)⟩
  have hheld := (custody_of_reach h).exclusive.eq_of_mem (p := .written _) (q := .written _)
    (mem_writtenTo.2 (mem_writtenFor.1 hw).1) (mem_writtenTo.2 (mem_writtenFor.1 hw').1) heq
  simpa using hheld.1

/-- The recipient of a delivery record is that of the envelope written. -/
theorem written_of_logged (h : Reach L roster audit s) {c : ConnId} {ts : DateTime} {peer : String}
    (hlog : .logged c (.delivery ts id recipient peer) ∈ s.trace) :
    ∃ x, (c, x) ∈ writtenFor id recipient s.trace := by
  obtain ⟨pre, hpre, ⟨replyTo, kind, secs, hawait⟩, x, hx, rfl⟩ := grounded_of_mem h hlog
  have hx' := (mem_traceOf.1 (hpre hx)).1
  obtain ⟨replyTo', kind', secs', hawait'⟩ := for_of_held (p := .written c) h (mem_writtenTo.2 hx')
  obtain ⟨rfl, -⟩ := verb_unique h (mem_traceOf.1 (hpre hawait)).1 hawait'
  exact ⟨x, mem_writtenFor.2 ⟨hx', rfl, rfl⟩⟩

theorem length_deliveriesFor_le (h : Reach L roster audit s) :
    (deliveriesFor id recipient s.trace).length ≤ (writtenFor id recipient s.trace).length := by
  have hsub : deliveriesFor id recipient s.trace ⊆ (writtenFor id recipient s.trace).map Prod.fst := by
    intro c hc
    obtain ⟨ts, peer, hlog⟩ := mem_deliveriesFor.1 hc
    obtain ⟨x, hx⟩ := written_of_logged h hlog
    exact List.mem_map.2 ⟨_, hx, rfl⟩
  simpa using (List.subperm_of_subset (nodup_deliveriesFor h) hsub).length_le

/-- What is written or lost was accepted, and nothing is both. -/
theorem length_ended_le (h : Reach L roster audit s) :
    (writtenFor id recipient s.trace).length + (bouncedFor id recipient s.trace).length ≤
      (acceptedFor id recipient s.trace).length := by
  have hlost : ∀ x ∈ bouncedFor id recipient s.trace, ∃ c, .lost c x ∈ s.trace := by
    intro x hx
    obtain ⟨⟨y, hy⟩, -⟩ := mem_bouncedFor.1 hx
    obtain ⟨c, name, ts, ha⟩ := mem_bouncesOf.1 hy
    exact ⟨c, (role_of_accepted h ha).1⟩
  have haccepted : ∀ {p x}, x ∈ s.held p → x ∈ acceptedOf s.trace := fun hx =>
    mem_acceptedOf_of_routed h ((custody_of_reach h).routed _ _ hx)
  have hnodup : (((writtenFor id recipient s.trace).map fun w => w.2.seq) ++
      (bouncedFor id recipient s.trace).map Stamped.seq).Nodup := by
    refine List.nodup_append.2 ⟨(nodup_writtenFor h).2, ?_, fun i hi j hj heq => ?_⟩
    · have hbounced := nodup_bounced h
      have hmap : ((bouncesOf s.trace).map fun b => b.1.seq) =
          ((bouncesOf s.trace).map Prod.fst).map Stamped.seq := by
        rw [List.map_map]
        rfl
      rw [hmap] at hbounced
      exact hbounced.sublist (List.filter_sublist.map _)
    · obtain ⟨⟨c, x⟩, hx, rfl⟩ := List.mem_map.1 hi
      obtain ⟨y, hy, rfl⟩ := List.mem_map.1 hj
      obtain ⟨d, hy⟩ := hlost y hy
      have hplace := (custody_of_reach h).exclusive.eq_of_mem (p := .written c) (q := .lost d)
        (mem_writtenTo.2 (mem_writtenFor.1 hx).1) (mem_lostOn.2 hy) heq
      simp at hplace
  have hsub : (((writtenFor id recipient s.trace).map fun w => w.2.seq) ++
      (bouncedFor id recipient s.trace).map Stamped.seq) ⊆
      (acceptedFor id recipient s.trace).map Stamped.seq := by
    intro i hi
    rcases List.mem_append.1 hi with hi | hi
    · obtain ⟨⟨c, x⟩, hx, rfl⟩ := List.mem_map.1 hi
      obtain ⟨hx, habout⟩ := mem_writtenFor.1 hx
      exact List.mem_map_of_mem (mem_acceptedFor.2
        ⟨haccepted (p := .written c) (mem_writtenTo.2 hx), habout⟩)
    · obtain ⟨y, hy, rfl⟩ := List.mem_map.1 hi
      obtain ⟨d, hlost⟩ := hlost y hy
      exact List.mem_map_of_mem (mem_acceptedFor.2
        ⟨haccepted (p := .lost d) (mem_lostOn.2 hlost), (mem_bouncedFor.1 hy).2⟩)
  simpa using (List.subperm_of_subset hnodup hsub).length_le

/-- Once no record of a delivery is on its way, every written envelope has one. -/
theorem length_writtenFor_le (h : Reach L roster audit s) (hsucceed : AppendsSucceed s)
    (hdone : ∀ c pc, s.pc c = some pc → pc.delivering = false) :
    (writtenFor id recipient s.trace).length ≤ (deliveriesFor id recipient s.trace).length := by
  have hsub : (writtenFor id recipient s.trace).map Prod.fst ⊆ deliveriesFor id recipient s.trace := by
    intro c hc
    obtain ⟨⟨c, x⟩, hx, rfl⟩ := List.mem_map.1 hc
    obtain ⟨hwritten, rfl, rfl⟩ := mem_writtenFor.1 hx
    obtain ⟨k, hk⟩ : ∃ k, s.conns c = some k := exists_conn_of_mem h hwritten
    rcases delivering_of_run (run_of_reach h hk) (mem_traceOf.2 ⟨hwritten, rfl⟩) with hpc | ⟨o, ho, hlog⟩
    · rw [hdone c k.pc (pc_eq_of_conns hk)] at hpc
      cases hpc
    · have ho' := (mem_traceOf.1 ho).1
      rcases hlog with ⟨ts, id, name, peer, rfl⟩ | ⟨event, rfl⟩
      · obtain ⟨y, hy⟩ := written_of_logged h ho'
        obtain ⟨hwritten', rfl, rfl⟩ := mem_writtenFor.1 hy
        obtain ⟨n, hmarks⟩ := marked_of_reach h c
        cases hmarks.eq_of_mem (mem_traceOf.2 ⟨hwritten, rfl⟩) (mem_traceOf.2 ⟨hwritten', rfl⟩) rfl rfl
        exact mem_deliveriesFor.2 ⟨ts, peer, ho'⟩
      · exact absurd ho' (hsucceed.1 c event)
  simpa using (List.subperm_of_subset (nodup_writtenFor h).1 hsub).length_le

/-- For every id and recipient, in every prefix of the log : the `delivery` records and the
bounces of lost envelopes are together at most as many as the `accepted` records. When no
append has failed and no task has a `delivery` event on its way, there are as many
`delivery` records as written envelopes. -/
theorem deliveries_backed (h : Reach L roster audit s) (id recipient : String) :
    (∀ pre, pre <+: audited s.trace →
      (deliveriesFor id recipient pre).length + (bouncedFor id recipient pre).length ≤
        (acceptedFor id recipient pre).length) ∧
    (AppendsSucceed s → (∀ c pc, s.pc c = some pc → pc.delivering = false) →
      (deliveriesFor id recipient s.trace).length = (writtenFor id recipient s.trace).length) := by
  refine ⟨fun pre hpre => ?_, fun hsucceed hdone =>
    le_antisymm (length_deliveriesFor_le h) (length_writtenFor_le h hsucceed hdone)⟩
  obtain ⟨s₀, h₀, rfl⟩ := exists_of_prefix h hpre
  rw [deliveriesFor_audited, bouncedFor, bouncesOf_audited, acceptedFor, acceptedOf_audited]
  exact (Nat.add_le_add_right (length_deliveriesFor_le h₀) _).trans (length_ended_le h₀)

/-- `alice` is written a task of `bob`, and its delivery is recorded. -/
theorem deliveries_backed_exchange : ∃ s, SampleReach s ∧
    (deliveriesFor "m1" "alice" s.trace).length = 1 ∧
    (acceptedFor "m1" "alice" s.trace).length = 1 ∧ ∀ pre, pre <+: audited s.trace →
      (deliveriesFor "m1" "alice" pre).length + (bouncedFor "m1" "alice" pre).length ≤
        (acceptedFor "m1" "alice" pre).length := by
  obtain ⟨s, h, hs⟩ := @exists_of_runSample exchange
    (fun s => (deliveriesFor "m1" "alice" s.trace).length = 1 ∧
      (acceptedFor "m1" "alice" s.trace).length = 1) (by decide +kernel)
  obtain ⟨hdelivered, haccepted⟩ := of_decide_eq_true hs
  exact ⟨s, h, hdelivered, haccepted, (deliveries_backed h "m1" "alice").1⟩

end Hub

end AgentHub
