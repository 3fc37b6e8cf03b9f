import AgentHub.Conservation
import AgentHub.Identity
import AgentHub.Timeout

/-!
# Bounces and losses

A bounce is committed for an envelope that a partial write has lost, and what it reports is
kept in its role (`bouncesOf`). The hub's own envelopes are the bounces, no loss is reported
twice, and a loss of a client's envelope is reported unless the append of its bounce fails
(`bounce_correspondence`). Nothing follows the loss of a bounce, so bounces do not chain.

Each delivery ends once, by a full write, a loss or a requeue, and of these only the loss of
a client's envelope makes its task owe a bounce (`Pc.owes`, `owed_of_run`).
-/

namespace AgentHub

/-- The bounces of a trace, each behind the envelope whose loss it reports. -/
def bouncesOf (trace : List Obs) : List (Stamped × Stamped) :=
  trace.filterMap fun
    | .accepted _ (.bounce lost _) _ x => some (lost, x)
    | _ => none

theorem mem_bouncesOf {trace : List Obs} {lost x : Stamped} :
    (lost, x) ∈ bouncesOf trace ↔ ∃ c name ts, .accepted c (.bounce lost name) ts x ∈ trace := by
  unfold bouncesOf
  rw [List.mem_filterMap]
  constructor
  · rintro ⟨o, ho, hx⟩
    cases o with
    | accepted c role ts y =>
      rcases role with name | ⟨lost', name⟩ <;> cases hx
      exact ⟨c, name, ts, ho⟩
    | _ => cases hx
  · rintro ⟨c, name, ts, ho⟩
    exact ⟨_, ho, rfl⟩

section Task

variable {L : Libs} {roster : Roster} {now : DateTime} {c : ConnId} {k k' : Conn} {t obs : List Obs}

/-- The task has lost `x`, and has not appended the bounce for it yet. -/
def Pc.owes (x : Stamped) : Pc → Prop
  | .bouncing _ y | .committing .waiting (.bounce y _) _ | .committing .locked (.bounce y _) _ => y = x
  | _ => False

/-- The append of the bounce for `x` has returned. -/
def Obs.settles (c : ConnId) (x : Stamped) (o : Obs) : Prop :=
  (∃ name e, o = .refused c (.bounce x name) e) ∨ ∃ name ts y, o = .accepted c (.bounce x name) ts y

theorem owes_of_localStep {x : Stamped} (hfrom : x.envelope.from ≠ hubName)
    (h : k.LocalStep L roster now c k' obs) (hx : k.pc.owes x ∨ .lost c x ∈ obs) : k'.pc.owes x := by
  cases h with
  | failedPartial hpc =>
    rw [hpc] at hx
    rcases hx with hx | hx
    · exact hx.elim
    · simpa [Pc.owes, eq_comm] using hx
  | bounceLost hpc hpos hhub =>
    rw [hpc] at hx
    rcases hx with hx | hx
    · exact hx.elim
    · obtain rfl : x = _ := by simpa using hx
      exact absurd hhub hfrom
  | bounced hpc =>
    rw [hpc] at hx
    simpa [Pc.owes] using hx
  | peerClosed => simpa using hx
  | wroteAll hpc hobs =>
    rw [hpc] at hx
    rcases hobs with rfl | rfl <;> simp [Pc.owes] at hx
  | handed hwaits | channelLost hwaits =>
    generalize k.pc = pc at hwaits hx
    cases hwaits <;> simp [Pc.owes] at hx
  | died hmortal =>
    generalize k.pc = pc at hmortal hx
    cases hmortal <;> simp [Pc.owes] at hx
  | helloMore hpc | helloRefused hpc | helloAccepted hpc | verbMore hpc | verbRefused hpc
  | verbInvalid hpc | verbSend hpc | verbAwait hpc | repliedVerb hpc | replyLost hpc | answered hpc
  | timer hpc | wroteMore hpc | failedClean hpc =>
    rw [hpc] at hx
    simp [Pc.owes] at hx

theorem owes_of_sharedStep {x : Stamped} {i : Input} (h : k.SharedStep now c i k' obs)
    (hx : k.pc.owes x ∨ .lost c x ∈ obs) : k'.pc.owes x ∨ ∃ o ∈ obs, o.settles c x := by
  replace hx := hx.resolve_right (not_carried_of_sharedStep h).2
  cases h with
  | @lockedCommit role e hpc =>
    rw [hpc] at hx
    cases role with
    | bounce y name => exact Or.inl hx
    | send name => exact hx.elim
  | @accepted role e seq hpc =>
    rw [hpc] at hx
    cases role with
    | bounce y name =>
      obtain rfl : y = x := hx
      exact Or.inr ⟨_, List.mem_singleton_self _, Or.inr ⟨name, now, _, rfl⟩⟩
    | send name => exact hx.elim
  | @refused role e cause hpc =>
    rw [hpc] at hx
    cases role with
    | bounce y name =>
      obtain rfl : y = x := hx
      exact Or.inr ⟨_, List.mem_singleton_self _, Or.inl ⟨name, e, rfl⟩⟩
    | send name => exact hx.elim
  | unlocked hpc =>
    generalize k.pc = p at hpc hx
    unfold Conn.afterUnlock at hpc
    split at hpc <;> first | exact hx.elim | cases hpc
  | lockedAudit hpc | logged hpc | unlogged hpc | routed hpc | took hpc | parked hpc | deregistered hpc
  | raceLost hpc | requeued hpc =>
    rw [hpc] at hx
    exact hx.elim

/-- A task that has lost a client's envelope owes the bounce for it until its append has
returned. -/
theorem owed_of_run (h : Conn.Run L roster c t k) {x : Stamped} (hfrom : x.envelope.from ≠ hubName)
    (hx : .lost c x ∈ t) : k.pc.owes x ∨ ∃ o ∈ t, o.settles c x :=
  @Conn.Run.pending_or_closed L roster c (Pc.owes x) (· = .lost c x) (Obs.settles c x)
    (fun hstep ho => Or.inl (owes_of_localStep hfrom hstep (by simpa using ho)))
    (fun hstep ho => owes_of_sharedStep hstep (by simpa using ho)) t k h ⟨_, hx, rfl⟩

theorem stage_le_of_owes {pc : Pc} {x : Stamped} (h : pc.owes x) : pc.stage ≤ 12 := by
  unfold Pc.owes at h
  split at h <;> simp_all [Pc.stage]

end Task

theorem bounceEnvelope_member (L : Libs) (now : DateTime) (uuid lostId sender recipient reason : String) :
    (bounceEnvelope L now uuid lostId sender recipient reason).body.member? "id" = some (.string lostId) ∧
      (bounceEnvelope L now uuid lostId sender recipient reason).body.member? "to" =
        some (.string recipient) := by
  have hto : ¬"to" < "id" := by decide
  have hreason : ¬"reason" < "id" := by decide
  have hreason' : "reason" < "to" := by decide
  simp [bounceEnvelope, Value.ofMembers, insertMember, Value.member?, hto, hreason, hreason']

namespace Hub

variable {L : Libs} {roster : Roster} {audit : AuditLog} {s s' : Hub}

/-- What is lost was accepted before. -/
theorem accepted_before_lost (h : Reach L roster audit s) :
    Justified (fun pre o => ∀ c x, o = .lost c x → x ∈ acceptedOf pre) s.trace := by
  refine Machine.ReachVia.invariant (P := fun s => Justified (fun pre o => ∀ c x, o = .lost c x →
    x ∈ acceptedOf pre) s.trace) h .nil fun s a s' hr hP _ hs => ?_
  rcases task_of_step (step_cases hs) with ⟨-, heq, -⟩ | ⟨k, k', obs, hk, -, heq, hemit⟩
  · rwa [heq]
  rw [heq]
  refine hP.append ?_
  rintro pre o post hobs c x rfl
  have hmem : .lost c x ∈ obs := by rw [hobs]; simp
  rcases hemit with hlocal | ⟨i, hshared, -⟩
  · obtain ⟨rfl, hcarried⟩ := carried_of_localStep hlocal (Or.inr hmem)
    have hheld : x ∈ s.held (.task a.2.conn) := by simp [held_task hk, hcarried]
    rw [acceptedOf_append]
    exact List.mem_append_left _ (mem_acceptedOf_of_routed hr ((custody_of_reach hr).routed _ x hheld))
  · exact absurd hmem (not_carried_of_sharedStep hshared).2

/-- The hub's own envelopes are the bounces. -/
theorem from_hub_iff (hroster : roster.Accepted) (h : Reach L roster audit s) {c : ConnId} {role : Role}
    {ts : DateTime} {x : Stamped} (hx : .accepted c role ts x ∈ s.trace) :
    x.envelope.from = hubName ↔ ∃ lost name, role = .bounce lost name := by
  have hrole := role_of_accepted h hx
  cases role with
  | send name =>
    obtain ⟨e, -, hverb, he⟩ := hrole
    obtain ⟨token, htoken⟩ := (hello_of_verb h hverb).get
    have hne : x.envelope.from ≠ hubName := by
      rw [he]
      exact hroster.ne_hubName htoken
    simp [hne]
  | bounce lost name =>
    obtain ⟨-, -, -, now, uuid, he⟩ := hrole
    exact ⟨fun _ => ⟨lost, name, rfl⟩, fun _ => by rw [he]; rfl⟩

theorem filter_hub_eq (hroster : roster.Accepted) (h : Reach L roster audit s) :
    (acceptedOf s.trace).filter (fun x => x.envelope.from = hubName) =
      (bouncesOf s.trace).map Prod.snd := by
  rw [acceptedOf, bouncesOf, List.filter_filterMap, List.map_filterMap]
  refine List.filterMap_congr fun o ho => ?_
  cases o with
  | accepted c role ts x =>
    have hiff := from_hub_iff hroster h ho
    cases role <;> simp [Option.filter, hiff]
  | _ => rfl

/-- An instance is lost once. -/
theorem lost_unique (h : Reach L roster audit s) {c d : ConnId} {x y : Stamped}
    (hx : .lost c x ∈ s.trace) (hy : .lost d y ∈ s.trace) (hxy : x.seq = y.seq) : c = d ∧ x = y := by
  have hheld := (custody_of_reach h).exclusive.eq_of_mem (p := .lost c) (q := .lost d)
    (mem_lostOn.2 hx) (mem_lostOn.2 hy) hxy
  simpa using hheld

/-- No loss is reported twice. -/
theorem nodup_bounced (h : Reach L roster audit s) :
    ((bouncesOf s.trace).map fun b => b.1.seq).Nodup := by
  rw [List.Nodup, List.pairwise_map, bouncesOf, List.pairwise_filterMap]
  refine (increasing_of_reach h).imp_of_mem fun {o o'} ho ho' hlt b hb b' hb' heq => ?_
  cases o with
  | accepted c role ts x =>
    cases o' with
    | accepted c' role' ts' x' =>
      cases role with
      | bounce lost name =>
        cases role' with
        | bounce lost' name' =>
          cases hb
          cases hb'
          obtain ⟨rfl, -⟩ := lost_unique h (role_of_accepted h ho).1 (role_of_accepted h ho').1 heq
          exact lt_irrefl 13 (hlt rfl 13 rfl 13 rfl)
        | send => cases hb'
      | send => cases hb
    | _ => cases hb'
  | _ => cases hb

/-- The bounce `x` reports the loss of `lost`, which was accepted from the addressee of the
bounce, then lost, before the bounce was accepted. -/
structure Reports (roster : Roster) (s : Hub) (lost x : Stamped) : Prop where
  order : ∃ c d ts ts' t₁ t₂ t₃ t₄, s.trace = t₁ ++ .accepted d (.send x.envelope.to) ts lost ::
    (t₂ ++ .lost c lost :: (t₃ ++ .accepted c (.bounce lost lost.envelope.to) ts' x :: t₄))
  kind : x.envelope.kind = bounceKind
  correlationId : x.envelope.correlationId = some lost.envelope.id
  body_id : x.envelope.body.member? "id" = some (.string lost.envelope.id)
  body_to : x.envelope.body.member? "to" = some (.string lost.envelope.to)
  to_ne : x.envelope.to ≠ hubName
  to_mem : ∃ token, roster.get x.envelope.to = some token

theorem reports_of_mem (hroster : roster.Accepted) (h : Reach L roster audit s) {lost x : Stamped}
    (hx : (lost, x) ∈ bouncesOf s.trace) : Reports roster s lost x := by
  obtain ⟨c, name, ts', hx⟩ := mem_bouncesOf.1 hx
  obtain ⟨hlost, hfrom, -, now, uuid, he⟩ := role_of_accepted h hx
  obtain rfl := (addressed_of_reach h).bounced c lost name ts' x hx
  have hto : x.envelope.to = lost.envelope.from := by rw [he]; rfl
  have hmember := bounceEnvelope_member L now uuid lost.envelope.id lost.envelope.from lost.envelope.to
    "delivery failed after partial write"
  -- the loss stands before the bounce, the acceptance before the loss
  obtain ⟨pre, t₄, hsplit⟩ := List.append_of_mem hx
  have hbefore : .lost c lost ∈ pre := (List.mem_filter.1 (grounded_of_split h hsplit).1).1
  obtain ⟨pre', t₃, hpre⟩ := List.append_of_mem hbefore
  have hsplit' : s.trace = pre' ++ .lost c lost ::
      (t₃ ++ .accepted c (.bounce lost lost.envelope.to) ts' x :: t₄) := by
    rw [hsplit, hpre, List.append_assoc, List.cons_append]
  obtain ⟨d, role, ts, ha⟩ := mem_acceptedOf.1 (accepted_before_lost h _ _ _ hsplit' c lost rfl)
  obtain ⟨t₁, t₂, hpre'⟩ := List.append_of_mem ha
  have ha' : .accepted d role ts lost ∈ s.trace := by rw [hsplit', hpre']; simp
  have hsend : role = .send x.envelope.to := by
    have hiff := from_hub_iff hroster h ha'
    cases role with
    | send name =>
      obtain ⟨e, -, -, he'⟩ := role_of_accepted h ha'
      rw [hto, he']
    | bounce lost' name => exact absurd (hiff.2 ⟨lost', name, rfl⟩) hfrom
  subst hsend
  obtain ⟨e, -, hverb, he'⟩ := role_of_accepted h ha'
  obtain ⟨token, htoken⟩ := (hello_of_verb h hverb).get
  refine ⟨⟨c, d, ts, ts', t₁, t₂, t₃, t₄, ?_⟩, by rw [he]; rfl, by rw [he]; rfl, by rw [he]; exact hmember.1,
    by rw [he]; exact hmember.2, hto ▸ hfrom, token, htoken⟩
  rw [hsplit', hpre', List.append_assoc, List.cons_append]

/-- Of a client's envelope that `c` has lost : its bounce is still to be appended, or its
append failed, or it was appended. -/
theorem exactlyOne_of_lost (h : Reach L roster audit s) {c : ConnId} {k : Conn} {x : Stamped}
    (hk : s.conns c = some k) (hx : .lost c x ∈ s.trace) (hfrom : x.envelope.from ≠ hubName) :
    ExactlyOne (k.pc.owes x) (∃ name e, .refused c (.bounce x name) e ∈ s.trace)
      (∃ y, (x, y) ∈ bouncesOf s.trace) := by
  have hmarks := marked_of_run (run_of_reach h hk)
  have howner : ∀ {y}, (x, y) ∈ bouncesOf s.trace →
      ∃ name ts, .accepted c (.bounce x name) ts y ∈ s.traceOf c := by
    intro y hy
    obtain ⟨d, name, ts, hy⟩ := mem_bouncesOf.1 hy
    obtain ⟨rfl, -⟩ := lost_unique h hx (role_of_accepted h hy).1 rfl
    exact ⟨name, ts, mem_traceOf.2 ⟨hy, rfl⟩⟩
  refine ExactlyOne.intro ?_ ?_ ?_ ?_
  · rcases owed_of_run (run_of_reach h hk) hfrom (mem_traceOf.2 ⟨hx, rfl⟩) with
      howes | ⟨o, ho, ⟨name, e, rfl⟩ | ⟨name, ts, y, rfl⟩⟩
    · exact Or.inl howes
    · exact Or.inr (Or.inl ⟨name, e, traceOf_subset s c ho⟩)
    · exact Or.inr (Or.inr ⟨y, mem_bouncesOf.2 ⟨c, name, ts, traceOf_subset s c ho⟩⟩)
  · rintro howes ⟨name, e, hr⟩
    have := hmarks.le _ (mem_traceOf.2 ⟨hr, rfl⟩) 13 rfl
    have := stage_le_of_owes howes
    omega
  · rintro howes ⟨y, hy⟩
    obtain ⟨name, ts, hy⟩ := howner hy
    have := hmarks.le _ hy 13 rfl
    have := stage_le_of_owes howes
    omega
  · rintro ⟨name, e, hr⟩ ⟨y, hy⟩
    obtain ⟨name', ts, hy⟩ := howner hy
    cases hmarks.eq_of_mem (mem_traceOf.2 ⟨hr, rfl⟩) hy rfl rfl

/-- The task that commits a bounce has ended its delivery with that loss. -/
theorem ends_of_bounce (h : Reach L roster audit s) {c : ConnId} {lost x : Stamped} {name : String}
    {ts : DateTime} (hx : .accepted c (.bounce lost name) ts x ∈ s.trace) {o : Obs} (ho : o ∈ s.trace)
    (hc : o.conn = c) (hstage : o.stage = some 10) : o = .lost c lost := by
  obtain ⟨n, hmarks⟩ := marked_of_reach h c
  have hlost : .lost c lost ∈ s.trace := (role_of_accepted h hx).1
  exact hmarks.eq_of_mem (mem_traceOf.2 ⟨ho, hc⟩) (mem_traceOf.2 ⟨hlost, rfl⟩) hstage rfl

/-- There are at most as many bounces as envelopes of clients. -/
theorem length_bouncesOf_le (hroster : roster.Accepted) (h : Reach L roster audit s) :
    (bouncesOf s.trace).length ≤
      ((acceptedOf s.trace).filter fun x => x.envelope.from ≠ hubName).length := by
  have hsub : ((bouncesOf s.trace).map fun b => b.1.seq) ⊆
      (((acceptedOf s.trace).filter fun x => x.envelope.from ≠ hubName).map Stamped.seq) := by
    intro n hn
    obtain ⟨⟨lost, x⟩, hx, rfl⟩ := List.mem_map.1 hn
    obtain ⟨c, name, ts, ha⟩ := mem_bouncesOf.1 hx
    obtain ⟨d, c', ts', ts'', t₁, t₂, t₃, t₄, hsplit⟩ := (reports_of_mem hroster h hx).order
    have hlost : lost ∈ acceptedOf s.trace :=
      mem_acceptedOf.2 ⟨c', .send x.envelope.to, ts', by rw [hsplit]; simp⟩
    exact List.mem_map_of_mem (List.mem_filter.2 ⟨hlost, by simpa using (role_of_accepted h ha).2.1⟩)
  simpa using (List.subperm_of_subset (nodup_bounced h) hsub).length_le

/-- With any roster that `load` accepts, in every run : the hub's own envelopes are the
bounces, each reports one loss, of an envelope accepted from its addressee, an agent of the
roster other than the hub, and no loss is reported twice. The loss of a client's envelope
is reported exactly if the append of its bounce succeeds. A task that commits a bounce has
neither written nor requeued an envelope, and no bounce reports the loss of a bounce. There
are at most as many bounces as envelopes of clients. -/
theorem bounce_correspondence {readToString : String → Except String String}
    {fromStr : String → Except String Roster} {path : String}
    (hroster : Roster.load readToString fromStr path = .ok roster) (h : Reach L roster audit s) :
    (acceptedOf s.trace).filter (fun x => x.envelope.from = hubName) =
      (bouncesOf s.trace).map Prod.snd ∧
    (∀ p, ∀ x ∈ s.held p, x.envelope.from = hubName → ∃ lost, (lost, x) ∈ bouncesOf s.trace) ∧
    (∀ lost x, (lost, x) ∈ bouncesOf s.trace → Reports roster s lost x) ∧
    ((bouncesOf s.trace).map fun b => b.1.seq).Nodup ∧
    ((bouncesOf s.trace).map fun b => b.2.seq).Nodup ∧
    (∀ c k x, s.conns c = some k → .lost c x ∈ s.trace → x.envelope.from ≠ hubName →
      ExactlyOne (k.pc.owes x) (∃ name e, .refused c (.bounce x name) e ∈ s.trace)
        (∃ y, (x, y) ∈ bouncesOf s.trace)) ∧
    (∀ c lost name ts x, .accepted c (.bounce lost name) ts x ∈ s.trace →
      (∀ y, .written c y ∉ s.trace) ∧ (∀ y outcome, .routed c y .front outcome ∉ s.trace) ∧
        ∀ y, .lost c y ∈ s.trace → y = lost) ∧
    (∀ c lost, .lost c lost ∈ s.trace → lost.envelope.from = hubName →
      ∀ b ∈ bouncesOf s.trace, b.1.seq ≠ lost.seq) ∧
    ((acceptedOf s.trace).filter fun x => x.envelope.from = hubName).length ≤
      ((acceptedOf s.trace).filter fun x => x.envelope.from ≠ hubName).length := by
  have haccepted := Roster.accepted_of_load hroster
  have hhub := filter_hub_eq haccepted h
  refine ⟨hhub, fun p x hx hfrom => ?_, fun lost x hx => reports_of_mem haccepted h hx, nodup_bounced h,
    ?_, fun c k x hk hx hfrom => exactlyOne_of_lost h hk hx hfrom, fun c lost name ts x hx => ?_,
    fun c lost hlost hfrom ⟨lost', x⟩ hb heq => ?_, ?_⟩
  · have hmem := mem_acceptedOf_of_routed h ((custody_of_reach h).routed p x hx)
    have hbounce : x ∈ (bouncesOf s.trace).map Prod.snd := by
      rw [← hhub]
      exact List.mem_filter.2 ⟨hmem, by simpa using hfrom⟩
    obtain ⟨⟨lost, y⟩, hb, rfl⟩ := List.mem_map.1 hbounce
    exact ⟨lost, hb⟩
  · have hseq : ((bouncesOf s.trace).map fun b => b.2.seq) =
        ((acceptedOf s.trace).filter fun x => x.envelope.from = hubName).map Stamped.seq := by
      rw [hhub, List.map_map]
      rfl
    rw [hseq]
    exact (nodup_of_reach h).sublist (List.filter_sublist.map Stamped.seq)
  · refine ⟨fun y hy => ?_, fun y outcome hy => ?_, fun y hy => ?_⟩
    · cases ends_of_bounce h hx hy rfl rfl
    · cases ends_of_bounce h hx hy rfl rfl
    · cases ends_of_bounce h hx hy rfl rfl
      rfl
  · obtain ⟨c', name, ts, hx⟩ := mem_bouncesOf.1 hb
    obtain ⟨hlost', hne, -⟩ := role_of_accepted h hx
    obtain ⟨-, rfl⟩ := lost_unique h hlost hlost' heq.symm
    exact hne hfrom
  · rw [hhub, List.length_map]
    exact length_bouncesOf_le haccepted h

/-- `alice` waits, the write of `bob`'s task breaks after one byte, and the hub sends `bob`
a bounce. -/
def brokenDelivery : List Action :=
  opening 0 aliceHello.bytes awaitAny.bytes ++ [.await 0] ++
  opening 1 bobHello.bytes sendTask.bytes ++ committing 1 (sampleEnvelope "m1" "task") ++
  [.task 0 .polled, .task 0 (.wrote (.ok 1)), .task 0 (.wrote (.err (.other "Broken pipe"))),
    .task 0 (.bounced "b1")] ++
  committing 0 (bounceEnvelope sampleLibs 0 "b1" "m1" "bob" "alice" "delivery failed after partial write")

theorem bounce_correspondence_broken : ∃ s, SampleReach s ∧ (bouncesOf s.trace).length = 1 ∧
    (s.state.queue "bob").length = 1 ∧
    ∀ lost x, (lost, x) ∈ bouncesOf s.trace → Reports sampleRoster s lost x := by
  obtain ⟨s, h, hs⟩ := @exists_of_runSample brokenDelivery (fun s => (bouncesOf s.trace).length = 1 ∧
    (s.state.queue "bob").length = 1) (by decide +kernel)
  obtain ⟨hbounces, hqueue⟩ := of_decide_eq_true hs
  exact ⟨s, h, hbounces, hqueue, (bounce_correspondence load_sampleRoster h).2.2.1⟩

end Hub

end AgentHub
