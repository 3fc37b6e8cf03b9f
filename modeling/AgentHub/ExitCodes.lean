import AgentHub.PartialDelivery
import AgentHub.Refusals
import AgentHub.Sample
import AgentHub.SessionRuns

/-!
# What exit code 1 tells

An invocation that exits with code 1 has got an error from the hub, or no whole second line. The hub
answers with an error only where it has committed and taken nothing. So exit code 1 means that
nothing was queued or consumed, unless the hub has got the verb and its reply is lost
(`Session.untouched_of_exit_one`). Then a send may be committed (`Session.exists_unheard_send`).
-/

namespace AgentHub

namespace Session

/-- The client has exited without a second line, and the hub has both lines of the client. -/
def unheard (c : ConnId) (s : Session) : Bool :=
  s.client.hasExited && s.client.consumed.count newline < 2 &&
    (s.hub.conns c).any fun k => 2 ≤ k.received.count newline

section

variable (L : Libs) (S : SerdeJson) (roster : Roster) (inv : Invocation) (c : ConnId)

/-- After the step the client is not unheard. -/
def StaysHeard (s : Session) (e : Event) : Prop :=
  ∀ s', step L S roster inv c s e = some s' → s'.unheard c = false

end

variable {L : Libs} {F : Floats} {S : SerdeJson} {formatTs : DateTime → String} {roster : Roster}
  {inv : Invocation} {c : ConnId} {audit : AuditLog} {fine : Bool} {s : Session}

theorem unheard_eq_false_of_reach
    (h : Machine.ReachVia (step L S roster inv c) (StaysHeard L S roster inv c) (init audit) s) :
    s.unheard c = false := by
  cases h with
  | init => rfl
  | next _ hheard hs => exact hheard _ hs

theorem Paired.received_isPrefix (h : s.Paired L F S roster inv c audit fine) {k : Conn}
    (hk : s.hub.conns c = some k) : k.received <+: inv.bytes F :=
  (h.received k hk).trans h.client.sent_isPrefix

/-- The verb that the hub dispatches is that of the invocation. -/
theorem Paired.decode_of_verb (hS : S.Derived F formatTs) (h : s.Paired L F S roster inv c audit fine)
    {name : String} {read : ClientLine} (hverb : .verb c name read ∈ s.hub.trace) :
    ClientLine.decode F (inv.verb.encode F) = some read := by
  obtain ⟨k, hk⟩ := Hub.exists_conn_of_mem h.reach hverb
  obtain ⟨-, bytes, text, hbytes, htext, hread⟩ := received_of_secondLine (ClientLine.isLine_bytes inv.hello)
    (ClientLine.isLine_bytes inv.verb) (h.received_isPrefix hk) (Hub.secondLine_of_verb h.reach hk hverb)
  exact decode_of_line hS hbytes htext hread

/-- An invocation that exits with code 1 has made the hub commit or consume nothing, in every run in
which it is not unheard. -/
theorem untouched_of_exit_one (hS : S.Derived F formatTs) (hF : F.Lawful)
    (h : Machine.ReachVia (step (L.withSerde S) S roster inv c) (StaysHeard (L.withSerde S) S roster inv c)
      (init audit) s) {r : Except ClientError Exit} (hexit : s.client.pc = .exited r)
    (hcode : exitCode r = 1) : Untouched c s.hub.trace := by
  have hpaired : s.Paired L F S roster inv c audit false :=
    paired_of_reach hS (h.mono fun _ _ _ _ => rfl)
  have hends := hpaired.client
  unfold Client.Follows at hends
  rw [hexit] at hends
  cases hends with
  | refused hsent hans => exact Hub.untouched_of_error hpaired.reach hans
  | last hsent hlast =>
    have hsettled := Hub.settled_of_last hS hF hpaired.reach (fun _ _ => hpaired.decode_of_verb hS) hlast
    generalize finish S inv.verb _ = r at hsettled hcode
    cases hsettled with
    | refused hans => exact Hub.untouched_of_error hpaired.reach hans
    | accepted | timedOut | delivered => cases hcode
  | severed hsent _ hcount =>
    refine Hub.untouched_of_silent hpaired.reach fun name line hverb => ?_
    obtain ⟨k, hk⟩ := Hub.exists_conn_of_mem hpaired.reach hverb
    have hexited : s.client.hasExited = true := by
      unfold Client.hasExited
      rw [hexit]
    have hreceived := (Hub.secondLine_of_verb hpaired.reach hk hverb).two_le_count
    have hunheard := unheard_eq_false_of_reach h
    have hheard : s.unheard c = true := by
      simp only [unheard, hexited, show s.hub.conns c = some k from hk, hcount, Option.any_some, hreceived,
        decide_true, Bool.and_self]
    cases hheard.symm.trans hunheard

/-! ## Sample sessions -/

/-- A step of the session of an invocation with the sample hub. -/
def sampleStep (inv : Invocation) : Session → Event → Option Session :=
  step (sampleLibs.withSerde sampleSerde) sampleSerde sampleRoster inv 0

/-- One write appends the whole audit line of `event`. -/
def appending (event : AuditEvent) : Event :=
  .hub 0 (.append 0
    [.ok (asBytes (String.ofList (event.encode noFloats fun _ => epoch).text ++ "\n")).length])

/-- The client connects and writes its hello, which the hub reads. -/
def introducing (inv : Invocation) : List Event :=
  let hello := inv.hello.bytes noFloats
  [.connect 0 "127.0.0.1:49152", .hub 0 (.lockAudit 0), appending (.connection 0 "127.0.0.1:49152"),
    .hub 0 (.unlockAudit 0), .client (.wrote hello.length), .hub 0 (.task 0 (.recv (.ok hello)))]

/-- The hub answers `ok`, and the client writes its verb, which the hub reads. -/
def requesting (inv : Invocation) : List Event :=
  let verb := inv.verb.bytes noFloats
  [.hub 0 (.task 0 (.replied (.ok ()))), .client (.read (ServerLine.ok.bytes noFloats)),
    .client (.wrote verb.length), .hub 0 (.task 0 (.recv (.ok verb)))]

/-- `bob` sends the sample envelope, with the token of `alice`. -/
def bobMistaken : Invocation :=
  ⟨"bob", "a-token", .send (sampleEnvelope "m1" "task")⟩

/-- The hub refuses the token, and the client reads so. -/
def refusal : List Event :=
  let line := ServerLine.error "authentication failed for \"bob\": token mismatch"
  introducing bobMistaken ++ [.hub 0 (.lockAudit 0),
    appending (.authFailure 0 "127.0.0.1:49152" "bob" .tokenMismatch), .hub 0 (.unlockAudit 0),
    .hub 0 (.task 0 (.replied (.ok ()))), .client (.read (line.bytes noFloats))]

/-- `bob` sends the sample envelope. -/
def bobSending : Invocation :=
  ⟨"bob", "b-token", .send (sampleEnvelope "m1" "task")⟩

/-- The hub commits the envelope, and the connection breaks. -/
def breakdown : List Event :=
  introducing bobSending ++ requesting bobSending ++ [.hub 0 (.lockAudit 0),
    appending (.accepted 0 (sampleEnvelope "m1" "task")), .breaks, .client (.read [])]

/-- The client has exited with code 1. -/
def failed (s : Session) : Bool :=
  match s.client.pc with
  | .exited r => exitCode r = 1
  | _ => false

theorem exists_of_failed (h : s.failed = true) : ∃ r, s.client.pc = .exited r ∧ exitCode r = 1 := by
  unfold failed at h
  split at h
  · exact ⟨_, ‹_›, by simpa using h⟩
  · cases h

/-- A send was committed on connection 0. -/
def committed (s : Session) : Bool :=
  s.hub.trace.any fun
    | .accepted 0 (.send _) _ _ => true
    | _ => false

theorem exists_of_committed (h : s.committed = true) :
    ∃ name ts x, .accepted 0 (.send name) ts x ∈ s.hub.trace := by
  obtain ⟨o, ho, hmatch⟩ := List.any_eq_true.1 h
  split at hmatch
  · exact ⟨_, _, _, ho⟩
  · cases hmatch

theorem untouched_of_exit_one_refused : ∃ s, Machine.Reach (sampleStep bobMistaken) (init sampleAudit) s ∧
    s.failed = true ∧ Untouched 0 s.hub.trace := by
  have hS : sampleSerde.Derived noFloats fun _ => epoch := SerdeJson.derived_ofDerives _ _
  obtain ⟨s, hs, hfailed⟩ := Option.any_eq_true _ _ |>.1
    (by decide +kernel : (Machine.run (sampleStep bobMistaken) (init sampleAudit) refusal).any failed = true)
  have hreach : Machine.ReachVia (sampleStep bobMistaken)
      (StaysHeard (sampleLibs.withSerde sampleSerde) sampleSerde sampleRoster bobMistaken 0)
      (init sampleAudit) s := by
    refine Machine.reachVia_of_states (P := fun s => s.unheard 0 = false)
      (fun s e s' hs hP s₁ hs₁ => ?_) hs (by decide +kernel)
    obtain rfl := Option.some.inj (hs.symm.trans hs₁)
    exact hP
  obtain ⟨r, hr, hcode⟩ := exists_of_failed hfailed
  exact ⟨s, hreach.reach, hfailed, untouched_of_exit_one hS lawful_noFloats hreach hr hcode⟩

/-- The hub has committed an envelope, and the invocation that sent it exits with code 1. -/
theorem exists_unheard_send : ∃ s name ts x, Machine.Reach (sampleStep bobSending) (init sampleAudit) s ∧
    s.failed = true ∧ .accepted 0 (.send name) ts x ∈ s.hub.trace := by
  obtain ⟨s, hs, hend⟩ := Option.any_eq_true _ _ |>.1
    (by decide +kernel : (Machine.run (sampleStep bobSending) (init sampleAudit) breakdown).any
      (fun s => s.failed && s.committed) = true)
  obtain ⟨hfailed, hcommitted⟩ := Bool.and_eq_true_iff.1 hend
  obtain ⟨name, ts, x, hx⟩ := exists_of_committed hcommitted
  exact ⟨s, name, ts, x, Machine.reach_of_run hs, hfailed, hx⟩

end Session

end AgentHub
