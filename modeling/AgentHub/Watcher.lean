import AgentHub.Bounces
import AgentHub.PeerClosed

/-!
# What a bounce watcher sees

The kind `bounce` is reserved for the loss notices of the hub, and an agent can await it to
learn of its losses. Nothing keeps a client from sending an envelope of that kind, since
`validate` does not look at it and only the sender is stamped (`exists_forged`).

In a run in which no client does, what a watcher gets is a real loss : of an envelope that
it had sent itself, that was accepted and then lost by a partial write (`watcher_sees_losses`).
-/

namespace AgentHub

/-- Whether an envelope is lost. -/
def Obs.isLoss : Obs → Bool
  | .lost _ _ => true
  | _ => false

section Task

variable {L : Libs} {roster : Roster} {now : DateTime} {c : ConnId} {k k' : Conn} {obs : List Obs}

/-- The verb line that ends with what `fill_buf` returns. -/
def Conn.decodes (L : Libs) (k : Conn) (r : Except String (List UInt8)) : Option ClientLine :=
  match k.pc with
  | .readVerb _ line =>
    match readLineStep line r with
    | .done (.ok (some text)) _ => (fromJsonl L.clientLineFromStr text).toOption
    | _ => none
  | _ => none

/-- The verb line the task reads in a step. -/
def Conn.reads (L : Libs) (k : Conn) : Input → Option ClientLine
  | .recv r => k.decodes L r
  | .refill => k.decodes L (.ok k.buf)
  | _ => none

theorem onVerbLine_verb {name : String} {r : Except ReadLineError (Option String)} {d : ConnId}
    {n : String} {line : ClientLine} (h : .verb d n line ∈ (onVerbLine L c name r).2) :
    ∃ text, r = .ok (some text) ∧ fromJsonl L.clientLineFromStr text = .ok line := by
  unfold onVerbLine at h
  split at h
  · simp at h
  · simp at h
  rename_i text
  refine ⟨text, rfl, ?_⟩
  split at h
  · simp at h
  · rename_i hline
    rw [hline, (Obs.verb.inj (List.mem_singleton.1 h)).2.2]
  · rename_i hline
    rw [hline, (Obs.verb.inj (List.mem_singleton.1 h)).2.2]
  · simp at h

theorem readVerb_of_verb (h : k.LocalStep L roster now c k' obs) {d : ConnId} {name : String}
    {line : ClientLine} (hverb : .verb d name line ∈ obs) : ∃ n bytes, k.pc = .readVerb n bytes := by
  cases h with
  | verbInvalid hpc | verbSend hpc | verbAwait hpc => exact ⟨_, _, hpc⟩
  | wroteAll hpc hobs => rcases hobs with rfl | rfl <;> simp at hverb
  | _ => simp at hverb

theorem decodes_of_readRound {r : Except String (List UInt8)}
    (h : k.readRound L roster now c r = some (k', obs)) {n : String} {bytes : List UInt8}
    (hpc : k.pc = .readVerb n bytes) {d : ConnId} {name : String} {line : ClientLine}
    (hverb : .verb d name line ∈ obs) : k.decodes L r = some line := by
  unfold Conn.readRound at h
  simp only [hpc] at h
  unfold Conn.decodes
  rw [hpc]
  dsimp only
  cases hline : readLineStep bytes r with
  | more bytes' =>
    rw [hline] at h
    obtain ⟨-, rfl⟩ := Prod.mk.inj (Option.some.inj h)
    simp at hverb
  | done result rest =>
    rw [hline] at h
    obtain ⟨-, rfl⟩ := Prod.mk.inj (Option.some.inj h)
    obtain ⟨text, rfl, htext⟩ := onVerbLine_verb hverb
    simp only [htext]
    rfl

/-- A dispatched verb is the line the step reads. -/
theorem reads_of_verb {i : Input} (hi : i.isLocal = true) (h : k.step L roster now c i = some (k', obs))
    {d : ConnId} {name : String} {line : ClientLine} (hverb : .verb d name line ∈ obs) :
    k.reads L i = some line := by
  obtain ⟨n, bytes, hpc⟩ := readVerb_of_verb (localStep_of_step hi h) hverb
  cases i with
  | recv r =>
    simp only [Conn.step] at h
    split_ifs at h
    exact decodes_of_readRound (k := { k with received := _ }) h hpc hverb
  | refill =>
    simp only [Conn.step] at h
    split_ifs at h
    exact decodes_of_readRound h hpc hverb
  | peerClosed =>
    simp only [Conn.step, Option.some.injEq, Prod.mk.injEq] at h
    obtain ⟨-, rfl⟩ := h
    simp at hverb
  | unlocked => cases hi
  | _ => simp [Conn.step, hpc] at h

theorem not_verb_of_sharedStep {i : Input} (h : k.SharedStep now c i k' obs) {d : ConnId}
    {name : String} {line : ClientLine} : .verb d name line ∉ obs := by
  cases h <;> simp

end Task

namespace Hub

variable {L : Libs} {roster : Roster} {audit : AuditLog} {s s' : Hub} {c : ConnId}

/-- The verb line a step reads. -/
def reads (L : Libs) (s : Hub) : Action → Option ClientLine
  | .task c i => (s.conns c).bind fun k => k.reads L i
  | _ => none

/-- A send that the step reads, if it is valid, leaves the reserved kind to the hub. -/
def KeepsReserved (L : Libs) (s : Hub) (a : DateTime × Action) : Prop :=
  ∀ e, s.reads L a.2 = some (.send e) → e.validate L.parseFromRfc3339 = .ok () → e.kind ≠ bounceKind

theorem reads_of_step {a : DateTime × Action} (h : s.step L roster a = some s') {name : String}
    {line : ClientLine} (hverb : .verb c name line ∈ s'.trace) :
    .verb c name line ∈ s.trace ∨ s.reads L a.2 = some line := by
  obtain ⟨now, a⟩ := a
  cases a with
  | task d i =>
    simp only [step] at h
    split_ifs at h with hi
    obtain ⟨k, k', obs, hk, hstep, rfl⟩ := taskStep_eq_some h
    refine (List.mem_append.1 hverb).imp_right fun ho => ?_
    simpa only [reads, hk, Option.bind_some] using reads_of_verb hi hstep ho
  | lockAudit d =>
    cases step_cases h with
    | lockAudit hfree hk hstep =>
      exact Or.inl ((List.mem_append.1 hverb).resolve_right (not_verb_of_sharedStep hstep))
  | append d os =>
    cases step_cases h with
    | append hlock hk hevent hwrite hstep =>
      exact Or.inl ((List.mem_append.1 hverb).resolve_right (not_verb_of_sharedStep hstep))
  | _ => cases step_cases h <;> exact Or.inl (by simpa using hverb)

/-- No valid send of the reserved kind is dispatched. -/
theorem kind_ne_of_verb (h : Machine.ReachVia (step L roster) (KeepsReserved L) (Hub.init audit) s)
    {name : String} {e : Envelope} (hverb : .verb c name (.send e) ∈ s.trace)
    (hvalid : e.validate L.parseFromRfc3339 = .ok ()) : e.kind ≠ bounceKind := by
  refine Machine.ReachVia.invariant
    (P := fun s => .verb c name (.send e) ∈ s.trace → e.kind ≠ bounceKind) h
    (fun hverb => by simp [Hub.init] at hverb) (fun s a s' _ hP hq hs hverb => ?_) hverb
  rcases reads_of_step hs hverb with hverb | hreads
  · exact hP hverb
  · exact hq e hreads hvalid

/-- An accepted envelope of the reserved kind is a bounce of the hub. -/
theorem bounce_of_kind (h : Machine.ReachVia (step L roster) (KeepsReserved L) (Hub.init audit) s)
    {x : Stamped} (hx : x ∈ acceptedOf s.trace) (hkind : x.envelope.kind = bounceKind) :
    ∃ lost, (lost, x) ∈ bouncesOf s.trace := by
  obtain ⟨c, role, ts, ha⟩ := mem_acceptedOf.1 hx
  cases role with
  | bounce lost name => exact ⟨lost, mem_bouncesOf.2 ⟨c, name, ts, ha⟩⟩
  | send name =>
    obtain ⟨e, hvalid, hverb, he⟩ := role_of_accepted h.reach ha
    exact absurd (by rw [← hkind, he]) (kind_ne_of_verb h hverb hvalid)

/-- With any roster that `load` accepts, in a run in which the hub reads no valid send of
the kind `bounce` : an envelope of that kind in the hands of an await of `a`, written to it
or not, is for `a` and was built by the hub, to report the loss of an envelope that `a` had
sent, that was accepted and then lost by a partial write. -/
theorem watcher_sees_losses {readToString : String → Except String String}
    {fromStr : String → Except String Roster} {path : String}
    (hroster : Roster.load readToString fromStr path = .ok roster)
    (h : Machine.ReachVia (step L roster) (KeepsReserved L) (Hub.init audit) s) {a : String}
    (hawaits : Awaits c s.trace a) {p : Place} (hp : p.At c) {x : Stamped} (hx : x ∈ s.held p)
    (hkind : x.envelope.kind = bounceKind) :
    x.envelope.to = a ∧ x.envelope.from = hubName ∧ ∃ lost, Reports roster s lost x := by
  have haccepted := Roster.accepted_of_load hroster
  have hreach : Reach L roster audit s := h.reach
  have hmem := mem_acceptedOf_of_routed hreach ((custody_of_reach hreach).routed p x hx)
  obtain ⟨lost, hbounce⟩ := bounce_of_kind h hmem hkind
  refine ⟨?_, ?_, lost, reports_of_mem haccepted hreach hbounce⟩
  · have hfor : Awaits c s.trace x.envelope.to := by
      have := for_of_held hreach hx
      cases p with
      | queue name => exact hp.elim
      | channel d | task d | written d | lost d =>
        obtain rfl : d = c := hp
        exact this
    obtain ⟨replyTo, kind, secs, hverb⟩ := hawaits
    obtain ⟨replyTo', kind', secs', hverb'⟩ := hfor
    rw [(verb_unique hreach hverb hverb').1]
  · obtain ⟨d, name, ts, ha⟩ := mem_bouncesOf.1 hbounce
    exact (from_hub_iff haccepted hreach ha).2 ⟨lost, name, rfl⟩

/-! ## A real loss and a forged one -/

/-- The sample clients send no envelope of the reserved kind. -/
theorem keepsReserved_sample (s : Hub) (a : DateTime × Action) : KeepsReserved sampleLibs s a := by
  intro e hreads _
  have hdecodes : ∀ (k : Conn) r, k.decodes sampleLibs r = some (.send e) → e.kind ≠ bounceKind := by
    intro k r hr
    unfold Conn.decodes at hr
    split at hr
    · split at hr
      · rename_i text rest hline
        have hlookup : sampleLines.lookup text = some (.send e) := by
          simp only [fromJsonl, sampleLibs] at hr
          cases hl : sampleLines.lookup text with
          | none => simp [hl, Except.toOption] at hr
          | some line => simpa [hl, Except.toOption] using hr
        obtain ⟨l₁, l₂, hl, -⟩ := List.lookup_eq_some_iff.1 hlookup
        have hmem : (text, ClientLine.send e) ∈ sampleLines := by rw [hl]; simp
        have hkind : e.kind = "task" ∨ e.kind = "result" := by
          simp only [sampleLines, List.mem_cons, Prod.mk.injEq, reduceCtorEq, and_false, false_or,
            List.not_mem_nil, or_false, ClientLine.send.injEq] at hmem
          rcases hmem with ⟨-, rfl⟩ | ⟨-, rfl⟩ | ⟨-, rfl⟩
          · exact Or.inl rfl
          · exact Or.inr rfl
          · exact Or.inr rfl
        rcases hkind with hkind | hkind <;> rw [hkind] <;> decide
      · cases hr
    · cases hr
  unfold reads at hreads
  split at hreads
  · rename_i c i
    obtain ⟨k, -, hk⟩ := Option.bind_eq_some_iff.1 hreads
    unfold Conn.reads at hk
    split at hk
    · exact hdecodes k _ hk
    · exact hdecodes k _ hk
    · cases hk
  · cases hreads

/-- `bob` awaits the bounce of the task he has lost. -/
def watching : List Action :=
  brokenDelivery ++ opening 2 bobHello.bytes awaitAny.bytes ++ [.await 2,
    delivering 2 (bounceEnvelope sampleLibs 0 "b1" "m1" "bob" "alice" "delivery failed after partial write")]

theorem watcher_sees_losses_broken : ∃ s x, SampleReach s ∧ .written 2 x ∈ s.trace ∧
    x.envelope.kind = bounceKind ∧ x.envelope.to = "bob" ∧ x.envelope.from = hubName ∧
    ∃ lost, Reports sampleRoster s lost x := by
  obtain ⟨s, hs, hP⟩ : ∃ s, runSample watching = some s ∧
      ((writtenTo 2 s.trace).any fun x => x.envelope.kind = bounceKind ∧ x.envelope.to = "bob") = true :=
    Option.any_eq_true _ _ |>.1 (by decide +kernel)
  obtain ⟨x, hx, hx'⟩ := List.any_eq_true.1 hP
  obtain ⟨hkind, hto⟩ := of_decide_eq_true hx'
  have h : Machine.ReachVia (step sampleLibs sampleRoster) (KeepsReserved sampleLibs)
      (Hub.init sampleAudit) s := Machine.reachVia_of_run hs fun s a _ => keepsReserved_sample s a
  have hawaits : Awaits 2 s.trace "bob" := hto ▸ for_of_held (p := .written 2) h.reach hx
  exact ⟨s, x, h.reach, mem_writtenTo.1 hx, hkind,
    watcher_sees_losses load_sampleRoster h hawaits (p := .written 2) rfl hx hkind⟩

/-- An envelope of `bob`'s that claims a loss. -/
def forgedBounce : Envelope where
  id := "f1"
  «from» := "bob"
  «to» := "alice"
  ts := epoch
  kind := bounceKind
  correlationId := some "m1"
  body := .null

/-- The line that sends it. -/
def forgedLine : String :=
  "\x7b\"send\":" ++ forgedBounce.json ++ "\x7d"

/-- The sample functions, with a client that sends that line. -/
def forgingLibs : Libs :=
  { sampleLibs with
    clientLineFromStr := fun text =>
      if text = forgedLine then .ok (.send forgedBounce) else sampleLibs.clientLineFromStr text }

/-- `alice` awaits and is written the forged bounce. -/
def forging : List Action :=
  opening 0 aliceHello.bytes awaitAny.bytes ++ [.await 0] ++
  opening 1 bobHello.bytes (asBytes forgedLine) ++ committing 1 forgedBounce ++
  [.task 0 .polled, delivering 0 forgedBounce]

/-- In that run nothing is lost. -/
theorem exists_forged : ∃ s x, Reach forgingLibs sampleRoster sampleAudit s ∧
    Awaits 0 s.trace "alice" ∧ .written 0 x ∈ s.trace ∧ x.envelope.kind = bounceKind ∧
    x.envelope.from ≠ hubName ∧ (∀ c y, .lost c y ∉ s.trace) ∧
    ¬∃ lost, Reports sampleRoster s lost x := by
  obtain ⟨s, hs, hP⟩ : ∃ s, Machine.run (step forgingLibs sampleRoster) (Hub.init sampleAudit)
      (forging.map fun a => (0, a)) = some s ∧
      decide (((writtenTo 0 s.trace).any fun x => x.envelope.kind = bounceKind ∧
        x.envelope.from ≠ hubName ∧ x.envelope.to = "alice") = true ∧
        (s.trace.all fun o => !o.isLoss) = true) = true :=
    Option.any_eq_true _ _ |>.1 (by decide +kernel)
  obtain ⟨hwritten, hloss⟩ := of_decide_eq_true hP
  obtain ⟨x, hx, hx'⟩ := List.any_eq_true.1 hwritten
  obtain ⟨hkind, hfrom, hto⟩ := of_decide_eq_true hx'
  have h : Reach forgingLibs sampleRoster sampleAudit s := Machine.reach_of_run hs
  have hawaits : Awaits 0 s.trace "alice" := hto ▸ for_of_held (p := .written 0) h hx
  have hnone : ∀ c y, .lost c y ∉ s.trace := fun c y hmem => by
    simpa [Obs.isLoss] using List.all_eq_true.1 hloss _ hmem
  refine ⟨s, x, h, hawaits, mem_writtenTo.1 hx, hkind, hfrom, hnone, ?_⟩
  rintro ⟨lost, hreports⟩
  obtain ⟨c, d, ts, ts', t₁, t₂, t₃, t₄, hsplit⟩ := hreports.order
  exact hnone c lost (by rw [hsplit]; simp)

end Hub

end AgentHub
