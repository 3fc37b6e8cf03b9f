import AgentHub.HubSteps
import AgentHub.Lib.Lines
import AgentHub.RoundTrip

/-!
# What a connection says

What the hub has written on a connection goes by the program point of the task (`Conn.Said`) :
nothing before the hello is accepted, then the `ok`, and behind it one last line, which the task
has answered or which carries an envelope. A hello that is refused is answered with an error in
place of the `ok`.

A failed socket operation can break this off at any byte (`CutOff`). As long as none fails and the
peer does not close, a task does not end without a last line (`Whole`).
-/

namespace AgentHub

open Function

/-! ## Lines -/

/-- The bytes of a hub line. -/
def ServerLine.bytes (F : Floats) (line : ServerLine) : List UInt8 :=
  asBytes (String.ofList (line.encode F).text ++ "\n")

/-- The hub writes its lines as they are derived. -/
def Libs.Speaks (L : Libs) (F : Floats) : Prop :=
  ∀ line, toJsonl L.serverLineToString line = .ok (String.ofList (line.encode F).text ++ "\n")

/-- A line that ends a conversation, but for an envelope. -/
def ServerLine.isReply : ServerLine → Bool
  | .error _ | .accepted _ | .timeout => true
  | .ok | .envelope _ => false

/-- The last line of the connection. -/
def ServerLine.Last (c : ConnId) (t : List Obs) (line : ServerLine) : Prop :=
  .answered c line ∈ t ∧ line.isReply = true ∨ ∃ x, .written c x ∈ t ∧ line = .envelope x.envelope

/-- The input is a failed socket operation, the end of the file, or the end of the task. -/
def Input.fails : Input → Bool
  | .recv (.error _) | .recv (.ok []) | .replied (.error _) | .wrote (.err _) | .wrote (.ok 0)
  | .died => true
  | _ => false

section Said

variable (F : Floats) (c : ConnId) (t : List Obs)

/-- All that the hub says on a connection. -/
inductive Whole : List UInt8 → Prop
  | refusal {message : String} (h : .answered c (.error message) ∈ t) :
      Whole ((ServerLine.error message).bytes F)
  | reply {line : ServerLine} (h : line.Last c t) : Whole (ServerLine.ok.bytes F ++ line.bytes F)

/-- What the hub has said on a connection when it broke off. -/
inductive CutOff : List UInt8 → Prop
  | ok {out : List UInt8} (h : out <+: ServerLine.ok.bytes F) : CutOff out
  | cut {out : List UInt8} (h : newline ∉ out) : CutOff (ServerLine.ok.bytes F ++ out)
  | whole {out full : List UInt8} (h : Whole F c t full) (hout : out <+: full) : CutOff out

/-- What the socket has accepted, at a program point. If `fine`, no operation has failed. -/
def Pc.Said (fine : Bool) (out : List UInt8) : Pc → Prop
  | .auditing _ _ .readHello | .readHello _ | .auditing _ _ (.refuse _) => out = []
  | .replying line (.readVerb _) => line = .ok ∧ out = []
  | .replying line .finish => line.isReply = true ∧
    ((∃ message, line = .error message) ∧ out = [] ∨ out = ServerLine.ok.bytes F)
  | .readVerb _ _ | .committing _ (.send _) _ | .awaiting _ _ _ | .parked _ _ _ | .timerFired _ _
  | .lostRace _ => out = ServerLine.ok.bytes F
  | .writing _ x _ written => written < ((ServerLine.envelope x.envelope).bytes F).length ∧
    out = ServerLine.ok.bytes F ++ ((ServerLine.envelope x.envelope).bytes F).take written
  | .auditing _ _ .finish => Whole F c t out
  | .finished => Whole F c t out ∨ fine = false ∧ CutOff F c t out
  | .committing _ (.bounce _ _) _ | .requeueing _ _ _ | .bouncing _ _ | .dead =>
    fine = false ∧ CutOff F c t out

/-- The bytes written go by the program point. -/
def Conn.Said (fine : Bool) (k : Conn) : Prop :=
  k.pc.Said F c t fine k.out

end Said

section Lines

variable {F : Floats} {c : ConnId} {t t' : List Obs} {line : ServerLine} {out : List UInt8}

theorem ServerLine.bytes_eq (line : ServerLine) :
    line.bytes F = asBytes (String.ofList (line.encode F).text) ++ [newline] :=
  asBytes_append _ _

/-- The bytes of a line are a line. -/
theorem ServerLine.isLine_bytes (line : ServerLine) : IsLine newline (line.bytes F) := by
  refine ⟨_, ?_, line.bytes_eq⟩
  rw [newline_mem_asBytes, String.toList_ofList]
  exact Json.newline_notMem_text _

theorem ServerLine.Last.mono (h : line.Last c t) (ht : t ⊆ t') : line.Last c t' := by
  rcases h with ⟨ha, hr⟩ | ⟨x, hx, rfl⟩
  · exact Or.inl ⟨ht ha, hr⟩
  · exact Or.inr ⟨x, ht hx, rfl⟩

theorem Whole.mono (h : Whole F c t out) (ht : t ⊆ t') : Whole F c t' out := by
  cases h with
  | refusal h => exact .refusal (ht h)
  | reply h => exact .reply (h.mono ht)

theorem CutOff.mono (h : CutOff F c t out) (ht : t ⊆ t') : CutOff F c t' out := by
  cases h with
  | ok h => exact .ok h
  | cut h => exact .cut h
  | whole h hout => exact .whole (h.mono ht) hout

end Lines

/-! ## Steps of a task -/

section Task

variable {L : Libs} {F : Floats} {roster : Roster} {now : DateTime} {c : ConnId} {k k' : Conn}
  {t t' obs : List Obs} {fine fine' : Bool} {out : List UInt8} {pc pc' : Pc}

/-- The trace may grow, and an operation may fail elsewhere. -/
theorem Pc.Said.mono (h : pc.Said F c t fine out) (ht : t ⊆ t') (hfine : fine = false → fine' = false) :
    pc.Said F c t' fine' out := by
  cases pc with
  | auditing phase event next =>
    cases next with
    | finish => exact Whole.mono h ht
    | readHello | refuse => exact h
  | finished => exact h.imp (·.mono ht) fun h => ⟨hfine h.1, h.2.mono ht⟩
  | committing phase role e =>
    cases role with
    | send => exact h
    | bounce => exact ⟨hfine h.1, h.2.mono ht⟩
  | requeueing | bouncing | dead => exact ⟨hfine h.1, h.2.mono ht⟩
  | replying line next => cases next <;> exact h
  | _ => exact h

theorem Pc.said_auditing (phase phase' : AuditPhase) (event event' : AuditEvent) (next : AuditNext) :
    (Pc.auditing phase event next).Said F c t fine out =
      (Pc.auditing phase' event' next).Said F c t fine out := by
  cases next <;> rfl

theorem Pc.said_committing (phase phase' : CommitPhase) (role : Role) (e e' : Envelope) :
    (Pc.committing phase role e).Said F c t fine out =
      (Pc.committing phase' role e').Said F c t fine out := by
  cases role <;> rfl

/-- The end of a blocking job. -/
theorem Pc.Said.afterUnlock (h : pc.Said F c t fine out) (hpc : Conn.afterUnlock pc = some pc') :
    pc'.Said F c t fine out := by
  unfold Conn.afterUnlock at hpc
  split at hpc
  · rename_i next
    obtain rfl := Option.some.inj hpc
    cases next with
    | readHello => exact h
    | refuse message => exact ⟨rfl, Or.inl ⟨⟨message, rfl⟩, h⟩⟩
    | finish => exact Or.inl h
  · obtain rfl := Option.some.inj hpc
    exact ⟨rfl, Or.inr h⟩
  · obtain rfl := Option.some.inj hpc
    exact ⟨rfl, Or.inr h⟩
  · obtain rfl := Option.some.inj hpc
    exact Or.inr h
  · obtain rfl := Option.some.inj hpc
    exact Or.inr h
  · cases hpc

/-- Under a lock nothing is said. -/
theorem Conn.Said.sharedStep {i : Input} (h : k.Said F c t fine) (hstep : k.SharedStep now c i k' obs) :
    k'.Said F c (t ++ obs) fine := by
  suffices hpc : k'.Said F c t fine from hpc.mono (List.subset_append_left t obs) id
  unfold Conn.Said at h
  cases hstep with
  | unlocked hpc => exact h.afterUnlock hpc
  | lockedAudit hpc | logged hpc | unlogged hpc =>
    rw [hpc] at h
    exact (Pc.said_auditing _ _ _ _ _).mp h
  | lockedCommit hpc | accepted hpc | refused hpc | routed hpc =>
    rw [hpc] at h
    exact (Pc.said_committing _ _ _ _ _).mp h
  | took hpc =>
    rw [hpc] at h
    refine ⟨?_, Eq.trans h (List.append_nil _).symm⟩
    rw [ServerLine.bytes_eq, List.length_append]
    simp
  | parked hpc | raceLost hpc =>
    rw [hpc] at h
    exact h
  | deregistered hpc =>
    rw [hpc] at h
    exact ⟨rfl, Or.inr h⟩
  | requeued hpc =>
    rw [hpc] at h
    exact Or.inr h

theorem readLineStep_eq_none {line rest : List UInt8} {r : Except String (List UInt8)}
    (h : readLineStep line r = .done (.ok none) rest) : r = .ok [] := by
  unfold readLineStep at h
  split at h
  · simp at h
  · split_ifs at h with hbuf hline
    · rw [hbuf]
    · simp at h
    · split at h
      · dsimp only at h
        split_ifs at h
        · simp at h
        · split at h <;> simp at h
      · dsimp only at h
        split_ifs at h
        simp at h

/-- After the first line the hub says nothing before it has logged or answered. -/
theorem said_onHelloLine {peer : String} {r : Except ReadLineError (Option String)}
    (hr : r = .ok none → fine = false) :
    (onHelloLine L roster now c peer r).1.Said F c t fine [] := by
  unfold onHelloLine
  split
  · exact Or.inr ⟨hr rfl, .ok List.nil_prefix⟩
  · exact ⟨rfl, Or.inl ⟨⟨_, rfl⟩, rfl⟩⟩
  · split
    · exact ⟨rfl, Or.inl ⟨⟨_, rfl⟩, rfl⟩⟩
    · unfold handleHello
      dsimp only
      split
      · exact rfl
      · split_ifs
        · exact rfl
        · exact ⟨rfl, rfl⟩
    · exact ⟨rfl, Or.inl ⟨⟨_, rfl⟩, rfl⟩⟩

theorem said_onVerbLine {name : String} {r : Except ReadLineError (Option String)}
    (hr : r = .ok none → fine = false) :
    (onVerbLine L c name r).1.Said F c t fine (ServerLine.ok.bytes F) := by
  unfold onVerbLine
  split
  · exact Or.inr ⟨hr rfl, .ok List.prefix_rfl⟩
  · exact ⟨rfl, Or.inr rfl⟩
  · split
    · exact ⟨rfl, Or.inr rfl⟩
    · unfold handleSend
      dsimp only
      split
      · exact ⟨rfl, Or.inr rfl⟩
      · exact rfl
    · unfold handleAwait
      dsimp only
      split_ifs
      · exact ⟨rfl, Or.inr rfl⟩
      · exact ⟨rfl, Or.inr rfl⟩
      · exact rfl
    · exact ⟨rfl, Or.inr rfl⟩

theorem Conn.Said.readRound {r : Except String (List UInt8)} (h : k.Said F c t fine)
    (hstep : k.readRound L roster now c r = some (k', obs)) (hr : r = .ok [] → fine = false) :
    k'.Said F c (t ++ obs) fine := by
  suffices hpc : k'.Said F c t fine from hpc.mono (List.subset_append_left t obs) id
  unfold Conn.Said at h
  unfold Conn.readRound at hstep
  split at hstep
  · rename_i line hpc
    rw [hpc] at h
    split at hstep
    · obtain ⟨rfl, -⟩ := Prod.mk.inj (Option.some.inj hstep)
      exact h
    · rename_i result rest hline
      obtain ⟨rfl, -⟩ := Prod.mk.inj (Option.some.inj hstep)
      unfold Conn.Said
      rw [show k.out = [] from h]
      exact said_onHelloLine fun hnone => hr (readLineStep_eq_none (hnone ▸ hline))
  · rename_i name line hpc
    rw [hpc] at h
    split at hstep
    · obtain ⟨rfl, -⟩ := Prod.mk.inj (Option.some.inj hstep)
      exact h
    · rename_i result rest hline
      obtain ⟨rfl, -⟩ := Prod.mk.inj (Option.some.inj hstep)
      unfold Conn.Said
      rw [show k.out = ServerLine.ok.bytes F from h]
      exact said_onVerbLine fun hnone => hr (readLineStep_eq_none (hnone ▸ hline))
  · cases hstep

/-- A reply, or as much of it as the socket accepts. -/
theorem Conn.Said.reply (hL : L.Speaks F) {line : ServerLine} {next : ReplyNext} {r : Except ℕ Unit}
    (h : k.Said F c t fine) (hpc : k.pc = .replying line next)
    (hstep : k.reply L c line next r = some (k', obs)) (hr : ∀ n, r = .error n → fine = false) :
    k'.Said F c (t ++ obs) fine := by
  unfold Conn.Said at h
  rw [hpc] at h
  unfold Conn.reply at hstep
  rw [hL] at hstep
  dsimp only at hstep
  cases r with
  | error n =>
    dsimp only at hstep
    split_ifs at hstep with hn
    obtain ⟨rfl, rfl⟩ := Prod.mk.inj (Option.some.inj hstep)
    refine Or.inr ⟨hr n rfl, ?_⟩
    cases next with
    | readVerb name =>
      obtain ⟨rfl, hout⟩ := h
      rw [hout]
      exact .ok (List.take_prefix _ _)
    | finish =>
      obtain ⟨hreply, ⟨⟨message, rfl⟩, hout⟩ | hout⟩ := h
      · rw [hout]
        exact .whole (@Whole.refusal F c _ message (by simp)) (List.take_prefix _ _)
      · rw [hout]
        exact .whole (@Whole.reply F c _ line (Or.inl ⟨by simp, hreply⟩))
          ((List.prefix_append_right_inj _).2 (List.take_prefix _ _))
  | ok u =>
    obtain ⟨rfl, rfl⟩ := Prod.mk.inj (Option.some.inj hstep)
    cases next with
    | readVerb name =>
      obtain ⟨rfl, hout⟩ := h
      show k.out ++ _ = _
      rw [hout, List.nil_append]
      rfl
    | finish =>
      refine Or.inl ?_
      obtain ⟨hreply, ⟨⟨message, rfl⟩, hout⟩ | hout⟩ := h
      · rw [hout]
        exact @Whole.refusal F c _ message (by simp)
      · rw [hout]
        exact @Whole.reply F c _ line (Or.inl ⟨by simp, hreply⟩)

/-- The end of the writing loop before the end of the line. -/
theorem said_of_classify {name source : String} {x : Stamped} {len written : ℕ} (hlt : written < len)
    (hfine : fine = false) (hpart : CutOff F c t out) :
    (Conn.afterWrite now c k name x source (classifyWrite len written)).1.Said F c t fine out := by
  unfold classifyWrite
  split_ifs with hall hzero
  · omega
  · exact ⟨hfine, hpart⟩
  · unfold Conn.afterWrite
    dsimp only
    split_ifs
    · exact ⟨hfine, hpart⟩
    · exact Or.inr ⟨hfine, hpart⟩

/-- A write of the envelope line. -/
theorem Conn.Said.write (hL : L.Speaks F) {name source : String} {x : Stamped} {written : ℕ}
    {r : WriteResult} (h : k.Said F c t fine) (hpc : k.pc = .writing name x source written)
    (hstep : k.write L now c name x source written r = some (k', obs))
    (hr : (Input.wrote r).fails = true → fine = false) : k'.Said F c (t ++ obs) fine := by
  unfold Conn.Said at h
  rw [hpc] at h
  obtain ⟨hlt, hout⟩ := h
  obtain ⟨jsonl, hjsonl, hbytes⟩ : ∃ jsonl, toJsonl L.serverLineToString (.envelope x.envelope) =
      .ok jsonl ∧ asBytes jsonl = (ServerLine.envelope x.envelope).bytes F := ⟨_, hL _, rfl⟩
  unfold Conn.write at hstep
  rw [hjsonl] at hstep
  dsimp only at hstep
  rw [hbytes] at hstep
  -- kept from being computed
  generalize hlen : ((ServerLine.envelope x.envelope).bytes F).length = len at hstep hlt
  split at hstep
  · cases hstep
  · rename_i written' hround
    obtain ⟨rfl, rfl⟩ := Prod.mk.inj (Option.some.inj hstep)
    rcases writeRound_cases hround with ⟨n, hn, rfl, hle, hmore⟩ | ⟨-, hmore⟩
    · split_ifs at hmore with hlt'
      obtain rfl := WriteStep.more.inj hmore
      refine ⟨hlen ▸ hlt', ?_⟩
      rw [hout, List.append_assoc, List.take_add]
    · cases hmore
  · rename_i outcome hround
    obtain ⟨rfl, rfl⟩ := Prod.mk.inj (Option.some.inj hstep)
    rcases writeRound_cases hround with ⟨n, hn, rfl, hle, hdone⟩ | ⟨hfails, hdone⟩
    · split_ifs at hdone with hlt'
      obtain rfl := WriteStep.done.inj hdone
      have hall : ((ServerLine.envelope x.envelope).bytes F).take (written + n) =
          (ServerLine.envelope x.envelope).bytes F := List.take_of_length_le (by omega)
      show Whole F c _ (k.out ++ _)
      rw [hout, List.append_assoc, ← List.take_add, hall]
      exact .reply (Or.inr ⟨x, by simp [Conn.afterWrite], rfl⟩)
    · -- the socket accepts nothing more
      have hfine : fine = false := hr (by rcases hfails with rfl | ⟨e, rfl⟩ <;> rfl)
      have hcut : newline ∉ ((ServerLine.envelope x.envelope).bytes F).take written :=
        (ServerLine.isLine_bytes _).notMem_of_isPrefix (List.take_prefix _ _) fun heq => by
          have := congrArg List.length heq
          rw [List.length_take] at this
          omega
      obtain rfl := WriteStep.done.inj hdone
      refine Pc.Said.mono ?_ (List.subset_append_left t _) id
      rcases hfails with rfl | ⟨e, rfl⟩
      · dsimp only
        rw [List.take_zero, List.append_nil, hout]
        exact said_of_classify hlt hfine (.cut hcut)
      · dsimp only
        rw [List.append_nil, hout]
        exact said_of_classify hlt hfine (.cut hcut)

/-- One step of the task. An operation that fails has to be allowed to. -/
theorem Conn.Said.step (hL : L.Speaks F) {i : Input} (h : k.Said F c t fine)
    (hstep : k.step L roster now c i = some (k', obs)) (hi : i.fails = true → fine = false) :
    k'.Said F c (t ++ obs) fine := by
  cases i with
  | recv r =>
    simp only [Conn.step] at hstep
    split_ifs at hstep
    cases r with
    | ok bytes =>
      exact Conn.Said.readRound (k := { k with received := k.received ++ bytes }) h hstep
        fun hr => hi (by rw [Except.ok.inj hr]; rfl)
    | error e => exact Conn.Said.readRound (k := { k with received := k.received }) h hstep (by simp)
  | refill =>
    simp only [Conn.step] at hstep
    split_ifs at hstep with hbuf
    exact h.readRound hstep fun hr => absurd (Except.ok.inj hr) hbuf
  | replied r =>
    simp only [Conn.step] at hstep
    split at hstep
    · rename_i hpc
      exact h.reply hL hpc hstep fun n hr => hi (by rw [hr]; rfl)
    · cases hstep
  | wrote r =>
    simp only [Conn.step] at hstep
    split at hstep
    · rename_i hpc
      exact h.write hL hpc hstep hi
    · cases hstep
  | polled =>
    suffices hpc : k'.Said F c t fine from hpc.mono (List.subset_append_left t obs) id
    obtain ⟨-, name, hwaits, hready⟩ := polled_cases hstep
    have hout : k.out = ServerLine.ok.bytes F := by
      unfold Conn.Said at h
      generalize k.pc = pc at hwaits h
      cases hwaits <;> exact h
    rcases hready with ⟨x, -, rfl⟩ | ⟨-, -, rfl⟩
    · refine ⟨?_, hout.trans (List.append_nil _).symm⟩
      rw [ServerLine.bytes_eq, List.length_append]
      simp
    · exact ⟨rfl, Or.inr hout⟩
  | timer =>
    simp only [Conn.step] at hstep
    unfold Conn.Said at h
    split at hstep
    · rename_i hpc
      rw [hpc] at h
      obtain ⟨rfl, rfl⟩ := Prod.mk.inj (Option.some.inj hstep)
      exact h
    · cases hstep
  | unserializable =>
    simp only [Conn.step] at hstep
    split at hstep
    · rw [hL] at hstep
      cases hstep
    · cases hstep
  | bounced uuid =>
    simp only [Conn.step] at hstep
    unfold Conn.Said at h
    split at hstep
    · rename_i hpc
      rw [hpc] at h
      obtain ⟨rfl, rfl⟩ := Prod.mk.inj (Option.some.inj hstep)
      exact ⟨h.1, by simpa using h.2⟩
    · cases hstep
  | died =>
    have hpart : ∀ {k : Conn}, k.out = ServerLine.ok.bytes F → k.pc = .dead → k.Said F c t fine :=
      fun {k} hout hpc => by
        unfold Conn.Said
        rw [hpc, hout]
        exact ⟨hi rfl, .ok List.prefix_rfl⟩
    simp only [Conn.step] at hstep
    unfold Conn.Said at h
    split at hstep
    · rename_i hpc _
      rw [hpc] at h
      obtain ⟨rfl, rfl⟩ := Prod.mk.inj (Option.some.inj hstep)
      simpa using hpart (k := { k with pc := .dead, chan := k.chan.dropRx }) h rfl
    · rename_i hpc _
      rw [hpc] at h
      obtain ⟨rfl, rfl⟩ := Prod.mk.inj (Option.some.inj hstep)
      simpa using hpart (k := { k with pc := .dead, chan := k.chan.dropRx }) h rfl
    · rename_i hpc _
      rw [hpc] at h
      obtain ⟨rfl, rfl⟩ := Prod.mk.inj (Option.some.inj hstep)
      simpa using hpart (k := { k with pc := .dead, chan := k.chan.dropRx }) h rfl
    · cases hstep
  | peerClosed =>
    obtain ⟨rfl, rfl⟩ := Prod.mk.inj (Option.some.inj hstep)
    exact h.mono (List.subset_append_left t _) id
  | _ => exact h.sharedStep (sharedStep_of_step rfl hstep)

end Task

namespace Hub

variable {L : Libs} {F : Floats} {roster : Roster} {audit : AuditLog} {s s₁ s' : Hub} {c : ConnId}
  {a : DateTime × Action}

/-! ## Steps of the hub, seen from a connection -/

/-- What a step of the hub makes of a connection. Its channel may change at any time. -/
inductive Effect (L : Libs) (roster : Roster) (s : Hub) (c : ConnId) (a : DateTime × Action) (s' : Hub) :
    Conn → Prop
  | frame {k : Conn} (hk : s.conns c = some k) (htrace : ∀ o ∈ s'.trace, o.conn = c → o ∈ s.trace)
      (chan : Oneshot Stamped) : Effect L roster s c a s' { k with chan }
  | accepted {peer : String} (ha : a.2 = .accept c peer) (hnew : s.conns c = none)
      (htrace : s'.trace = s.trace) : Effect L roster s c a s' (.accepted a.1 peer)
  | step {k k' : Conn} {i : Input} {obs : List Obs} (hk : s.conns c = some k)
      (hstep : k.step L roster a.1 c i = some (k', obs)) (htrace : s'.trace = s.trace ++ obs)
      (hi : a.2 = .task c i ∨ i.isLocal = false) (chan : Oneshot Stamped) :
      Effect L roster s c a s' { k' with chan }

/-- Only channels change, and nothing is observed. -/
structure SameTasks (s s' : Hub) : Prop where
  trace : s'.trace = s.trace
  conns : ∀ d k', s'.conns d = some k' → ∃ k chan, s.conns d = some k ∧ k' = { k with chan }

theorem SameTasks.of_eq (hconns : s'.conns = s.conns) (htrace : s'.trace = s.trace) : SameTasks s s' :=
  ⟨htrace, fun _ k' hk' => ⟨k', k'.chan, hconns ▸ hk', rfl⟩⟩

theorem SameTasks.onChan (h : SameTasks s s₁) (tx : ConnId) (f : Oneshot Stamped → Oneshot Stamped) :
    SameTasks s (s₁.onChan tx f) := by
  refine ⟨(onChan_trace _ _ _).trans h.trace, fun d k' hk' => ?_⟩
  rw [onChan_conns] at hk'
  obtain ⟨k₁, hk₁, rfl⟩ := Option.map_eq_some_iff.1 hk'
  obtain ⟨k, chan, hk, rfl⟩ := h.conns d k₁ hk₁
  split_ifs
  · exact ⟨k, f chan, hk, rfl⟩
  · exact ⟨k, chan, hk, rfl⟩

theorem SameTasks.handOff (h : SameTasks s s₁) (x : Stamped) (o : SendOutcome) :
    SameTasks s (s₁.handOff x o) := by
  cases o with
  | queued depth => exact h
  | handedOff tx => exact h.onChan tx fun ch => ch.send x

/-- Every step but the acceptance of a connection is one of a task, and changes channels. -/
theorem taskStep_of_step (h : s.step L roster a = some s') : (∃ c peer, a.2 = .accept c peer) ∨
    ∃ i s₁, s.taskStep L roster a.1 a.2.conn i = some s₁ ∧ SameTasks s₁ s' ∧
      (a.2 = .task a.2.conn i ∨ i.isLocal = false) := by
  obtain ⟨now, a⟩ := a
  cases a with
  | accept c peer => exact Or.inl ⟨c, peer, rfl⟩
  | task c i =>
    simp only [step] at h
    split_ifs at h
    exact Or.inr ⟨i, s', h, .of_eq rfl rfl, Or.inl rfl⟩
  | lockAudit c =>
    simp only [step] at h
    split at h
    · cases h
    · obtain ⟨s₁, h₁, rfl⟩ := Option.map_eq_some_iff.1 h
      exact Or.inr ⟨_, s₁, h₁, .of_eq rfl rfl, Or.inr rfl⟩
  | append c os =>
    simp only [step] at h
    split_ifs at h
    split at h
    · cases h
    split at h
    · cases h
    · obtain ⟨s₁, h₁, rfl⟩ := Option.map_eq_some_iff.1 h
      exact Or.inr ⟨_, s₁, h₁, .of_eq rfl rfl, Or.inr rfl⟩
  | route c =>
    simp only [step] at h
    split at h
    · obtain ⟨s₁, h₁, rfl⟩ := Option.map_eq_some_iff.1 h
      refine Or.inr ⟨_, s₁, h₁, SameTasks.handOff ?_ _ _, Or.inr rfl⟩
      exact .of_eq rfl rfl
    · cases h
  | unlockAudit c =>
    simp only [step] at h
    split_ifs at h
    obtain ⟨s₁, h₁, rfl⟩ := Option.map_eq_some_iff.1 h
    exact Or.inr ⟨_, s₁, h₁, .of_eq rfl rfl, Or.inr rfl⟩
  | await c =>
    simp only [step] at h
    split at h
    · split at h
      · obtain ⟨s₁, h₁, rfl⟩ := Option.map_eq_some_iff.1 h
        exact Or.inr ⟨_, s₁, h₁, .of_eq rfl rfl, Or.inr rfl⟩
      · obtain ⟨s₁, h₁, rfl⟩ := Option.map_eq_some_iff.1 h
        exact Or.inr ⟨_, s₁, h₁, .of_eq rfl rfl, Or.inr rfl⟩
    · cases h
  | deregister c =>
    simp only [step] at h
    split at h
    · split at h
      · obtain ⟨s₁, h₁, rfl⟩ := Option.map_eq_some_iff.1 h
        refine Or.inr ⟨_, s₁, h₁, SameTasks.onChan ?_ _ _, Or.inr rfl⟩
        exact .of_eq rfl rfl
      · exact Or.inr ⟨_, s', h, .of_eq rfl rfl, Or.inr rfl⟩
    · cases h
  | requeue c =>
    simp only [step] at h
    split at h
    · obtain ⟨s₁, h₁, rfl⟩ := Option.map_eq_some_iff.1 h
      refine Or.inr ⟨_, s₁, h₁, SameTasks.handOff ?_ _ _, Or.inr rfl⟩
      exact .of_eq rfl rfl
    · cases h

theorem effect_of_step (h : s.step L roster a = some s') {k' : Conn} (hk' : s'.conns c = some k') :
    Effect L roster s c a s' k' := by
  have htrace : a.2.conn ≠ c → ∀ o ∈ s'.trace, o.conn = c → o ∈ s.trace := by
    intro hne o ho hc
    obtain ⟨obs, htrace, hobs⟩ := emits_of_step (step_cases h)
    rw [htrace] at ho
    exact (List.mem_append.1 ho).resolve_right fun hm => hne ((hobs o hm).symm.trans hc)
  rcases taskStep_of_step h with ⟨d, peer, ha⟩ | ⟨i, s₁, h₁, hsame, hi⟩
  · obtain ⟨now, a⟩ := a
    obtain rfl : a = .accept d peer := ha
    cases step_cases h with
    | accept hnew =>
      rw [put_conns] at hk'
      split_ifs at hk' with hd
      · subst hd
        obtain rfl := Option.some.inj hk'
        exact .accepted rfl hnew (List.append_nil _)
      · exact .frame hk' (htrace (Ne.symm hd)) k'.chan
  · obtain ⟨k, k₁, obs, hk, hstep, rfl⟩ := taskStep_eq_some h₁
    obtain ⟨k₂, chan, hk₂, rfl⟩ := hsame.conns c k' hk'
    rw [put_conns] at hk₂
    split_ifs at hk₂ with hd
    · subst hd
      obtain rfl := Option.some.inj hk₂
      exact .step hk hstep hsame.trace hi chan
    · exact .frame hk₂ (htrace (Ne.symm hd)) chan

/-- A step of the hub keeps to what a connection may have said. -/
theorem said_of_step (hL : L.Speaks F) (h : s.step L roster a = some s') {fine : Bool}
    (hsaid : ∀ k, s.conns c = some k → k.Said F c s.trace fine)
    (hfine : ∀ i, a.2 = .task c i → i.fails = true → fine = false) {k' : Conn}
    (hk' : s'.conns c = some k') : k'.Said F c s'.trace fine := by
  cases effect_of_step h hk' with
  | frame hk _ chan =>
    exact (hsaid _ hk).mono (trace_prefix_of_step (step_cases h)).subset id
  | accepted ha hnew => exact rfl
  | step hk hstep htrace hi chan =>
    rw [htrace]
    refine (Conn.Said.step hL (hsaid _ hk) hstep fun hfails => ?_).mono (List.Subset.refl _) id
    rcases hi with ha | hlocal
    · exact hfine _ ha hfails
    · exfalso
      unfold Input.fails at hfails
      split at hfails <;> simp [Input.isLocal] at hlocal hfails

end Hub

end AgentHub
