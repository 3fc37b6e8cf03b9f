import AgentHub.Replies
import AgentHub.Session

/-!
# What an invocation reads

In every run of a session the hub has received a part of the two lines that the client writes,
and the client has read a part of what the hub has written. Where the client stands tells which
part (`Client.Follows`) : it has read the hub's `ok` before it writes its verb, and it exits with
what it makes of a refusal, or of the hub's last line. Only where an operation fails may it exit
without having read a second line (`Session.paired_of_reach`).
-/

namespace AgentHub

/-! ## The sockets of a task -/

/-- The bytes that a task reads off its socket. -/
def Input.bytes : Input → List UInt8
  | .recv (.ok bytes) => bytes
  | _ => []

section Task

variable {L : Libs} {F : Floats} {roster : Roster} {now : DateTime} {c : ConnId} {k k' : Conn}
  {t obs : List Obs} {fine : Bool} {out : List UInt8} {pc : Pc} {i : Input}

theorem sockets_of_reply {line : ServerLine} {next : ReplyNext} {r : Except ℕ Unit}
    (h : k.reply L c line next r = some (k', obs)) : k'.received = k.received ∧ k.out <+: k'.out := by
  unfold Conn.reply at h
  dsimp only at h
  split at h
  · obtain ⟨rfl, -⟩ := Prod.mk.inj (Option.some.inj h)
    exact ⟨rfl, List.prefix_rfl⟩
  · cases h
  · split_ifs at h
    obtain ⟨rfl, -⟩ := Prod.mk.inj (Option.some.inj h)
    exact ⟨rfl, List.prefix_append _ _⟩
  · obtain ⟨rfl, -⟩ := Prod.mk.inj (Option.some.inj h)
    exact ⟨rfl, List.prefix_append _ _⟩

theorem sockets_of_write {name source : String} {x : Stamped} {written : ℕ} {r : WriteResult}
    (h : k.write L now c name x source written r = some (k', obs)) :
    k'.received = k.received ∧ k.out <+: k'.out := by
  unfold Conn.write at h
  split at h
  · cases h
  dsimp only at h
  split at h
  · cases h
  · obtain ⟨rfl, -⟩ := Prod.mk.inj (Option.some.inj h)
    exact ⟨rfl, List.prefix_append _ _⟩
  · obtain ⟨rfl, -⟩ := Prod.mk.inj (Option.some.inj h)
    exact ⟨rfl, List.prefix_append _ _⟩

/-- What a step of a task does to its socket. -/
theorem sockets_of_step (h : k.step L roster now c i = some (k', obs)) :
    k'.received = k.received ++ i.bytes ∧ k.out <+: k'.out := by
  cases i with
  | recv r =>
    simp only [Conn.step] at h
    split_ifs at h
    obtain ⟨buf, pc, rfl⟩ := frame_of_readRound h
    refine ⟨?_, List.prefix_rfl⟩
    cases r with
    | ok bytes => rfl
    | error e => exact (List.append_nil _).symm
  | refill =>
    simp only [Conn.step] at h
    split_ifs at h
    obtain ⟨buf, pc, rfl⟩ := frame_of_readRound h
    exact ⟨(List.append_nil _).symm, List.prefix_rfl⟩
  | replied r =>
    simp only [Conn.step] at h
    split at h
    · simpa [Input.bytes] using sockets_of_reply h
    · cases h
  | wrote r =>
    simp only [Conn.step] at h
    split at h
    · simpa [Input.bytes] using sockets_of_write h
    · cases h
  | polled =>
    obtain ⟨-, name, -, ⟨x, -, rfl⟩ | ⟨-, -, rfl⟩⟩ := polled_cases h
    · exact ⟨(List.append_nil _).symm, List.prefix_rfl⟩
    · exact ⟨(List.append_nil _).symm, List.prefix_rfl⟩
  | peerClosed =>
    obtain ⟨rfl, -⟩ := Prod.mk.inj (Option.some.inj h)
    exact ⟨(List.append_nil _).symm, List.prefix_rfl⟩
  | timer =>
    simp only [Conn.step] at h
    split at h
    · obtain ⟨rfl, -⟩ := Prod.mk.inj (Option.some.inj h)
      exact ⟨(List.append_nil _).symm, List.prefix_rfl⟩
    · cases h
  | bounced uuid =>
    simp only [Conn.step] at h
    split at h
    · obtain ⟨rfl, -⟩ := Prod.mk.inj (Option.some.inj h)
      exact ⟨(List.append_nil _).symm, List.prefix_rfl⟩
    · cases h
  | unserializable =>
    simp only [Conn.step] at h
    split at h
    · split at h
      · obtain ⟨rfl, -⟩ := Prod.mk.inj (Option.some.inj h)
        exact ⟨(List.append_nil _).symm, List.prefix_rfl⟩
      · cases h
    · cases h
  | died =>
    simp only [Conn.step] at h
    split at h
    · obtain ⟨rfl, -⟩ := Prod.mk.inj (Option.some.inj h)
      exact ⟨(List.append_nil _).symm, List.prefix_rfl⟩
    · obtain ⟨rfl, -⟩ := Prod.mk.inj (Option.some.inj h)
      exact ⟨(List.append_nil _).symm, List.prefix_rfl⟩
    · obtain ⟨rfl, -⟩ := Prod.mk.inj (Option.some.inj h)
      exact ⟨(List.append_nil _).symm, List.prefix_rfl⟩
    · cases h
  | _ =>
    cases sharedStep_of_step rfl h <;> exact ⟨(List.append_nil _).symm, List.prefix_rfl⟩

/-! ## The lines of the hub -/

theorem Pc.Said.cutOff (h : pc.Said F c t fine out) : CutOff F c t out := by
  have hok : out = ServerLine.ok.bytes F → CutOff F c t out := fun h => .ok (h ▸ List.prefix_rfl)
  have hnil : out = [] → CutOff F c t out := fun h => .ok (h ▸ List.nil_prefix)
  cases pc with
  | auditing phase event next =>
    cases next with
    | readHello | refuse => exact hnil h
    | finish => exact .whole h List.prefix_rfl
  | readHello => exact hnil h
  | replying line next =>
    cases next with
    | readVerb => exact hnil h.2
    | finish => exact h.2.elim (fun h => hnil h.2) hok
  | committing phase role e =>
    cases role with
    | send => exact hok h
    | bounce => exact h.2
  | readVerb | awaiting | parked | timerFired | lostRace => exact hok h
  | writing name x source written =>
    obtain ⟨hlt, rfl⟩ := h
    refine .cut ((ServerLine.isLine_bytes _).notMem_of_isPrefix (List.take_prefix _ _) fun heq => ?_)
    have := congrArg List.length heq
    rw [List.length_take] at this
    omega
  | finished => exact h.elim (fun h => .whole h List.prefix_rfl) And.right
  | requeueing | bouncing | dead => exact h.2

/-- A task that is over has said all, if nothing has failed. -/
theorem Pc.Said.whole (h : pc.Said F c t fine out) (hgone : pc.isGone = true) :
    Whole F c t out ∨ fine = false := by
  cases pc with
  | finished => exact h.imp_right And.left
  | dead => exact Or.inr h.1
  | _ => cases hgone

end Task

section Reading

variable {F : Floats} {S : SerdeJson} {formatTs : DateTime → String} {c : ConnId} {t t' : List Obs}
  {fine : Bool} {out bytes consumed : List UInt8}

theorem ok_bytes_ne (hS : S.Derived F formatTs) (message : String) :
    ServerLine.ok.bytes F ≠ (ServerLine.error message).bytes F := by
  intro heq
  have hok : readReply S "ok" (ServerLine.ok.bytes F) = .ok .ok := readReply_of_plain hS _ (by simp)
  have herror : readReply S "ok" ((ServerLine.error message).bytes F) = .ok (.error message) :=
    readReply_of_plain hS _ (by simp)
  rw [heq, herror] at hok
  cases hok

/-- What `read_line` returns behind the bytes `consumed` : a line, or the rest. -/
def ReadsOff (F : Floats) (c : ConnId) (t : List Obs) (fine : Bool) (consumed bytes : List UInt8) : Prop :=
  ∃ out, CutOff F c t out ∧ consumed ++ bytes <+: out ∧
    (IsLine newline bytes ∨ newline ∉ bytes ∧ (fine = false ∨ Whole F c t out ∧ consumed ++ bytes = out))

/-- The first line is the `ok`, or a refusal. -/
theorem ReadsOff.first (h : ReadsOff F c t fine [] bytes) : bytes = ServerLine.ok.bytes F ∨
    (∃ message, .answered c (.error message) ∈ t ∧ bytes = (ServerLine.error message).bytes F) ∨
    fine = false ∧ newline ∉ bytes := by
  obtain ⟨out, hcut, hpre, hline | ⟨hnl, hfine | ⟨hwhole, rfl⟩⟩⟩ := h
  · rw [List.nil_append] at hpre
    have hok : ∀ {t : List UInt8}, bytes <+: ServerLine.ok.bytes F ++ t → bytes = ServerLine.ok.bytes F :=
      fun h => hline.unique (ServerLine.isLine_bytes _) h (List.prefix_append _ _)
    cases hcut with
    | ok hout => exact Or.inl (hline.eq_of_isPrefix (ServerLine.isLine_bytes _) (hpre.trans hout))
    | cut => exact Or.inl (hok hpre)
    | whole hwhole hout =>
      cases hwhole with
      | @refusal message hans =>
        have heq := hline.eq_of_isPrefix (ServerLine.isLine_bytes (.error message)) (hpre.trans hout)
        exact Or.inr (Or.inl ⟨message, hans, heq⟩)
      | reply => exact Or.inl (hok (hpre.trans hout))
  · exact Or.inr (Or.inr ⟨hfine, hnl⟩)
  · rw [List.nil_append] at hwhole
    cases hwhole with
    | refusal => exact absurd (ServerLine.isLine_bytes _).mem hnl
    | reply => exact absurd (List.mem_append_left _ (ServerLine.isLine_bytes _).mem) hnl

/-- Behind the `ok` there is the last line. -/
theorem ReadsOff.second (hS : S.Derived F formatTs) (h : ReadsOff F c t fine (ServerLine.ok.bytes F) bytes) :
    (∃ line : ServerLine, line.Last c t ∧ bytes = line.bytes F) ∨ fine = false ∧ newline ∉ bytes := by
  have hrefusal : ∀ {message : String} {t : List UInt8},
      ¬ServerLine.ok.bytes F ++ t <+: (ServerLine.error message).bytes F := fun h =>
    ok_bytes_ne hS _ ((ServerLine.isLine_bytes _).eq_of_isPrefix (ServerLine.isLine_bytes _)
      ((List.prefix_append _ _).trans h))
  obtain ⟨out, hcut, hpre, hline | ⟨hnl, hfine | ⟨hwhole, rfl⟩⟩⟩ := h
  · cases hcut with
    | ok hout =>
      have := (hpre.trans hout).length_le
      rw [List.length_append] at this
      exact absurd hline.mem (by rw [List.length_eq_zero_iff.1 (by omega : bytes.length = 0)]; simp)
    | cut hnl =>
      exact absurd (((List.prefix_append_right_inj _).1 hpre).subset hline.mem) hnl
    | whole hwhole hout =>
      cases hwhole with
      | refusal => exact absurd (hpre.trans hout) hrefusal
      | reply hlast =>
        have heq := hline.eq_of_isPrefix (ServerLine.isLine_bytes _)
          ((List.prefix_append_right_inj _).1 (hpre.trans hout))
        exact Or.inl ⟨_, hlast, heq⟩
  · exact Or.inr ⟨hfine, hnl⟩
  · generalize hout : ServerLine.ok.bytes F ++ bytes = out at hwhole
    cases hwhole with
    | refusal => exact absurd ⟨[], by rw [List.append_nil, hout]⟩ (@hrefusal _ bytes)
    | reply hlast => exact Or.inl ⟨_, hlast, List.append_cancel_left hout⟩

end Reading

/-! ## Where the client stands -/

/-- The line by which an invocation introduces itself. -/
def Invocation.hello (inv : Invocation) : ClientLine :=
  .hello inv.name inv.token

section Client

variable (F : Floats) (S : SerdeJson) (inv : Invocation) (c : ConnId) (t : List Obs) (fine : Bool)

/-- The two lines that a client writes. -/
def Invocation.bytes : List UInt8 :=
  inv.hello.bytes F ++ inv.verb.bytes F

/-- How an invocation ends. It may miss the last line only where an operation has failed. -/
inductive Client.Ends (k : Client) : Except ClientError Exit → Prop
  | refused {message : String} (hsent : k.sent = inv.hello.bytes F)
      (hans : .answered c (.error message) ∈ t) : Ends k (.error (.hub message))
  | last {line : ServerLine} (hsent : k.sent = inv.bytes F) (hlast : line.Last c t) :
      Ends k (finish S inv.verb (line.bytes F))
  | severed {r : Except ClientError Exit} (hsent : k.sent <+: inv.bytes F) (hfine : fine = false)
      (hcount : k.consumed.count newline < 2) : Ends k r

/-- What a client has read when it goes on to its verb. -/
def Client.HasOk (k : Client) : Prop :=
  k.consumed = ServerLine.ok.bytes F ∨ fine = false ∧ newline ∉ k.consumed

/-- What a client has sent and read goes by where it stands. -/
def Client.Follows (k : Client) : Prop :=
  match k.pc with
  | .connecting => k.sent = [] ∧ k.consumed = []
  | .writingHello rest => rest ≠ [] ∧ k.sent ++ rest = inv.hello.bytes F ∧ k.consumed = []
  | .readingOk => k.sent = inv.hello.bytes F ∧ k.consumed = []
  | .writingVerb rest => rest ≠ [] ∧ k.sent ++ rest = inv.bytes F ∧ k.HasOk F fine
  | .readingReply => k.sent = inv.bytes F ∧ k.HasOk F fine
  | .exited r => k.Ends F S inv c t fine r

end Client

/-- The input is a failed operation of the client. -/
def ClientInput.fails : ClientInput → Bool
  | .connectFails _ _ | .writeFails _ | .readFails _ => true
  | _ => false

section Client

variable {F : Floats} {S : SerdeJson} {formatTs : DateTime → String} {inv : Invocation} {c : ConnId}
  {t t' : List Obs} {fine : Bool} {k k' : Client} {i : ClientInput} {r : Except ClientError Exit}

theorem Client.Ends.mono (h : k.Ends F S inv c t fine r) (ht : t ⊆ t') : k.Ends F S inv c t' fine r := by
  cases h with
  | refused hsent hans => exact .refused hsent (ht hans)
  | last hsent hlast => exact .last hsent (hlast.mono ht)
  | severed hsent hfine hcount => exact .severed hsent hfine hcount

theorem Client.Follows.mono (h : k.Follows F S inv c t fine) (ht : t ⊆ t') :
    k.Follows F S inv c t' fine := by
  unfold Client.Follows at h ⊢
  split at h
  case h_6 => exact h.mono ht
  all_goals exact h

/-- A client sends no more than its two lines. -/
theorem Client.Follows.sent_isPrefix (h : k.Follows F S inv c t fine) : k.sent <+: inv.bytes F := by
  have hhello : inv.hello.bytes F <+: inv.bytes F := List.prefix_append _ _
  unfold Client.Follows at h
  split at h
  · rw [h.1]
    exact List.nil_prefix
  · exact (List.prefix_append _ _).trans (h.2.1 ▸ hhello)
  · exact h.1 ▸ hhello
  · exact h.2.1 ▸ List.prefix_append _ _
  · exact h.1 ▸ List.prefix_rfl
  · cases h with
    | refused hsent => exact hsent ▸ hhello
    | last hsent => exact hsent ▸ List.prefix_rfl
    | severed hsent => exact hsent

theorem Client.HasOk.count_le (h : k.HasOk F fine) : k.consumed.count newline < 2 := by
  rcases h with h | ⟨-, h⟩
  · rw [h, (ServerLine.isLine_bytes _).count]
    exact Nat.one_lt_two
  · rw [List.count_eq_zero_of_not_mem h]
    exact Nat.two_pos

theorem ClientLine.bytes_ne (line : ClientLine) : line.bytes F ≠ [] := by
  rw [ClientLine.bytes_eq]
  simp

theorem startWrite_eq (hS : S.Derived F formatTs) (line : ClientLine) (pc : List UInt8 → ClientPc) :
    startWrite S line pc = pc (line.bytes F) := by
  rw [startWrite, toJsonl, hS.clientLine_encodes]
  rfl

/-- What a client makes of its first line. -/
theorem Client.Follows.readOk (hS : S.Derived F formatTs) (hpc : k.pc = .readingOk)
    (h : k.Follows F S inv c t fine) {bytes : List UInt8} (hread : ReadsOff F c t fine k.consumed bytes) :
    ({ k with pc := onOkReply S inv.verb bytes, consumed := k.consumed ++ bytes } : Client).Follows
      F S inv c t fine := by
  unfold Client.Follows at h
  rw [hpc] at h
  obtain ⟨hsent, hconsumed⟩ := h
  rw [hconsumed] at hread ⊢
  have hverb : k.sent ++ inv.verb.bytes F = inv.bytes F := by rw [hsent]; rfl
  rcases hread.first with rfl | ⟨message, hans, rfl⟩ | ⟨hfine, hnl⟩
  · rw [onOkReply, readReply_of_plain hS _ (by simp)]
    dsimp only
    rw [startWrite_eq hS]
    exact ⟨ClientLine.bytes_ne _, hverb, Or.inl rfl⟩
  · rw [onOkReply, readReply_of_plain hS _ (by simp)]
    exact .refused hsent hans
  · have hsevered : ∀ {r : Except ClientError Exit},
        ({ k with pc := .exited r, consumed := [] ++ bytes } : Client).Follows F S inv c t fine := fun {r} =>
      .severed (hsent ▸ List.prefix_append _ _) hfine (by simp [List.count_eq_zero_of_not_mem hnl])
    rw [onOkReply]
    split
    · rw [startWrite_eq hS]
      exact ⟨ClientLine.bytes_ne _, hverb, Or.inr ⟨hfine, hnl⟩⟩
    · exact hsevered
    · exact hsevered

/-- What a client makes of its second line. -/
theorem Client.Follows.readLast (hS : S.Derived F formatTs) (hpc : k.pc = .readingReply)
    (h : k.Follows F S inv c t fine) {bytes : List UInt8} (hread : ReadsOff F c t fine k.consumed bytes) :
    ({ k with pc := .exited (finish S inv.verb bytes), consumed := k.consumed ++ bytes } : Client).Follows
      F S inv c t fine := by
  unfold Client.Follows at h
  rw [hpc] at h
  obtain ⟨hsent, hok⟩ := h
  have hsevered : fine = false → (k.consumed ++ bytes).count newline < 2 →
      ({ k with pc := .exited (finish S inv.verb bytes), consumed := k.consumed ++ bytes } : Client).Follows
        F S inv c t fine := fun hfine hcount => .severed (hsent ▸ List.prefix_rfl) hfine hcount
  rcases hok with hok | ⟨hfine, hnl⟩
  · rw [hok] at hread
    rcases hread.second hS with ⟨line, hlast, rfl⟩ | ⟨hfine, hnl⟩
    · exact .last hsent hlast
    · refine hsevered hfine ?_
      rw [hok, (ServerLine.isLine_bytes _).count_append hnl]
      exact Nat.one_lt_two
  · refine hsevered hfine ?_
    obtain ⟨out, -, -, hline | ⟨hnl', -⟩⟩ := hread
    · rw [List.count_append, List.count_eq_zero_of_not_mem hnl, hline.count]
      exact Nat.one_lt_two
    · rw [List.count_append, List.count_eq_zero_of_not_mem hnl, List.count_eq_zero_of_not_mem hnl']
      exact Nat.two_pos

/-- One step of the client. -/
theorem Client.Follows.step (hS : S.Derived F formatTs) (h : k.Follows F S inv c t fine)
    (hstep : k.step S inv i = some k') (hi : i.fails = true → fine = false)
    (hread : ∀ bytes, i = .read bytes → ReadsOff F c t fine k.consumed bytes) :
    k'.Follows F S inv c t fine := by
  have hprefix := h.sent_isPrefix
  cases i with
  | connected =>
    simp only [Client.step] at hstep
    unfold Client.Follows at h
    split at hstep
    · rename_i hpc
      rw [hpc] at h
      rw [startWrite_eq hS] at hstep
      obtain rfl := Option.some.inj hstep
      refine ⟨ClientLine.bytes_ne _, ?_, h.2⟩
      rw [h.1]
      rfl
    · cases hstep
  | connectFails addr source =>
    simp only [Client.step] at hstep
    unfold Client.Follows at h
    split at hstep
    · rename_i hpc
      rw [hpc] at h
      obtain rfl := Option.some.inj hstep
      exact .severed hprefix (hi rfl) (by simp [h.2])
    · cases hstep
  | wrote n =>
    simp only [Client.step] at hstep
    unfold Client.Follows at h
    split at hstep
    · rename_i rest hpc
      rw [hpc] at h
      obtain ⟨-, hsent, hconsumed⟩ := h
      split_ifs at hstep with hn hall
      · obtain rfl := Option.some.inj hstep
        refine ⟨?_, hconsumed⟩
        rw [← hsent, List.take_of_length_le (by omega)]
      · obtain rfl := Option.some.inj hstep
        refine ⟨?_, ?_, hconsumed⟩
        · rw [ne_eq, List.drop_eq_nil_iff]
          omega
        · rw [List.append_assoc, List.take_append_drop, hsent]
    · rename_i rest hpc
      rw [hpc] at h
      obtain ⟨-, hsent, hok⟩ := h
      split_ifs at hstep with hn hall
      · obtain rfl := Option.some.inj hstep
        refine ⟨?_, hok⟩
        rw [← hsent, List.take_of_length_le (by omega)]
      · obtain rfl := Option.some.inj hstep
        refine ⟨?_, ?_, hok⟩
        · rw [ne_eq, List.drop_eq_nil_iff]
          omega
        · rw [List.append_assoc, List.take_append_drop, hsent]
    · cases hstep
  | writeFails source =>
    simp only [Client.step] at hstep
    unfold Client.Follows at h
    split at hstep
    · rename_i hpc
      rw [hpc] at h
      obtain rfl := Option.some.inj hstep
      exact .severed hprefix (hi rfl) (by simp [h.2.2])
    · rename_i hpc
      rw [hpc] at h
      obtain rfl := Option.some.inj hstep
      exact .severed hprefix (hi rfl) h.2.2.count_le
    · cases hstep
  | read bytes =>
    simp only [Client.step] at hstep
    split at hstep
    · rename_i hpc
      obtain rfl := Option.some.inj hstep
      exact h.readOk hS hpc (hread bytes rfl)
    · rename_i hpc
      obtain rfl := Option.some.inj hstep
      exact h.readLast hS hpc (hread bytes rfl)
    · cases hstep
  | readFails source =>
    simp only [Client.step] at hstep
    unfold Client.Follows at h
    split at hstep
    · rename_i hpc
      rw [hpc] at h
      obtain rfl := Option.some.inj hstep
      exact .severed hprefix (hi rfl) (by simp [h.2])
    · rename_i hpc
      rw [hpc] at h
      obtain rfl := Option.some.inj hstep
      exact .severed hprefix (hi rfl) h.2.count_le
    · cases hstep

/-- The bytes that a client reads. -/
def ClientInput.bytes : ClientInput → List UInt8
  | .read bytes => bytes
  | _ => []

/-- What a step of a client does to its socket. -/
theorem sockets_of_clientStep (h : k.step S inv i = some k') :
    k.hasExited = false ∧ k.sent <+: k'.sent ∧ k'.consumed = k.consumed ++ i.bytes := by
  have hpc : ∀ {pc : ClientPc}, k.pc = pc → (∀ r, pc ≠ .exited r) → k.hasExited = false := by
    rintro _ rfl hne
    unfold Client.hasExited
    split
    · rename_i r heq
      exact absurd heq (hne r)
    · rfl
  cases i with
  | wrote n =>
    simp only [Client.step] at h
    split at h
    · rename_i hk
      obtain ⟨-, h⟩ := Option.ite_none_right_eq_some.1 h
      obtain rfl := Option.some.inj h
      exact ⟨hpc hk (by simp), List.prefix_append _ _, (List.append_nil _).symm⟩
    · rename_i hk
      obtain ⟨-, h⟩ := Option.ite_none_right_eq_some.1 h
      obtain rfl := Option.some.inj h
      exact ⟨hpc hk (by simp), List.prefix_append _ _, (List.append_nil _).symm⟩
    · cases h
  | connected | connectFails =>
    simp only [Client.step] at h
    split at h
    · rename_i hk
      obtain rfl := Option.some.inj h
      exact ⟨hpc hk (by simp), List.prefix_rfl, (List.append_nil _).symm⟩
    · cases h
  | writeFails | read | readFails =>
    simp only [Client.step] at h
    split at h
    · rename_i hk
      obtain rfl := Option.some.inj h
      exact ⟨hpc hk (by simp), List.prefix_rfl, by simp [ClientInput.bytes]⟩
    · rename_i hk
      obtain rfl := Option.some.inj h
      exact ⟨hpc hk (by simp), List.prefix_rfl, by simp [ClientInput.bytes]⟩
    · cases h

end Client

/-! ## Runs of a session -/

/-- The event is a failed operation of the client, or a broken connection. -/
def Event.fails : Event → Bool
  | .breaks => true
  | .client i => i.fails
  | _ => false

namespace Session

variable (L : Libs) (F : Floats) (S : SerdeJson) (roster : Roster) (inv : Invocation) (c : ConnId)
  (audit : AuditLog) (fine : Bool)

/-- What holds of hub and client at any time. If `fine`, no operation of the client has failed, and
none of the hub's before the client's exit. -/
structure Paired (s : Session) : Prop where
  reach : Hub.Reach (L.withSerde S) roster audit s.hub
  broken : s.broken = true → fine = false
  said : ∀ k, s.hub.conns c = some k → s.client.hasExited = false → k.Said F c s.hub.trace fine
  received : ∀ k, s.hub.conns c = some k → k.received <+: s.client.sent
  consumed : ∀ k, s.hub.conns c = some k → s.client.consumed <+: k.out
  client : s.client.Follows F S inv c s.hub.trace fine

section

variable {L : Libs} {F : Floats} {S : SerdeJson} {formatTs : DateTime → String} {roster : Roster}
  {inv : Invocation} {c : ConnId} {audit : AuditLog} {fine : Bool} {s s' : Session} {k : Conn}

theorem speaks_of_derived (hS : S.Derived F formatTs) (L : Libs) : (L.withSerde S).Speaks F := by
  intro line
  rw [toJsonl, Libs.withSerde]
  dsimp only
  rw [hS.serverLine_encodes line]

/-- What a task is given to read. -/
theorem received_of_hubIo {i : Input} (hio : s.hubIo k i = true) (h : k.received <+: s.client.sent) :
    k.received ++ i.bytes <+: s.client.sent := by
  cases i with
  | recv r =>
    cases r with
    | ok bytes =>
      cases bytes with
      | nil => exact (List.append_nil _).symm ▸ h
      | cons b bytes => exact List.isPrefixOf_iff_prefix.1 hio
    | error e => exact (List.append_nil _).symm ▸ h
  | _ => exact (List.append_nil _).symm ▸ h

theorem bytes_of_shared {i : Input} (h : i.isLocal = false) : i.bytes = [] := by
  cases i <;> first | rfl | cases h

/-- An operation of a task fails only on a broken connection, or once the client has exited. -/
theorem broken_of_hubIo {i : Input} (hio : s.hubIo k i = true) (hfails : i.fails = true) :
    s.broken = true ∨ s.client.hasExited = true := by
  unfold Input.fails at hfails
  split at hfails
  · simpa [hubIo] using hio
  · simp only [hubIo, Bool.or_eq_true, Bool.and_eq_true] at hio
    exact hio.imp_right And.left
  · simpa [hubIo] using hio
  · simpa [hubIo] using hio
  · simpa [hubIo] using hio
  · exact Or.inl hio
  · cases hfails

/-- What a client is given to read. -/
theorem reads_of_clientIo {bytes : List UInt8} (hio : s.clientIo k (.read bytes) = true) :
    bytes <+: k.out.drop s.client.consumed.length ∧
      (IsLine newline bytes ∨
        newline ∉ bytes ∧ (s.broken = true ∨
          k.pc.isGone = true ∧ bytes = k.out.drop s.client.consumed.length)) := by
  simp only [clientIo] at hio
  split_ifs at hio with hmem
  · simp only [Bool.and_eq_true, decide_eq_true_eq, List.isPrefixOf_iff_prefix] at hio
    obtain ⟨⟨hpre, hlast⟩, hnl⟩ := hio
    exact ⟨hpre, Or.inl ⟨_, hnl, (List.dropLast_append_getLast? _ hlast).symm⟩⟩
  · simp only [Bool.or_eq_true, Bool.and_eq_true, decide_eq_true_eq, List.isPrefixOf_iff_prefix] at hio
    rcases hio with ⟨hbroken, hpre⟩ | ⟨hgone, hbytes⟩
    · exact ⟨hpre, Or.inr ⟨hmem, Or.inl hbroken⟩⟩
    · exact ⟨hbytes ▸ List.prefix_rfl, Or.inr ⟨hmem, Or.inr ⟨hgone, hbytes⟩⟩⟩

/-- A client that has not exited reads off what the hub has said. -/
theorem Paired.readsOff (h : s.Paired L F S roster inv c audit fine) (hk : s.hub.conns c = some k)
    (hexited : s.client.hasExited = false) {bytes : List UInt8}
    (hio : s.clientIo k (.read bytes) = true) :
    ReadsOff F c s.hub.trace fine s.client.consumed bytes := by
  have hsaid := h.said k hk hexited
  obtain ⟨more, hout⟩ := h.consumed k hk
  obtain ⟨hpre, hbytes⟩ := reads_of_clientIo hio
  have hdrop : k.out.drop s.client.consumed.length = more := by rw [← hout, List.drop_left]
  rw [hdrop] at hpre hbytes
  refine ⟨k.out, hsaid.cutOff, hout ▸ (List.prefix_append_right_inj _).2 hpre, hbytes.imp_right ?_⟩
  rintro ⟨hnl, hbroken | ⟨hgone, rfl⟩⟩
  · exact ⟨hnl, Or.inl (h.broken hbroken)⟩
  · refine ⟨hnl, (hsaid.whole hgone).symm.imp_right fun hwhole => ⟨hwhole, hout⟩⟩

/-- A step of the client. -/
theorem Paired.clientStep (hS : S.Derived F formatTs) (h : s.Paired L F S roster inv c audit fine)
    {i : ClientInput} {client : Client} (hoffers : s.offers c i = true)
    (hstep : s.client.step S inv i = some client) (hi : i.fails = true → fine = false) :
    ({ s with client } : Session).Paired L F S roster inv c audit fine := by
  obtain ⟨hexited, hsent, hconsumed⟩ := sockets_of_clientStep hstep
  have hio : ∀ bytes, i = .read bytes → ∃ k, s.hub.conns c = some k ∧ s.clientIo k (.read bytes) = true := by
    rintro bytes rfl
    unfold offers at hoffers
    split at hoffers
    · exact ⟨_, ‹_›, hoffers⟩
    · cases hoffers
  refine ⟨h.reach, h.broken, fun k hk _ => h.said k hk hexited, fun k hk => (h.received k hk).trans hsent,
    fun k hk => ?_, h.client.step hS hstep hi fun bytes hbytes => ?_⟩
  · dsimp only
    rw [hconsumed]
    cases i with
    | read bytes =>
      obtain ⟨k', hk', hio⟩ := hio bytes rfl
      obtain rfl := Option.some.inj (hk.symm.trans hk')
      obtain ⟨more, hout⟩ := h.consumed k hk
      have hpre := (reads_of_clientIo hio).1
      rw [← hout, List.drop_left] at hpre
      exact hout ▸ (List.prefix_append_right_inj _).2 hpre
    | _ => exact (List.append_nil _).symm ▸ h.consumed k hk
  · obtain ⟨k, hk, hio⟩ := hio bytes hbytes
    exact h.readsOff hk hexited hio

/-- A step of the hub. -/
theorem Paired.hubStep (hS : S.Derived F formatTs) (h : s.Paired L F S roster inv c audit fine)
    {now : DateTime} {a : Action} {hub : Hub} (hpermits : s.permits c a = true)
    (hstep : s.hub.step (L.withSerde S) roster (now, a) = some hub) :
    ({ s with hub } : Session).Paired L F S roster inv c audit fine := by
  have hpre : s.hub.trace <+: hub.trace := Hub.trace_prefix_of_step (Hub.step_cases hstep)
  have hio : ∀ i, a = .task c i → ∀ k, s.hub.conns c = some k → s.hubIo k i = true := by
    rintro i rfl k hk
    simpa [permits, hk] using hpermits
  have hsockets : ∀ k', hub.conns c = some k' → ∃ k, s.hub.conns c = some k ∧
      k'.received <+: s.client.sent ∧ k.out <+: k'.out := by
    intro k' hk'
    cases Hub.effect_of_step hstep hk' with
    | @frame k hk _ chan => exact ⟨k, hk, h.received k hk, List.prefix_rfl⟩
    | accepted ha =>
      subst ha
      simp [permits] at hpermits
    | @step k k₁ i obs hk hstep _ hi chan =>
      obtain ⟨hreceived, hout⟩ := sockets_of_step hstep
      refine ⟨k, hk, ?_, hout⟩
      dsimp only
      rw [hreceived]
      rcases hi with ha | hlocal
      · exact received_of_hubIo (hio i ha k hk) (h.received k hk)
      · rw [bytes_of_shared hlocal, List.append_nil]
        exact h.received k hk
  refine ⟨.next h.reach trivial hstep, h.broken, fun k' hk' hexited => ?_, fun k' hk' => ?_, fun k' hk' => ?_,
    h.client.mono hpre.subset⟩
  · refine Hub.said_of_step (speaks_of_derived hS L) hstep (fun k hk => h.said k hk hexited) ?_ hk'
    intro i ha hfails
    obtain ⟨k, hk⟩ : ∃ k, s.hub.conns c = some k := by
      obtain ⟨k, hk, -⟩ := hsockets k' hk'
      exact ⟨k, hk⟩
    exact h.broken ((broken_of_hubIo (hio i ha k hk) hfails).resolve_right (by simpa using hexited))
  · obtain ⟨k, hk, hreceived, -⟩ := hsockets k' hk'
    exact hreceived
  · obtain ⟨k, hk, -, hout⟩ := hsockets k' hk'
    exact (h.consumed k hk).trans hout

/-- The client connects. -/
theorem Paired.connectStep (hS : S.Derived F formatTs) (h : s.Paired L F S roster inv c audit fine)
    {now : DateTime} {peer : String} {hub : Hub} {client : Client}
    (hhub : s.hub.step (L.withSerde S) roster (now, .accept c peer) = some hub)
    (hclient : s.client.step S inv .connected = some client) :
    ({ s with hub, client } : Session).Paired L F S roster inv c audit fine := by
  have hpre : s.hub.trace <+: hub.trace := Hub.trace_prefix_of_step (Hub.step_cases hhub)
  have hnil : s.client.consumed = [] := by
    have hfollows := h.client
    unfold Client.Follows at hfollows
    simp only [Client.step] at hclient
    split at hclient
    · rename_i hpc
      rw [hpc] at hfollows
      exact hfollows.2
    · cases hclient
  have hconsumed : client.consumed = [] := by
    rw [(sockets_of_clientStep hclient).2.2, hnil]
    rfl
  have hnew : ∀ k', hub.conns c = some k' → k' = .accepted now peer := by
    intro k' hk'
    cases Hub.step_cases hhub with
    | accept hnew =>
      rw [Hub.put_conns, if_pos rfl] at hk'
      exact (Option.some.inj hk').symm
  refine ⟨.next h.reach trivial hhub, h.broken, fun k' hk' _ => ?_, fun k' hk' => ?_, fun k' hk' => ?_,
    (h.client.step hS hclient (by simp [ClientInput.fails]) (by simp)).mono hpre.subset⟩
  · rw [hnew k' hk']
    exact rfl
  · rw [hnew k' hk']
    exact List.nil_prefix
  · dsimp only
    rw [hconsumed]
    exact List.nil_prefix

theorem paired_of_reach (hS : S.Derived F formatTs)
    (h : Machine.ReachVia (step (L.withSerde S) S roster inv c) (fun _ e => e.fails = true → fine = false)
      (init audit) s) : s.Paired L F S roster inv c audit fine := by
  refine Machine.ReachVia.invariant h ?_ fun s e s' _ hP hQ hs => ?_
  · refine ⟨.init, by simp [init], by simp [init, Hub.init], by simp [init, Hub.init],
      by simp [init, Hub.init], ⟨rfl, rfl⟩⟩
  · cases e with
    | hub now a =>
      simp only [step] at hs
      split_ifs at hs with hpermits
      obtain ⟨hub, hhub, rfl⟩ := Option.map_eq_some_iff.1 hs
      exact hP.hubStep hS hpermits hhub
    | connect now peer =>
      obtain ⟨hub, hhub, hs⟩ := Option.bind_eq_some_iff.1 hs
      obtain ⟨client, hclient, rfl⟩ := Option.map_eq_some_iff.1 hs
      exact hP.connectStep hS hhub hclient
    | client i =>
      simp only [step] at hs
      split_ifs at hs with hoffers
      obtain ⟨client, hclient, rfl⟩ := Option.map_eq_some_iff.1 hs
      exact hP.clientStep hS hoffers hclient hQ
    | breaks =>
      obtain rfl := Option.some.inj hs
      exact ⟨hP.reach, fun _ => hQ rfl, hP.said, hP.received, hP.consumed, hP.client⟩

end

end Session

end AgentHub
