import AgentHub.BodyFidelity
import AgentHub.Heard
import AgentHub.Invocation
import AgentHub.Isolation

/-!
# What a client makes of the last line

The hub's last line answers the verb of its connection, and every line of the hub can be read by
the client : an envelope that was accepted came on a line that `serde_json` has read, and is
delivered on one that nests no deeper (`Hub.readable_of_accepted`). So an invocation that gets the
last line whole ends with the hub's error message, an accepted id, a timeout or an envelope, as its
verb asks for (`Hub.settled_of_last`).
-/

namespace AgentHub

variable {F : Floats} {S : SerdeJson} {formatTs : DateTime → String}

/-! ## Values that were read -/

theorem Number.valid_of_decode (hF : F.Lawful) {l : Literal} {n : Number}
    (h : Number.decode F l = some n) : n.Valid := by
  have hfloat : (F.parse l).map Number.float = some n → n.Valid := fun h => by
    obtain ⟨bits, hbits, rfl⟩ := Option.map_eq_some_iff.1 h
    exact hF.finite l bits hbits
  unfold Number.decode at h
  split at h
  · rename_i z hz
    split_ifs at h with hneg hrange hrange
    · obtain rfl := Option.some.inj h
      show Int64.ofInt z < 0
      rw [Int64.lt_iff_toInt_lt, Int64.toInt_ofInt_of_le hrange.2 (by omega)]
      exact hrange.1
    · exact hfloat h
    · obtain rfl := Option.some.inj h
      trivial
    · exact hfloat h
  · exact hfloat h

/-- What is decoded is a value of the Rust type. -/
theorem Value.made_of_decode (hF : F.Lawful) {j : Json} {v : Value} (h : Value.decode F j = some v) :
    v.Made Number.Valid := by
  induction j using Json.induct generalizing v with
  | null =>
    rw [← Option.some.inj h]
    exact .null
  | bool b =>
    rw [← Option.some.inj h]
    exact .bool b
  | string s =>
    rw [← Option.some.inj h]
    exact .string s
  | number l =>
    obtain ⟨n, hn, rfl⟩ := Option.map_eq_some_iff.1 h
    exact .number (Number.valid_of_decode hF hn)
  | array items ih =>
    obtain ⟨vs, hvs, rfl⟩ := Option.map_eq_some_iff.1 h
    refine .array fun v hv => ?_
    obtain ⟨j, hj, hdecode⟩ := forall₂_mem_right (decodeItems_eq_some.1 hvs) hv
    exact ih j hj hdecode
  | object ms ih =>
    obtain ⟨vs, hvs, rfl⟩ := Option.map_eq_some_iff.1 h
    obtain ⟨ms', hms', hsorted, hmem⟩ := ofMembers_spec vs
    rw [hms']
    refine .object hsorted fun m' hm' => ?_
    obtain ⟨m, hm, -, hdecode⟩ := forall₂_mem_right (decodeMembers_eq_some.1 hvs) (hmem m' hm')
    exact ih m hm hdecode

/-- An envelope whose line a client can read. -/
structure Envelope.Readable (F : Floats) (e : Envelope) : Prop where
  made : e.body.Made Number.Valid
  depth : ((ServerLine.envelope e).encode F).depth < recursionLimit

theorem Envelope.readable_of_sent (hS : S.Derived F formatTs) (hF : F.Lawful) {text : String}
    {e : Envelope} (h : S.clientLineFromStr text = .ok (.send e)) (name : String) :
    ({ e with «from» := name } : Envelope).Readable F := by
  obtain ⟨j, hread, hj⟩ := (hS.clientLine_decodes text _).1 h
  obtain ⟨content, -, he⟩ := send_of_decode hj
  obtain ⟨k, -, hbody⟩ := body_of_decode he
  exact ⟨Value.made_of_decode hF hbody,
    (depth_delivered_le hj name).trans_lt (Json.depth_of_read (by decide) hread)⟩

/-- A bounce holds three strings. -/
theorem Envelope.readable_bounce (L : Libs) (now : DateTime) (uuid lostId sender recipient reason : String) :
    (bounceEnvelope L now uuid lostId sender recipient reason).Readable F := by
  obtain ⟨ms, hms, hsorted, hmem⟩ := ofMembers_spec
    [("id", .string lostId), ("to", .string recipient), ("reason", .string reason)]
  have hstring : ∀ m ∈ ms, ∃ s, m.2 = Value.string s := fun m hm => by
    have := hmem m hm
    simp only [List.mem_cons, List.not_mem_nil, or_false] at this
    rcases this with rfl | rfl | rfl <;> exact ⟨_, rfl⟩
  have hbody : (bounceEnvelope L now uuid lostId sender recipient reason).body = .object ms := hms
  refine ⟨?_, ?_⟩
  · rw [hbody]
    refine .object hsorted fun m hm => ?_
    obtain ⟨s, hs⟩ := hstring m hm
    rw [hs]
    exact .string s
  · have hdepth : ((Value.object ms).encode F).depth < 2 := by
      rw [Value.encode, encodeMembers_eq, Json.depth_object_lt Nat.one_pos]
      intro m' hm'
      obtain ⟨m, hm, rfl⟩ := List.mem_map.1 hm'
      obtain ⟨s, hs⟩ := hstring m hm
      rw [hs]
      exact Nat.one_pos
    have := (depth_envelope_lt (F := F)
      (e := bounceEnvelope L now uuid lostId sender recipient reason) (k := 2) (by omega)).2 (hbody ▸ hdepth)
    rw [ServerLine.encode, Json.depth_ofVariant]
    exact lt_of_lt_of_le (Nat.succ_lt_succ this) (by decide)

/-! ## Lines of the client -/

/-- The bytes of a client line. -/
def ClientLine.bytes (F : Floats) (line : ClientLine) : List UInt8 :=
  asBytes (String.ofList (line.encode F).text ++ "\n")

theorem ClientLine.bytes_eq (line : ClientLine) :
    line.bytes F = asBytes (String.ofList (line.encode F).text) ++ [newline] :=
  asBytes_append _ _

theorem ClientLine.isLine_bytes (line : ClientLine) : IsLine newline (line.bytes F) := by
  refine ⟨_, ?_, line.bytes_eq⟩
  rw [newline_mem_asBytes, String.toList_ofList]
  exact Json.newline_notMem_text _

/-- What is read of a client line. -/
theorem decode_of_line (hS : S.Derived F formatTs) {line read : ClientLine} {bytes : List UInt8}
    {text : String} (hbytes : line.bytes F = bytes ++ [newline]) (htext : fromUtf8 bytes = some text)
    (hread : S.clientLineFromStr text = .ok read) : ClientLine.decode F (line.encode F) = some read := by
  rw [ClientLine.bytes_eq] at hbytes
  obtain rfl := List.append_cancel_right hbytes
  obtain rfl := Option.some.inj ((fromUtf8_asBytes _).symm.trans htext)
  obtain ⟨j, hj, hdecode⟩ := (hS.clientLine_decodes _ _).1 hread
  rw [String.toList_ofList, ← List.append_nil (line.encode F).text] at hj
  obtain rfl := Json.eq_of_read_text hj (by simp)
  exact hdecode

/-- A hub that has received a part of two lines, the second of which it has read : it has received
both. -/
theorem received_of_secondLine {L : Libs} {received first second : List UInt8} {read : ClientLine}
    (hfirst : IsLine newline first) (hsecond : IsLine newline second)
    (hpre : received <+: first ++ second) (h : SecondLine L received read) :
    received = first ++ second ∧ ∃ bytes text, second = bytes ++ [newline] ∧ fromUtf8 bytes = some text ∧
      L.clientLineFromStr text = .ok read := by
  obtain ⟨pre₁, hpre₁, rfl⟩ := hfirst
  obtain ⟨pre₂, hpre₂, rfl⟩ := hsecond
  obtain ⟨line₁, line₂, rest, text, rfl, hline₁, hline₂, htext, hread⟩ := h
  obtain ⟨more, hmore⟩ := hpre
  simp only [List.append_assoc, List.cons_append, List.nil_append] at hmore
  obtain ⟨rfl, hmore₂⟩ := split_at_first hmore hline₁ hpre₁
  obtain ⟨rfl, hnil⟩ := split_at_first hmore₂ hline₂ hpre₂
  obtain ⟨rfl, rfl⟩ := List.append_eq_nil_iff.1 hnil
  exact ⟨by simp, line₂, text, rfl, htext, hread⟩

/-! ## Lines of the hub -/

/-- The client reads a whole line of the hub. -/
theorem readReply_bytes (hS : S.Derived F formatTs) (expected : String) {line read : ServerLine}
    (hdepth : (line.encode F).depth < recursionLimit) (hread : ServerLine.decode F (line.encode F) = some read) :
    readReply S expected (line.bytes F) = .ok read := by
  have hne : line.bytes F ≠ [] := by
    rw [ServerLine.bytes_eq]
    simp
  have hline : fromJsonl S.serverLineFromStr (String.ofList (line.encode F).text ++ "\n") = .ok read := by
    refine fromJsonl_of_read hS.serverLine_decodes ?_ hread
    rw [String.toList_append, String.toList_ofList]
    exact Json.read_append_space (Json.read_text hdepth) isSpace_newline
  rw [ServerLine.bytes, readReply_text hne, hline]
  rfl

/-- A line without an envelope nests two levels deep at most. -/
theorem ServerLine.depth_le {line : ServerLine} (h : ∀ e, line ≠ .envelope e) : (line.encode F).depth ≤ 2 := by
  cases line with
  | envelope e => exact absurd rfl (h e)
  | ok | error | accepted | timeout =>
    rw [ServerLine.encode, Json.depth_ofVariant]
    simp [Json.depth, Json.depthMembers, Json.depthMember]

theorem readReply_of_plain (hS : S.Derived F formatTs) (expected : String) {line : ServerLine}
    (h : ∀ e, line ≠ .envelope e) : readReply S expected (line.bytes F) = .ok line := by
  refine readReply_bytes hS expected ((ServerLine.depth_le h).trans_lt (by decide)) ?_
  refine ServerLine.decode_encode ?_
  cases line with
  | envelope e => exact absurd rfl (h e)
  | _ => trivial

theorem readReply_envelope (hS : S.Derived F formatTs) (hF : F.Lawful) (expected : String) {e : Envelope}
    (he : e.Readable F) : ∃ v, Value.decode F (e.body.encode F) = some v ∧
      readReply S expected ((ServerLine.envelope e).bytes F) = .ok (.envelope { e with body := v }) := by
  obtain ⟨v, hv⟩ := Value.exists_decode_encode hF he.made
  refine ⟨v, hv, readReply_bytes hS expected he.depth ?_⟩
  rw [ServerLine.decode_encode_envelope, Envelope.decode_encode_body hv, Option.map_some]

/-! ## The last line -/

/-- How an invocation ends that gets the hub's last line. -/
inductive Settled (F : Floats) (S : SerdeJson) (c : ConnId) (t : List Obs) (verb : ClientLine) :
    Except ClientError Exit → Prop
  | refused {message : String} (hans : .answered c (.error message) ∈ t) :
      Settled F S c t verb (.error (.hub message))
  | accepted {e : Envelope} {id : String} (hverb : verb = .send e) (hans : .answered c (.accepted id) ∈ t) :
      Settled F S c t verb (.ok (.success (id ++ "\n")))
  | timedOut {replyTo kind : Option String} {secs : Option UInt64} (hverb : verb = .await replyTo kind secs)
      (hans : .answered c .timeout ∈ t) : Settled F S c t verb (.ok .timeout)
  | delivered {replyTo kind : Option String} {secs : Option UInt64} (hverb : verb = .await replyTo kind secs)
      {x : Stamped} (hx : .written c x ∈ t) {v : Value}
      (hv : Value.decode F (x.envelope.body.encode F) = some v) {jsonl : String}
      (hjsonl : toJsonl S.envelopeToString { x.envelope with body := v } = .ok jsonl) :
      Settled F S c t verb (.ok (.success jsonl))

theorem send_of_decode_line {line : ClientLine} {e : Envelope}
    (h : ClientLine.decode F (line.encode F) = some (.send e)) : ∃ e₀, line = .send e₀ ∧
      ∃ v, Value.decode F (e₀.body.encode F) = some v ∧ e = { e₀ with body := v } := by
  cases line with
  | send e₀ =>
    rw [ClientLine.decode_encode_send, Envelope.decode_encode_map, Option.map_map] at h
    obtain ⟨v, hv, heq⟩ := Option.map_eq_some_iff.1 h
    exact ⟨e₀, rfl, v, hv, (ClientLine.send.inj heq).symm⟩
  | hello name token =>
    cases (ClientLine.decode_encode_plain (.hello name token) (by simp)).symm.trans h
  | await replyTo kind secs =>
    cases (ClientLine.decode_encode_plain (.await replyTo kind secs) (by simp)).symm.trans h

theorem await_of_decode_line {line : ClientLine} {replyTo kind : Option String} {secs : Option UInt64}
    (h : ClientLine.decode F (line.encode F) = some (.await replyTo kind secs)) :
    line = .await replyTo kind secs := by
  cases line with
  | send e₀ =>
    rw [ClientLine.decode_encode_send] at h
    obtain ⟨e, -, heq⟩ := Option.map_eq_some_iff.1 h
    cases heq
  | hello name token =>
    cases (ClientLine.decode_encode_plain (.hello name token) (by simp)).symm.trans h
  | await replyTo' kind' secs' =>
    exact Option.some.inj ((ClientLine.decode_encode_plain (.await replyTo' kind' secs') (by simp)).symm.trans h)

namespace Hub

variable {L : Libs} {roster : Roster} {audit : AuditLog} {s : Hub} {c : ConnId}

/-- A client can read what the hub has accepted. -/
theorem readable_of_accepted (hS : S.Derived F formatTs) (hF : F.Lawful)
    (h : Reach (L.withSerde S) roster audit s) {x : Stamped} (hx : x ∈ acceptedOf s.trace) :
    x.envelope.Readable F := by
  obtain ⟨c, role, ts, hx⟩ := mem_acceptedOf.1 hx
  obtain ⟨k, hk⟩ := exists_conn_of_mem h hx
  cases role with
  | send name =>
    obtain ⟨e, -, hverb, he⟩ := role_of_accepted h hx
    obtain ⟨first, second, rest, text, -, -, -, -, hread⟩ := secondLine_of_verb h hk hverb
    rw [he]
    exact Envelope.readable_of_sent hS hF hread name
  | bounce lost name =>
    obtain ⟨-, -, -, now, uuid, he⟩ := role_of_accepted h hx
    rw [he]
    exact Envelope.readable_bounce _ _ _ _ _ _ _

theorem mem_acceptedOf_of_written (h : Reach L roster audit s) {x : Stamped} (hx : .written c x ∈ s.trace) :
    x ∈ acceptedOf s.trace :=
  mem_acceptedOf_of_routed h ((custody_of_reach h).routed (.written c) x (mem_writtenTo.2 hx))

/-- What stands behind an observation is in the trace. -/
theorem exists_grounded (h : Reach L roster audit s) {o : Obs} (ho : o ∈ s.trace) :
    ∃ pre, pre ⊆ s.trace ∧ o.Grounded L pre := by
  obtain ⟨pre, hpre, hg⟩ := grounded_of_mem h ho
  exact ⟨pre, List.Subset.trans hpre (traceOf_subset s _), hg⟩

theorem awaits_of_timeout (h : Reach L roster audit s) (hans : .answered c .timeout ∈ s.trace) :
    ∃ name, Awaits c s.trace name := by
  obtain ⟨pre, hpre, hdereg⟩ := exists_grounded h hans
  obtain ⟨pre', hpre', name, id, hawaits, -⟩ := exists_grounded h (hpre hdereg)
  exact ⟨name, hawaits.mono hpre'⟩

/-- An invocation that gets the last line of its connection, to which its verb has come. -/
theorem settled_of_last (hS : S.Derived F formatTs) (hF : F.Lawful)
    (h : Reach (L.withSerde S) roster audit s) {verb : ClientLine}
    (hverb : ∀ name read, .verb c name read ∈ s.trace → ClientLine.decode F (verb.encode F) = some read)
    {line : ServerLine} (hlast : line.Last c s.trace) :
    Settled F S c s.trace verb (finish S verb (line.bytes F)) := by
  have hawait : (∃ name, Awaits c s.trace name) →
      ∃ replyTo kind secs, verb = .await replyTo kind secs := by
    rintro ⟨name, replyTo, kind, secs, hmem⟩
    exact ⟨replyTo, kind, secs, await_of_decode_line (hverb _ _ hmem)⟩
  rcases hlast with ⟨hans, hreply⟩ | ⟨x, hx, rfl⟩
  · cases line with
    | error message =>
      have hread : ∀ expected, readReply S expected ((ServerLine.error message).bytes F) =
          .ok (.error message) := fun expected => readReply_of_plain hS expected (by simp)
      have hfinish : finish S verb ((ServerLine.error message).bytes F) = .error (.hub message) := by
        unfold finish
        split
        · rw [finishSend, hread]
          rfl
        · rw [finishAwait, hread]
          rfl
      rw [hfinish]
      exact .refused hans
    | accepted id =>
      obtain ⟨pre, hpre, name, ts, x, outcome, ha, -⟩ := exists_grounded h hans
      obtain ⟨e, -, hmem, -⟩ := role_of_accepted h (hpre ha)
      obtain ⟨e₀, rfl, -⟩ := send_of_decode_line (hverb _ _ hmem)
      have hfinish : finish S (.send e₀) ((ServerLine.accepted id).bytes F) = .ok (.success (id ++ "\n")) := by
        rw [finish, finishSend, readReply_of_plain hS _ (by simp)]
        rfl
      rw [hfinish]
      exact .accepted rfl hans
    | timeout =>
      obtain ⟨replyTo, kind, secs, rfl⟩ := hawait (awaits_of_timeout h hans)
      have hfinish : finish S (.await replyTo kind secs) (ServerLine.timeout.bytes F) = .ok .timeout := by
        rw [finish, finishAwait, readReply_of_plain hS _ (by simp)]
        · rfl
        · simp
      rw [hfinish]
      exact .timedOut rfl hans
    | ok | envelope => cases hreply
  · obtain ⟨pre, hpre, name, hawaits⟩ := exists_grounded h hx
    obtain ⟨replyTo, kind, secs, rfl⟩ := hawait ⟨name, hawaits.mono hpre⟩
    have hreadable := readable_of_accepted hS hF h (mem_acceptedOf_of_written h hx)
    obtain ⟨v, hv, hread⟩ := readReply_envelope hS hF "envelope or timeout" hreadable
    have hjsonl := hS.envelope_encodes { x.envelope with body := v }
    have hfinish : finish S (.await replyTo kind secs) ((ServerLine.envelope x.envelope).bytes F) =
        .ok (.success (String.ofList (Envelope.encode F { x.envelope with body := v }).text ++ "\n")) := by
      rw [finish, finishAwait, hread]
      · simp only [Except.bind, answerAwait, toJsonl, hjsonl]
      · simp
    rw [hfinish]
    exact .delivered rfl hx hv (by rw [toJsonl, hjsonl])

end Hub

end AgentHub
