import AgentHub.Client
import AgentHub.Sample

/-!
# Partial delivery

The hub counts a delivery as partial, and tells the sender that the envelope is lost, when the
socket accepts some but not all bytes of its line. What the client makes of these bytes is
another matter : it reads up to end-of-file when no newline comes, and `from_jsonl` needs no
newline.

A part of the line that ends before the closing brace is no JSON text, or not even UTF-8, and
the client reports a failure. The line without its newline is read as the envelope, and the
client prints it and exits 0 (`partial_delivery_reported`).
-/

namespace AgentHub

variable {F : Floats}

/-! ## Doubles -/

/-- The bits of a double that is neither infinite nor a NaN. -/
def IsFinite (bits : UInt64) : Prop :=
  bits.toNat / 2 ^ 52 % 2 ^ 11 ≠ 2 ^ 11 - 1

instance (bits : UInt64) : Decidable (IsFinite bits) :=
  inferInstanceAs (Decidable (_ ≠ _))

/-- What a `serde_json::Number` can hold. -/
def Number.Valid : Number → Prop
  | .posInt _ => True
  | .negInt n => n < 0
  | .float bits => IsFinite bits

/-- Numbers parse to finite doubles, and what is printed for one parses again. -/
structure Floats.Lawful (F : Floats) : Prop where
  finite : ∀ l bits, F.parse l = some bits → IsFinite bits
  parses : ∀ bits, IsFinite bits → (F.parse (F.print bits)).isSome = true

theorem Number.exists_decode_encode (hF : F.Lawful) {n : Number} (h : n.Valid) :
    ∃ n', Number.decode F (n.encode F) = some n' := by
  cases n with
  | posInt n => exact ⟨_, Number.decode_encode (n := .posInt n) trivial⟩
  | negInt n => exact ⟨_, Number.decode_encode (n := .negInt n) h⟩
  | float bits =>
    obtain ⟨bits', hbits'⟩ := Option.isSome_iff_exists.1 (hF.parses bits h)
    rw [encode, decode]
    split
    · split_ifs
      · exact ⟨_, rfl⟩
      · exact ⟨.float bits', by rw [hbits', Option.map_some]⟩
      · exact ⟨_, rfl⟩
      · exact ⟨.float bits', by rw [hbits', Option.map_some]⟩
    · exact ⟨.float bits', by rw [hbits', Option.map_some]⟩

theorem exists_forall₂ {β γ : Type} {R : β → γ → Prop} {l : List β} (h : ∀ a ∈ l, ∃ b, R a b) :
    ∃ l', List.Forall₂ R l l' := by
  induction l with
  | nil => exact ⟨[], .nil⟩
  | cons a l ih =>
    obtain ⟨⟨b, hb⟩, hl⟩ := List.forall_mem_cons.1 h
    obtain ⟨l', hl'⟩ := ih hl
    exact ⟨b :: l', .cons hb hl'⟩

/-- A value of the Rust type can be decoded from its document. -/
theorem Value.exists_decode_encode (hF : F.Lawful) {v : Value} (h : v.Made Number.Valid) :
    ∃ v', Value.decode F (v.encode F) = some v' := by
  induction h with
  | null | bool | string => exact ⟨_, rfl⟩
  | number h =>
    obtain ⟨n', hn'⟩ := Number.exists_decode_encode hF h
    exact ⟨.number n', by rw [encode, decode, hn', Option.map_some]⟩
  | array h ih =>
    obtain ⟨vs, hvs⟩ := exists_forall₂ ih
    refine ⟨.array vs, ?_⟩
    rw [encode, decode, encodeItems_eq, decodeItems_eq_some.2 (List.forall₂_map_left_iff.2 hvs),
      Option.map_some]
  | @object ms hsorted h ih =>
    have hms : ∀ m ∈ ms, ∃ m' : String × Value, m.1 = m'.1 ∧
        Value.decode F (m.2.encode F) = some m'.2 := fun m hm => by
      obtain ⟨v, hv⟩ := ih m hm
      exact ⟨(m.1, v), rfl, hv⟩
    obtain ⟨ms', hms'⟩ := exists_forall₂ hms
    refine ⟨.ofMembers ms', ?_⟩
    rw [encode, decode, encodeMembers_eq, decodeMembers_eq_some.2 (List.forall₂_map_left_iff.2 hms'),
      Option.map_some]

/-! ## Cuts of a line -/

variable {S : SerdeJson} {formatTs : DateTime → String} {e : Envelope}

/-- A part of the hub's line that lacks more than the newline is no line. -/
theorem readReply_cut (hS : S.Derived F formatTs) (expected : String) (line : ServerLine)
    {cs : List UInt8} {rest : List UInt8} (hrest : rest ≠ [])
    (hsplit : utf8Bytes (line.encode F).text = cs ++ rest) :
    ∃ err, readReply S expected cs = .error err := by
  unfold readReply
  split
  · exact ⟨_, rfl⟩
  rename_i text htext
  split_ifs with hempty
  · exact ⟨_, rfl⟩
  have hbytes := asBytes_of_fromUtf8 htext
  rw [asBytes_eq] at hbytes
  obtain ⟨ds, hds⟩ := isPrefix_of_utf8Bytes (hbytes ▸ hsplit.symm)
  have hds_ne : ds ≠ [] := by
    rintro rfl
    rw [List.append_nil] at hds
    rw [← hds, hbytes, List.self_eq_append_right] at hsplit
    exact hrest hsplit
  obtain ⟨ms, hms⟩ : ∃ ms, line.encode F = .object ms := by
    cases line <;> exact ⟨_, rfl⟩
  rw [hms] at hds
  have hnone : Json.read recursionLimit text.toList = none := Json.read_cut hds.symm hds_ne
  unfold fromJsonl
  cases hparse : S.serverLineFromStr text with
  | error source => exact ⟨_, rfl⟩
  | ok reply =>
    obtain ⟨j, hread, -⟩ := (hS.serverLine_decodes text reply).1 hparse
    rw [hnone] at hread
    cases hread

theorem readReply_text {expected text : String} (hne : asBytes text ≠ []) :
    readReply S expected (asBytes text) = (fromJsonl S.serverLineFromStr text).mapError .wire := by
  simp only [readReply, fromUtf8_asBytes, if_neg hne]
  cases fromJsonl S.serverLineFromStr text <;> rfl

theorem asBytes_line_ne_nil (line : ServerLine) :
    asBytes (String.ofList (line.encode F).text) ≠ [] := by
  obtain ⟨c, cs, htext, -, -⟩ := Reader.text_cons (line.encode F)
  rw [asBytes_eq, String.toList_ofList, htext]
  simp [utf8Bytes]

/-- The line without its newline is read as the envelope, if it can be decoded. -/
theorem readReply_without_newline (hS : S.Derived F formatTs) (hF : F.Lawful) (expected : String)
    (he : e.body.Made Number.Valid) (hdepth : ((ServerLine.envelope e).encode F).depth < recursionLimit) :
    ∃ e', readReply S expected (asBytes (String.ofList ((ServerLine.envelope e).encode F).text)) =
      .ok (.envelope e') := by
  obtain ⟨v, hv⟩ := Value.exists_decode_encode hF he
  have hdecode : ServerLine.decode F ((ServerLine.envelope e).encode F) =
      some (.envelope { e with body := v }) := by
    rw [ServerLine.decode_encode_envelope, Envelope.decode_encode_body hv, Option.map_some]
  have hread : Json.read recursionLimit
      (String.ofList ((ServerLine.envelope e).encode F).text).toList =
        some ((ServerLine.envelope e).encode F) := by
    rw [String.toList_ofList, Json.read_text hdepth]
  have hparse := fromJsonl_of_read hS.serverLine_decodes hread hdecode
  exact ⟨_, by rw [readReply_text (asBytes_line_ne_nil _), hparse]; rfl⟩

/-- A line that nests too deep is not read. -/
theorem readReply_too_deep (hS : S.Derived F formatTs) (expected : String) {line : ServerLine}
    (hdepth : recursionLimit ≤ (line.encode F).depth) :
    ∃ err, readReply S expected (asBytes (String.ofList (line.encode F).text)) = .error err := by
  rw [readReply_text (asBytes_line_ne_nil _), fromJsonl]
  cases hparse : S.serverLineFromStr (String.ofList (line.encode F).text) with
  | error source => exact ⟨_, rfl⟩
  | ok reply =>
    obtain ⟨j, hread, -⟩ := (hS.serverLine_decodes _ reply).1 hparse
    rw [String.toList_ofList, Json.read_text_of_le (by decide) hdepth] at hread
    cases hread

/-- What the client makes of an envelope line of which it gets `n` bytes, some but not all, for
which the hub gives the envelope up : it reports a failure exactly when it lacks more than the
newline, or could not have decoded the line at all. -/
theorem partial_delivery_reported (hS : S.Derived F formatTs) (hF : F.Lawful)
    (he : e.body.Made Number.Valid) {jsonl : String}
    (hjsonl : toJsonl S.serverLineToString (.envelope e) = .ok jsonl) {n : ℕ} (hpos : 0 < n)
    (hn : n < (asBytes jsonl).length) :
    classifyWrite (asBytes jsonl).length n = .failedPartial n ∧
      ((∃ err, finishAwait S ((asBytes jsonl).take n) = .error err) ↔
        n + 1 < (asBytes jsonl).length ∨
          recursionLimit ≤ ((ServerLine.envelope e).encode F).depth) := by
  refine ⟨by rw [classifyWrite, if_neg (by omega), if_neg (by omega)], ?_⟩
  rw [toJsonl, hS.serverLine_encodes] at hjsonl
  obtain rfl := Except.ok.inj hjsonl
  set line := String.ofList ((ServerLine.envelope e).encode F).text with hline
  have hbytes : asBytes (line ++ "\n") = asBytes line ++ [newline] := asBytes_append _ _
  rw [hbytes] at hn ⊢
  rw [List.length_append, List.length_singleton] at hn ⊢
  rw [List.take_append_of_le_length (by omega)]
  by_cases hcut : n < (asBytes line).length
  · refine iff_of_true ?_ (Or.inl (by omega))
    have hrest : (asBytes line).drop n ≠ [] := by
      rw [ne_eq, List.drop_eq_nil_iff]
      omega
    have hsplit : utf8Bytes ((ServerLine.envelope e).encode F).text =
        (asBytes line).take n ++ (asBytes line).drop n := by
      rw [List.take_append_drop, asBytes_eq, hline, String.toList_ofList]
    obtain ⟨err, herr⟩ := readReply_cut hS "envelope or timeout" (.envelope e) hrest hsplit
    exact ⟨err, by rw [finishAwait, herr]; rfl⟩
  · obtain rfl : n = (asBytes line).length := by omega
    rw [List.take_length]
    constructor
    · rintro ⟨err, herr⟩
      by_contra hcond
      obtain ⟨e', he'⟩ := readReply_without_newline hS hF "envelope or timeout" he (by omega)
      rw [finishAwait, he'] at herr
      have hprint := hS.envelope_encodes e'
      simp [Except.bind, answerAwait, toJsonl, hprint] at herr
    · rintro (hlt | hdepth)
      · omega
      · obtain ⟨err, herr⟩ := readReply_too_deep hS "envelope or timeout" hdepth
        exact ⟨err, by rw [finishAwait, herr]; rfl⟩

theorem lawful_noFloats : noFloats.Lawful where
  finite l bits h := by
    rw [← Option.some.inj h]
    decide
  parses bits _ := rfl

/-- `serde_json` for the sample. -/
def sampleSerde : SerdeJson :=
  .ofDerives noFloats fun _ => epoch

/-- The line on which the sample envelope is delivered. -/
def sampleLine : String :=
  String.ofList ((ServerLine.envelope (sampleEnvelope "m1" "task")).encode noFloats).text ++ "\n"

/-- After one byte the client reports a failure. -/
theorem partial_delivery_reported_first :
    ∃ err, finishAwait sampleSerde ((asBytes sampleLine).take 1) = .error err :=
  (partial_delivery_reported (SerdeJson.derived_ofDerives noFloats fun _ => epoch) lawful_noFloats
    (e := sampleEnvelope "m1" "task") .null rfl Nat.one_pos (by decide +kernel)).2.2
    (Or.inl (by decide +kernel))

/-- Without the last byte the hub has lost the envelope, and the client prints it. -/
theorem exists_lost_and_printed : ∃ (e : Envelope) (jsonl : String) (n : ℕ),
    toJsonl sampleSerde.serverLineToString (.envelope e) = .ok jsonl ∧ 0 < n ∧
      n < (asBytes jsonl).length ∧ classifyWrite (asBytes jsonl).length n = .failedPartial n ∧
      exitCode (finishAwait sampleSerde ((asBytes jsonl).take n)) = 0 :=
  ⟨sampleEnvelope "m1" "task", sampleLine, (asBytes sampleLine).length - 1, rfl, by decide +kernel,
    by decide +kernel, by decide +kernel, by decide +kernel⟩

end AgentHub
