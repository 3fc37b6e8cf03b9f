import AgentHub.Identity
import AgentHub.Lib.JsonLike
import AgentHub.PartialDelivery

/-!
# What becomes of a body

The body of a message is parsed and written again by the client that sends it, by the hub, and
by the client that is given it. Each time its document is alike to the one before
(`like_of_decode`), with every number recoded, if no object repeats a key. A repeated key keeps
its last value only.

So the body in the hub's record and the body that is printed say what the text on the command
line says exactly if that text repeats no key and each of its numbers is recoded to the same
value (`body_preserved`), as an integer of 64 bits is.
-/

namespace AgentHub

variable {F : Floats}

/-! ## Numbers -/

/-- What becomes of a number that is parsed and written `k` times. -/
def recoded (F : Floats) : ℕ → Literal → Option Literal
  | 0, l => some l
  | k + 1, l => (Number.decode F l).bind fun n => recoded F k (n.encode F)

theorem recoded_trans {k k' : ℕ} {l l' l'' : Literal} (h : recoded F k l = some l')
    (h' : recoded F k' l' = some l'') : recoded F (k + k') l = some l'' := by
  induction k generalizing l with
  | zero =>
    obtain rfl := Option.some.inj h
    rwa [Nat.zero_add]
  | succ k ih =>
    obtain ⟨n, hn, h⟩ := Option.bind_eq_some_iff.1 h
    rw [Nat.succ_add, recoded, hn, Option.bind_some, ih h]

/-- The number keeps its value when it is parsed and written `k` times. -/
def KeptBy (F : Floats) (k : ℕ) (l : Literal) : Prop :=
  ∃ l', recoded F k l = some l' ∧ l'.value = l.value

/-- The number is written as an integer of 64 bits, and not as `-0`. -/
def IsInt64 (l : Literal) : Prop :=
  ∃ z, l.int? = some z ∧ -2 ^ 63 ≤ z ∧ z < 2 ^ 64 ∧ (l.neg = true → z ≠ 0)

theorem sign_of_int? {l : Literal} {z : ℤ} (hz : l.int? = some z) :
    if l.neg then z ≤ 0 else 0 ≤ z := by
  unfold Numeral.int? at hz
  split_ifs at hz with hint hneg
  · rw [if_pos hneg, ← Option.some.inj hz]
    omega
  · rw [if_neg hneg, ← Option.some.inj hz]
    omega

/-- An integer of 64 bits is written as itself. -/
theorem decode_of_isInt64 {l : Literal} {z : ℤ} (hz : l.int? = some z) (hge : -2 ^ 63 ≤ z)
    (hlt : z < 2 ^ 64) (hzero : l.neg = true → z ≠ 0) :
    ∃ n, Number.decode F l = some n ∧ n.encode F = .ofInt z := by
  have hsign := sign_of_int? hz
  unfold Number.decode
  rw [hz]
  dsimp only
  by_cases hneg : l.neg = true
  · rw [if_pos hneg] at hsign ⊢
    have := hzero hneg
    rw [if_pos ⟨by omega, hge⟩]
    refine ⟨_, rfl, ?_⟩
    rw [Number.encode, Int64.toInt_ofInt_of_le hge (by omega)]
  · rw [if_neg hneg] at hsign ⊢
    rw [if_pos hlt]
    refine ⟨_, rfl, ?_⟩
    rw [Number.encode, UInt64.toNat_ofNat_of_lt' (by simp [UInt64.size]; omega),
      Int.toNat_of_nonneg hsign]

theorem isInt64_ofInt {z : ℤ} (hge : -2 ^ 63 ≤ z) (hlt : z < 2 ^ 64) : IsInt64 (.ofInt z) := by
  refine ⟨z, Literal.int?_ofInt z, hge, hlt, fun hneg => ?_⟩
  have : z < 0 := of_decide_eq_true hneg
  omega

/-- An integer of 64 bits keeps its value. -/
theorem keptBy_of_isInt64 {l : Literal} (h : IsInt64 l) (k : ℕ) : KeptBy F k l := by
  induction k generalizing l with
  | zero => exact ⟨l, rfl, rfl⟩
  | succ k ih =>
    obtain ⟨z, hz, hge, hlt, hzero⟩ := h
    obtain ⟨n, hn, hencode⟩ := decode_of_isInt64 (F := F) hz hge hlt hzero
    obtain ⟨l', hl', hvalue⟩ := ih (isInt64_ofInt hge hlt)
    refine ⟨l', by rw [recoded, hn, Option.bind_some, hencode, hl'], ?_⟩
    rw [hvalue, Numeral.value_of_int? (Literal.int?_ofInt z), Numeral.value_of_int? hz]

/-! ## Documents of decoded values -/

theorem insertMember_perm {key : String} {v : Value} {ms : List (String × Value)}
    (h : key ∉ ms.map Prod.fst) : (insertMember key v ms).Perm ((key, v) :: ms) := by
  induction ms with
  | nil => exact .refl _
  | cons m ms ih =>
    rw [List.map_cons, List.mem_cons, not_or] at h
    rw [insertMember]
    split_ifs with hlt heq
    · exact .refl _
    · exact absurd heq h.1
    · exact ((ih h.2).cons m).trans (.swap _ _ _)

/-- Members of different keys all get into the object. -/
theorem ofMembers_perm {ms : List (String × Value)} (h : (ms.map Prod.fst).Nodup) :
    ∃ ms', Value.ofMembers ms = .object ms' ∧ ms.Perm ms' := by
  have hfold : ∀ (ms acc : List (String × Value)), ((ms ++ acc).map Prod.fst).Nodup →
      (ms ++ acc).Perm (ms.foldl (fun acc m => insertMember m.1 m.2 acc) acc) := by
    intro ms
    induction ms with
    | nil => exact fun acc _ => .refl _
    | cons m ms ih =>
      intro acc hnodup
      have hperm : (m :: (ms ++ acc)).Perm (ms ++ m :: acc) := List.perm_middle.symm
      have hnodup' := (hperm.map Prod.fst).nodup_iff.1 hnodup
      have hfresh : m.1 ∉ (ms ++ acc).map Prod.fst := (List.nodup_cons.1 hnodup).1
      have hinsert : (insertMember m.1 m.2 acc).Perm (m :: acc) := by
        refine insertMember_perm fun hm => hfresh ?_
        rw [List.map_append]
        exact List.mem_append_right _ hm
      have hfront := hinsert.symm.append_left ms
      rw [List.foldl_cons]
      exact hperm.trans (hfront.trans (ih _ ((hfront.map Prod.fst).nodup_iff.1 hnodup')))
  refine ⟨_, rfl, ?_⟩
  simpa using hfold ms [] (by simpa using h)

/-- What a value is written as repeats no key, if the value was decoded. -/
theorem noRepeats_encode {j : Json} {v : Value} (h : Value.decode F j = some v) :
    (v.encode F).NoRepeats := by
  induction j using Json.induct generalizing v with
  | null | bool | string => rw [← Option.some.inj h]; simp [Value.encode, Json.NoRepeats]
  | number l =>
    obtain ⟨n, -, rfl⟩ := Option.map_eq_some_iff.1 h
    simp [Value.encode, Json.NoRepeats]
  | array items ih =>
    obtain ⟨vs, hvs, rfl⟩ := Option.map_eq_some_iff.1 h
    rw [Value.encode, encodeItems_eq, Json.noRepeats_array]
    intro k hk
    obtain ⟨v, hv, rfl⟩ := List.mem_map.1 hk
    obtain ⟨j, hj, hdecode⟩ := forall₂_mem_right (decodeItems_eq_some.1 hvs) hv
    exact ih j hj hdecode
  | object ms ih =>
    obtain ⟨vs, hvs, rfl⟩ := Option.map_eq_some_iff.1 h
    obtain ⟨ms', hms', hsorted, hmem⟩ := ofMembers_spec vs
    rw [hms', Value.encode, encodeMembers_eq, Json.noRepeats_object]
    constructor
    · rw [List.map_map]
      exact (List.pairwise_map.2 (hsorted.imp fun hlt => ne_of_lt hlt))
    · intro k hk
      obtain ⟨m', hm', rfl⟩ := List.mem_map.1 hk
      obtain ⟨m, hm, -, hdecode⟩ := forall₂_mem_right (decodeMembers_eq_some.1 hvs) (hmem m' hm')
      exact ih m hm hdecode

/-- A document is written again alike, with its numbers recoded, if it repeats no key. -/
theorem like_of_decode {j : Json} {v : Value} (h : Value.decode F j = some v) (hj : j.NoRepeats) :
    Json.Like (fun l l' => recoded F 1 l = some l') j (v.encode F) := by
  induction j using Json.induct generalizing v with
  | null | bool | string => rw [← Option.some.inj h, Value.encode]; constructor
  | number l =>
    obtain ⟨n, hn, rfl⟩ := Option.map_eq_some_iff.1 h
    rw [Value.encode]
    exact .number (by rw [recoded, hn]; rfl)
  | array items ih =>
    obtain ⟨vs, hvs, rfl⟩ := Option.map_eq_some_iff.1 h
    rw [Value.encode, encodeItems_eq]
    refine .array (List.forall₂_map_right_iff.2 ?_)
    exact Json.forall₂_of_forall (decodeItems_eq_some.1 hvs) fun j hmem v hv =>
      ih j hmem hv (Json.noRepeats_array.1 hj j hmem)
  | object ms ih =>
    obtain ⟨vs, hvs, rfl⟩ := Option.map_eq_some_iff.1 h
    obtain ⟨hnodup, hms⟩ := Json.noRepeats_object.1 hj
    have hmembers := decodeMembers_eq_some.1 hvs
    have hkeys : ms.map Prod.fst = vs.map Prod.fst := by
      rw [← List.forall₂_eq_eq_eq, List.forall₂_map_left_iff, List.forall₂_map_right_iff]
      exact hmembers.imp fun _ _ hm => hm.1
    obtain ⟨ms', hms', hperm⟩ := ofMembers_perm (hkeys ▸ hnodup)
    rw [hms', Value.encode, encodeMembers_eq]
    refine Json.like_object.2 ⟨vs.map fun m => (m.1, m.2.encode F), _, rfl, ?_, hperm.map _⟩
    refine List.forall₂_map_right_iff.2 (Json.forall₂_of_forall hmembers fun m hm m' hm' => ?_)
    exact ⟨hm'.1, ih m hm hm'.2 (hms m hm)⟩

/-! ## The way of a body -/

/-- The numbers of a document are recoded once for each time it is decoded. -/
theorem like_decode {j : Json} {k : ℕ} {v v' : Value}
    (h : Json.Like (fun l l' => recoded F k l = some l') j (v.encode F))
    (hv : (v.encode F).NoRepeats) (hdecode : Value.decode F (v.encode F) = some v') :
    Json.Like (fun l l' => recoded F (k + 1) l = some l') j (v'.encode F) := by
  refine (h.comp (like_of_decode hdecode hv)).mono fun l _ l'' => ?_
  rintro ⟨l', hl', hl''⟩
  exact recoded_trans hl' hl''

/-- A text holds at the path a document that says the same as `j` : numbers that have to be
`exact` stand for the same. -/
def SaysAt (text : String) (path : List String) (exact : Literal → Prop) (j : Json) : Prop :=
  ∃ limit doc d, Json.read limit text.toList = some doc ∧ doc.at? path = some d ∧
    j.Like (fun l l' => exact l → l'.value = l.value) d

/-- A document that was recoded says the same exactly if it repeats no key, and the numbers in
question keep their values. -/
theorem says_iff {j : Json} {k : ℕ} {v : Value} {exact : Literal → Prop}
    (hlike : j.NoRepeats → Json.Like (fun l l' => recoded F k l = some l') j (v.encode F))
    (hv : (v.encode F).NoRepeats) :
    j.Like (fun l l' => exact l → l'.value = l.value) (v.encode F) ↔
      j.NoRepeats ∧ ∀ l ∈ j.literals, exact l → KeptBy F k l := by
  constructor
  · intro h
    have hj := h.noRepeats hv
    refine ⟨hj, fun l hl hexact => ?_⟩
    obtain ⟨l', hrecoded, hvalue⟩ := ((hlike hj).and h hj).exists_literal hl
    exact ⟨l', hrecoded, hvalue hexact⟩
  · rintro ⟨hj, hkept⟩
    refine (hlike hj).mono fun l hl l' hl' hexact => ?_
    obtain ⟨l'', hl'', hvalue⟩ := hkept l hl hexact
    obtain rfl := Option.some.inj (hl'.symm.trans hl'')
    exact hvalue

section

variable {S : SerdeJson} {formatTs : DateTime → String}

/-- What is read from a line is what its document is decoded to. -/
theorem decode_of_fromJsonl {α : Type} {fromStr : String → Except String α} {decode : Json → Option α}
    (hdec : DecodesAs fromStr decode) {line : String} {j : Json} {ws : List Char} {v : α}
    (hline : line.toList = j.text ++ ws) (hws : ∀ c ∈ ws, isSpace c = true)
    (h : fromJsonl fromStr line = .ok v) : decode j = some v := by
  have hok : fromStr line = .ok v := by
    unfold fromJsonl at h
    split at h
    · rename_i v' hv'
      rw [hv', Except.ok.inj h]
    · cases h
  obtain ⟨k, hread, hdecode⟩ := (hdec line v).1 hok
  rw [hline] at hread
  rwa [← Json.eq_of_read_text hread hws]

/-- The hub reads the envelope that is sent but for its body, which is decoded again. -/
theorem exists_sent (hS : S.Derived F formatTs) {e sent : Envelope} {line : String}
    (hline : toJsonl S.clientLineToString (.send e) = .ok (line ++ "\n"))
    (hsent : fromJsonl S.clientLineFromStr line = .ok (.send sent)) :
    ∃ v, Value.decode F (e.body.encode F) = some v ∧ sent = { e with body := v } := by
  rw [toJsonl, hS.clientLine_encodes] at hline
  have htext : line.toList = ((ClientLine.send e).encode F).text ++ [] := by
    have := congrArg String.toList (Except.ok.inj hline)
    rw [String.toList_append, String.toList_append, String.toList_ofList] at this
    rw [List.append_nil, List.append_cancel_right this]
  have hdecode := decode_of_fromJsonl hS.clientLine_decodes htext (by simp) hsent
  rw [ClientLine.decode_encode_send, Envelope.decode_encode_map, Option.map_map] at hdecode
  obtain ⟨v, hv, heq⟩ := Option.map_eq_some_iff.1 hdecode
  exact ⟨v, hv, (ClientLine.send.inj heq).symm⟩

theorem toJsonl_of_answerAwait {e : Envelope} {printed : String}
    (h : answerAwait S (.envelope e) = .ok (.success printed)) :
    toJsonl S.envelopeToString e = .ok printed := by
  rw [answerAwait] at h
  split at h
  · rename_i jsonl hjsonl
    rw [hjsonl, Exit.success.inj (Except.ok.inj h)]
  · cases h

/-- The client prints the envelope that is delivered but for its body, which is decoded once
more. -/
theorem exists_printed (hS : S.Derived F formatTs) {e : Envelope} {delivered printed : String}
    (hdelivered : toJsonl S.serverLineToString (.envelope e) = .ok delivered)
    (hprinted : finishAwait S (asBytes delivered) = .ok (.success printed)) :
    ∃ v, Value.decode F (e.body.encode F) = some v ∧
      toJsonl S.envelopeToString { e with body := v } = .ok printed := by
  rw [toJsonl, hS.serverLine_encodes] at hdelivered
  obtain rfl := Except.ok.inj hdelivered
  have hne : asBytes (String.ofList ((ServerLine.envelope e).encode F).text ++ "\n") ≠ [] := by
    rw [asBytes_append]
    exact List.append_ne_nil_of_left_ne_nil (asBytes_line_ne_nil _) _
  rw [finishAwait, readReply_text hne] at hprinted
  cases hreply : fromJsonl S.serverLineFromStr
      (String.ofList ((ServerLine.envelope e).encode F).text ++ "\n") with
  | error source =>
    rw [hreply] at hprinted
    cases hprinted
  | ok reply =>
    have hdecode := decode_of_fromJsonl hS.serverLine_decodes
      (by rw [String.toList_append, String.toList_ofList]; rfl) isSpace_newline hreply
    rw [ServerLine.decode_encode_envelope, Envelope.decode_encode_map, Option.map_map] at hdecode
    obtain ⟨v, hv, rfl⟩ := Option.map_eq_some_iff.1 hdecode
    rw [hreply] at hprinted
    refine ⟨v, hv, ?_⟩
    exact toJsonl_of_answerAwait hprinted

theorem valueFromStr_of_readBody {text : String} {body : Value} (h : readBody S text = .ok body) :
    S.valueFromStr text = .ok body := by
  unfold readBody at h
  split at h
  · rename_i body' hbody'
    rw [hbody', Except.ok.inj h]
  · cases h

/-- A text that is written for a document says at a path what the document says there. -/
theorem saysAt_iff (doc : Json) (ws : List Char) {d j : Json} {text : String} {path : List String}
    {exact : Literal → Prop} (htext : text.toList = doc.text ++ ws)
    (hws : ∀ c ∈ ws, isSpace c = true) (hd : doc.at? path = some d) :
    SaysAt text path exact j ↔ j.Like (fun l l' => exact l → l'.value = l.value) d := by
  constructor
  · rintro ⟨limit, doc', d', hread, hd', hlike⟩
    rw [htext] at hread
    obtain rfl := Json.eq_of_read_text hread hws
    obtain rfl := Option.some.inj (hd.symm.trans hd')
    exact hlike
  · intro hlike
    refine ⟨doc.depth + 1, doc, d, ?_, hd, hlike⟩
    rw [htext]
    exact Json.read_append_space (Json.read_text (Nat.lt_succ_self _)) hws

end

namespace Hub

variable {L : Libs} {S : SerdeJson} {formatTs : DateTime → String} {roster : Roster}
  {audit : AuditLog}

/-- A client reads the body `text` and sends an envelope with it, the hub accepts what it reads
from the line, and writes `record` for it. Where the envelope is delivered a client prints
`printed`. -/
def Conveys (L : Libs) (S : SerdeJson) (roster : Roster) (audit : AuditLog)
    (text record printed : String) : Prop :=
  ∃ (e sent : Envelope) (line : String) (s : Hub) (c : ConnId) (name : String) (ts : DateTime)
    (x : Stamped) (delivered : String),
    readBody S text = .ok e.body ∧
    toJsonl S.clientLineToString (.send e) = .ok (line ++ "\n") ∧
    fromJsonl S.clientLineFromStr line = .ok (.send sent) ∧
    Reach (L.withSerde S) roster audit s ∧ .verb c name (.send sent) ∈ s.trace ∧
    .accepted c (.send name) ts x ∈ s.trace ∧
    S.auditEventToString (.accepted ts x.envelope) = .ok record ∧
    toJsonl S.serverLineToString (.envelope x.envelope) = .ok delivered ∧
    finishAwait S (asBytes delivered) = .ok (.success printed)

/-- The body of the hub's record, and that of the line that is printed, say what the text on the
command line says exactly if that text repeats no key, and every number that has to be `exact`
is an integer of 64 bits or keeps its value otherwise. -/
theorem body_preserved (hS : S.Derived F formatTs) (exact : Literal → Prop)
    {text record printed : String} {j : Json} (hread : Json.read recursionLimit text.toList = some j)
    (h : Conveys L S roster audit text record printed) :
    SaysAt record ["accepted", "envelope", "body"] exact j ∧ SaysAt printed ["body"] exact j ↔
      j.NoRepeats ∧ ∀ l ∈ j.literals, exact l → IsInt64 l ∨ KeptBy F 2 l ∧ KeptBy F 3 l := by
  obtain ⟨e, sent, line, s, c, name, ts, x, delivered, hbody, hline, hsent, hreach, hverb, hx, hrecord,
    hdelivered, hprinted⟩ := h
  obtain ⟨e₀, -, hverb', hstamped⟩ := role_of_accepted hreach hx
  obtain rfl := ClientLine.send.inj (verb_unique hreach hverb hverb').2
  obtain ⟨v₂, hv₂, rfl⟩ := exists_sent hS hline hsent
  obtain ⟨v₃, hv₃, hprinted⟩ := exists_printed hS hdelivered hprinted
  have hxbody : x.envelope.body = v₂ := by rw [hstamped]
  rw [hxbody] at hv₃
  -- the documents on the way
  obtain ⟨j', hread', hv₁⟩ := (hS.value_decodes text e.body).1 (valueFromStr_of_readBody hbody)
  obtain rfl := Option.some.inj (hread.symm.trans hread')
  have hlike₁ : j.NoRepeats → Json.Like (fun l l' => recoded F 1 l = some l') j (e.body.encode F) :=
    like_of_decode hv₁
  have hlike₂ := fun hj => like_decode (hlike₁ hj) (noRepeats_encode hv₁) hv₂
  have hlike₃ := fun hj => like_decode (hlike₂ hj) (noRepeats_encode hv₂) hv₃
  -- what the texts say
  have hrecorded : SaysAt record ["accepted", "envelope", "body"] exact j ↔
      j.NoRepeats ∧ ∀ l ∈ j.literals, exact l → KeptBy F 2 l := by
    rw [← says_iff hlike₂ (noRepeats_encode hv₂), ← hxbody]
    refine saysAt_iff (AuditEvent.encode F formatTs (.accepted ts x.envelope)) [] ?_
      (by simp) rfl
    rw [Except.ok.inj (hrecord.symm.trans (hS.auditEvent_encodes _)), String.toList_ofList,
      List.append_nil]
  have hshown : SaysAt printed ["body"] exact j ↔
      j.NoRepeats ∧ ∀ l ∈ j.literals, exact l → KeptBy F 3 l := by
    rw [← says_iff hlike₃ (noRepeats_encode hv₃)]
    refine saysAt_iff (Envelope.encode F { x.envelope with body := v₃ }) ['\n'] ?_
      isSpace_newline rfl
    rw [toJsonl, hS.envelope_encodes] at hprinted
    rw [← Except.ok.inj hprinted, String.toList_append, String.toList_ofList]
    rfl
  rw [hrecorded, hshown, ← and_and_left]
  refine and_congr_right fun _ => ?_
  constructor
  · rintro ⟨h₂, h₃⟩ l hl hexact
    exact Or.inr ⟨h₂ l hl hexact, h₃ l hl hexact⟩
  · intro h'
    refine ⟨fun l hl hexact => ?_, fun l hl hexact => ?_⟩
    · exact (h' l hl hexact).elim (fun hint => keptBy_of_isInt64 hint 2) And.left
    · exact (h' l hl hexact).elim (fun hint => keptBy_of_isInt64 hint 3) And.right

/-! ## A body on its way -/

/-- The bytes of a line that a client writes, for what the hub reads from it. -/
def bytesOfWritten (hS : S.Derived F formatTs) (L : Libs) {line line' : ClientLine}
    (hdecode : ClientLine.decode F (line.encode F) = some line')
    (hdepth : (line.encode F).depth < recursionLimit)
    (hlen : (asBytes (String.ofList (line.encode F).text)).length ≤ maxLineBytes) :
    line'.Bytes (L.withSerde S) where
  bytes := asBytes (String.ofList (line.encode F).text)
  text := String.ofList (line.encode F).text
  newline_notMem := by
    rw [newline_mem_asBytes, String.toList_ofList]
    exact Json.newline_notMem_text _
  length_le := hlen
  utf8 := fromUtf8_asBytes _
  decodes := (hS.clientLine_decodes _ _).2
    ⟨_, by rw [String.toList_ofList, Json.read_text hdepth], hdecode⟩

theorem serializes_withSerde (hS : S.Derived F formatTs) (L : Libs) : (L.withSerde S).Serializes :=
  ⟨fun _ => ⟨_, hS.serverLine_encodes _⟩, fun _ => ⟨_, hS.auditEvent_encodes _⟩⟩

/-- The sample envelope with a body. -/
def carrying (v : Value) : Envelope :=
  { sampleEnvelope "m1" "task" with body := v }

/-- A body without doubles gets through the sample hub. -/
theorem conveys_sample (hS : S.Derived F formatTs) {text : String} {j : Json} {v : Value}
    (hread : Json.read recursionLimit text.toList = some j) (hv : Value.decode F j = some v)
    (hmade : v.Made Number.IsInteger) (hdepth : (v.encode F).depth < 100)
    (hlen : (asBytes (String.ofList ((ClientLine.send (carrying v)).encode F).text)).length ≤ maxLineBytes) :
    Conveys sampleLibs S sampleRoster sampleAudit text
      (String.ofList (AuditEvent.encode F formatTs (.accepted 0 (carrying v))).text)
      (String.ofList ((carrying v).encode F).text ++ "\n") := by
  have hsend : ClientLine.decode F ((ClientLine.send (carrying v)).encode F) = some (.send (carrying v)) :=
    ClientLine.decode_encode hmade
  have henvelope : ((carrying v).encode F).depth < 101 := (depth_envelope_lt (by omega)).2 hdepth
  have hdepth' : ((ClientLine.send (carrying v)).encode F).depth < recursionLimit := by
    rw [ClientLine.encode, Json.depth_ofVariant, recursionLimit]
    omega
  have hdepth'' : ((ServerLine.envelope (carrying v)).encode F).depth < recursionLimit := by
    rw [ServerLine.encode, Json.depth_ofVariant, recursionLimit]
    omega
  -- the hub accepts the line
  have hello : (ClientLine.hello "bob" "b-token").Bytes (sampleLibs.withSerde S) :=
    bytesOfWritten hS sampleLibs (ClientLine.decode_encode trivial)
      (by decide : ((ClientLine.hello "bob" "b-token").encode noFloats).depth < recursionLimit)
      (by decide : (asBytes (String.ofList
        ((ClientLine.hello "bob" "b-token").encode noFloats).text)).length ≤ maxLineBytes)
  have hline := bytesOfWritten hS sampleLibs hsend hdepth' hlen
  obtain ⟨s, hreach, -, -, -, htrace⟩ := @reach_committed (sampleLibs.withSerde S) sampleRoster
    (init sampleAudit) 0 (serializes_withSerde hS _) rfl rfl "bob" "b-token" (carrying v) hello rfl hline
    (by simp [Envelope.validate, carrying, sampleEnvelope, Libs.withSerde, sampleLibs, epoch]) ""
    ⟨carrying v, 0⟩ rfl
  -- and the client that is given it reads it
  have hdelivery : (ServerLine.envelope (carrying v)).Integral := hmade
  obtain ⟨delivered, hdelivered, hbytes, -, hreply, -⟩ := roundTrips_of_decode hS.serverLine_encodes
    hS.serverLine_decodes hdepth'' (ServerLine.decode_encode hdelivery)
  refine ⟨carrying v, carrying v, String.ofList ((ClientLine.send (carrying v)).encode F).text, s, 0, "bob",
    0, ⟨carrying v, 0⟩, delivered ++ "\n", ?_, ?_, ?_, hreach.reach, ?_, ?_, hS.auditEvent_encodes _, hdelivered, ?_⟩
  · rw [readBody, (hS.value_decodes text v).2 ⟨j, hread, hv⟩]
    rfl
  · rw [toJsonl, hS.clientLine_encodes]
  · exact fromJsonl_of_read hS.clientLine_decodes (by rw [String.toList_ofList, Json.read_text hdepth']) hsend
  · rw [htrace]
    simp
  · rw [htrace]
    simp
  · have hne : asBytes (delivered ++ "\n") ≠ [] := by
      rw [hbytes]
      simp
    rw [finishAwait, readReply_text hne, hreply]
    change answerAwait S (.envelope (carrying v)) = _
    rw [answerAwait, toJsonl, hS.envelope_encodes]

/-- The body `[7,{"a":-7}]`. -/
def nestedBody : Json :=
  .array [.number (.ofInt 7), .object [("a", .number (.ofInt (-7)))]]

/-- A body of small integers that repeats no key is preserved. -/
theorem body_preserved_nested : ∃ record printed, SaysAt record ["accepted", "envelope", "body"]
    (fun _ => True) nestedBody ∧ SaysAt printed ["body"] (fun _ => True) nestedBody := by
  have hS := SerdeJson.derived_ofDerives noFloats fun _ => epoch
  let v : Value := .array [.number (.posInt 7), .object [("a", .number (.negInt (-7)))]]
  have hmade : v.Made Number.IsInteger := by
    refine .array (List.forall_mem_cons.2 ⟨.number trivial, List.forall_mem_singleton.2 ?_⟩)
    exact .object (List.pairwise_singleton _ _)
      (List.forall_mem_singleton.2 (.number (by decide : (-7 : Int64) < 0)))
  have hread : Json.read recursionLimit (String.ofList nestedBody.text).toList = some nestedBody := by
    rw [String.toList_ofList, Json.read_text (by decide)]
  have hconveys := conveys_sample hS hread (v := v) rfl hmade (by decide) (by decide +kernel)
  refine ⟨_, _, (body_preserved hS (fun _ => True) hread hconveys).2 ⟨?_, fun l hl _ => Or.inl ?_⟩⟩
  · simp [nestedBody, Json.NoRepeats, Json.NoRepeatsItems, Json.NoRepeatsMembers, Json.NoRepeatsMember]
  · have hl' : l = .ofInt 7 ∨ l = .ofInt (-7) := by
      simpa [nestedBody, Json.literals, Json.literalsItems, Json.literalsMembers,
        Json.literalsMember] using hl
    rcases hl' with rfl | rfl <;> exact isInt64_ofInt (by decide) (by decide)

/-- The body `{"a":1,"a":2}`. -/
def repeatedKey : Json :=
  .object [("a", .number (.ofInt 1)), ("a", .number (.ofInt 2))]

/-- Of a repeated key one member is left, in the record and in the line that is printed. -/
theorem exists_lost_member : ∃ record printed,
    Conveys sampleLibs sampleSerde sampleRoster sampleAudit "\x7b\"a\":1,\"a\":2\x7d" record printed ∧
    Json.read recursionLimit "\x7b\"a\":1,\"a\":2\x7d".toList = some repeatedKey ∧
    ¬SaysAt record ["accepted", "envelope", "body"] (fun l => l.int?.isSome = true) repeatedKey ∧
    ¬SaysAt printed ["body"] (fun l => l.int?.isSome = true) repeatedKey := by
  have hS : sampleSerde.Derived noFloats fun _ => epoch := SerdeJson.derived_ofDerives _ _
  let v : Value := .object [("a", .number (.posInt 2))]
  have htext : "\x7b\"a\":1,\"a\":2\x7d".toList = repeatedKey.text := by decide
  have hread : Json.read recursionLimit "\x7b\"a\":1,\"a\":2\x7d".toList = some repeatedKey := by
    rw [htext, Json.read_text (by decide)]
  have hmade : v.Made Number.IsInteger :=
    .object (List.pairwise_singleton _ _) (List.forall_mem_singleton.2 (.number trivial))
  have hdecode : Value.decode noFloats repeatedKey = some v := rfl
  -- whatever the record says, its object has one member
  have hdiffer : ∀ {exact : Literal → Prop},
      ¬repeatedKey.Like (fun l l' => exact l → l'.value = l.value) (v.encode noFloats) := by
    intro exact hlike
    have hnodup := (Json.noRepeats_object.1 (hlike.noRepeats (noRepeats_encode hdecode))).1
    simp at hnodup
  refine ⟨_, _, conveys_sample hS hread hdecode hmade (by decide) (by decide +kernel), hread, ?_, ?_⟩
  · rw [saysAt_iff _ [] (by rw [String.toList_ofList, List.append_nil]) (by simp) rfl]
    exact hdiffer
  · rw [saysAt_iff _ ['\n'] (by rw [String.toList_append, String.toList_ofList]; rfl) isSpace_newline rfl]
    exact hdiffer

end Hub

end AgentHub
