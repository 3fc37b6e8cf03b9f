import AgentHub.Serde
import AgentHub.LineIo
import AgentHub.Lib.Utf8
import Mathlib.Data.List.Forall2

/-!
# Wire round trip

What client and hub write on a line is read back : a client line, a hub line and an envelope
whose body holds no double, with the newline and without (`wire_round_trips`). The text has no
newline of its own, so a line is a line.

A `send` line that was read cannot nest too deep, and the hub delivers its envelope on a line
that nests no deeper (`depth_delivered_le`), so the client that is given it can read it.
-/

namespace AgentHub

/-! ## Values -/

/-- A number without fraction : a `u64`, or a negative `i64`. -/
def Number.IsInteger : Number → Prop
  | .posInt _ => True
  | .negInt n => n < 0
  | .float _ => False

namespace Value

/-- Induction over the items of arrays and the members of objects. -/
@[elab_as_elim]
theorem induct {P : Value → Prop} (null : P .null) (bool : ∀ b, P (.bool b))
    (number : ∀ n, P (.number n)) (string : ∀ s, P (.string s))
    (array : ∀ items, (∀ v ∈ items, P v) → P (.array items))
    (object : ∀ ms, (∀ m ∈ ms, P m.2) → P (.object ms)) (v : Value) : P v :=
  @Value.rec P (fun items => ∀ v ∈ items, P v) (fun ms => ∀ m ∈ ms, P m.2) (fun m => P m.2)
    null bool number string array object (by simp) (fun _ _ ih ihs => List.forall_mem_cons.2 ⟨ih, ihs⟩)
    (by simp) (fun _ _ ih ihs => List.forall_mem_cons.2 ⟨ih, ihs⟩) (fun _ _ ih => ih) v

/-- The value is one of the Rust type, with numbers that satisfy `P` : the members of an object
have increasing keys. -/
inductive Made (P : Number → Prop) : Value → Prop
  | null : Made P .null
  | bool (b : Bool) : Made P (.bool b)
  | number {n : Number} (h : P n) : Made P (.number n)
  | string (s : String) : Made P (.string s)
  | array {items : List Value} (h : ∀ v ∈ items, Made P v) : Made P (.array items)
  | object {ms : List (String × Value)} (hsorted : ms.Pairwise fun m m' => m.1 < m'.1)
      (h : ∀ m ∈ ms, Made P m.2) : Made P (.object ms)

end Value

variable {F : Floats}

theorem Number.decode_encode {n : Number} (h : n.IsInteger) : Number.decode F (n.encode F) = some n := by
  cases n with
  | posInt n =>
    have hlt := n.toNat_lt
    have hneg : (Literal.ofInt n.toNat).neg = false := by simp [Literal.ofInt]
    rw [encode, decode, Literal.int?_ofInt]
    dsimp only
    rw [hneg, if_neg (by simp), if_pos (by omega), Int.toNat_natCast, UInt64.ofNat_toNat]
  | negInt n =>
    have hlt : n.toInt < 0 := by simpa using Int64.lt_iff_toInt_lt.1 h
    have hge : -2 ^ 63 ≤ n.toInt := n.le_toInt
    have hneg : (Literal.ofInt n.toInt).neg = true := by simpa [Literal.ofInt] using hlt
    rw [encode, decode, Literal.int?_ofInt]
    dsimp only
    rw [hneg, if_pos rfl, if_pos ⟨hlt, hge⟩, Int64.ofInt_toInt]
  | float bits => exact h.elim

/-! ## Sorted members -/

theorem insertMember_last {key : String} {v : Value} {ms : List (String × Value)}
    (h : ∀ m ∈ ms, m.1 < key) : insertMember key v ms = ms ++ [(key, v)] := by
  induction ms with
  | nil => rfl
  | cons m ms ih =>
    obtain ⟨hm, hms⟩ := List.forall_mem_cons.1 h
    rw [insertMember, if_neg (lt_asymm hm), if_neg (ne_of_gt hm), ih hms, List.cons_append]

theorem foldl_insertMember {acc ms : List (String × Value)}
    (h : (acc ++ ms).Pairwise fun m m' => m.1 < m'.1) :
    ms.foldl (fun acc m => insertMember m.1 m.2 acc) acc = acc ++ ms := by
  induction ms generalizing acc with
  | nil => rw [List.append_nil, List.foldl_nil]
  | cons m ms ih =>
    have hlast : ∀ m' ∈ acc, m'.1 < m.1 := fun m' hm' =>
      (List.pairwise_append.1 h).2.2 m' hm' m List.mem_cons_self
    rw [List.foldl_cons, insertMember_last hlast, ih (by simpa using h), List.append_assoc,
      List.singleton_append]

/-- Members with increasing keys are what a `BTreeMap` makes of them. -/
theorem ofMembers_sorted {ms : List (String × Value)} (h : ms.Pairwise fun m m' => m.1 < m'.1) :
    Value.ofMembers ms = .object ms := by
  rw [Value.ofMembers, foldl_insertMember (by simpa using h), List.nil_append]

theorem decode_encode_items {items : List Value}
    (h : ∀ v ∈ items, Value.decode F (v.encode F) = some v) :
    Value.decodeItems F (Value.encodeItems F items) = some items := by
  induction items with
  | nil => rfl
  | cons v vs ih =>
    obtain ⟨hv, hvs⟩ := List.forall_mem_cons.1 h
    rw [Value.encodeItems, Value.decodeItems, hv, ih hvs]
    rfl

theorem decode_encode_members {ms : List (String × Value)}
    (h : ∀ m ∈ ms, Value.decode F (m.2.encode F) = some m.2) :
    Value.decodeMembers F (Value.encodeMembers F ms) = some ms := by
  induction ms with
  | nil => rfl
  | cons m ms ih =>
    obtain ⟨key, v⟩ := m
    obtain ⟨hv, hms⟩ := List.forall_mem_cons.1 h
    rw [Value.encodeMembers, Value.decodeMembers, Value.encodeMember, Value.decodeMember, hv, ih hms]
    rfl

/-- A value without doubles is decoded from its document. -/
theorem Value.decode_encode {v : Value} (h : v.Made Number.IsInteger) :
    Value.decode F (v.encode F) = some v := by
  induction h with
  | null => rfl
  | bool b => rfl
  | number h => rw [encode, decode, Number.decode_encode h, Option.map_some]
  | string s => rfl
  | array h ih => rw [encode, decode, decode_encode_items ih, Option.map_some]
  | object hsorted h ih =>
    rw [encode, decode, decode_encode_members ih, Option.map_some, ofMembers_sorted hsorted]

/-! ## Lines -/

/-- An envelope is decoded from its document but for what becomes of its body. -/
theorem Envelope.decode_encode_map (e : Envelope) : Envelope.decode F (e.encode F) =
    (Value.decode F (e.body.encode F)).map fun v => { e with body := v } := by
  have hfields : (Json.object (e.members F)).fields?
      ["id", "from", "to", "ts", "kind", "correlationId", "body"] = some (e.members F) :=
    Json.fields?_object rfl (by decide)
  have hcorr : optionField Json.str? "correlationId" (e.members F) = some e.correlationId :=
    optionField_encodeOption e.correlationId rfl (fun _ => rfl) (by simp)
  have hbody : field (Value.decode F) "body" (e.members F) = Value.decode F (e.body.encode F) := rfl
  have hstrings : field Json.str? "id" (e.members F) = some e.id ∧
      field Json.str? "from" (e.members F) = some e.from ∧
      field Json.str? "to" (e.members F) = some e.to ∧
      field Json.str? "ts" (e.members F) = some e.ts ∧
      field Json.str? "kind" (e.members F) = some e.kind :=
    ⟨rfl, rfl, rfl, rfl, rfl⟩
  obtain ⟨hid, hfrom, hto, hts, hkind⟩ := hstrings
  rw [encode, decode, hfields]
  simp only [Option.bind_eq_bind, Option.bind_some, hid, hfrom, hto, hts, hkind, hcorr, hbody]
  cases Value.decode F (e.body.encode F) <;> rfl

theorem Envelope.decode_encode_body {e : Envelope} {v : Value}
    (h : Value.decode F (e.body.encode F) = some v) :
    Envelope.decode F (e.encode F) = some { e with body := v } := by
  rw [decode_encode_map, h, Option.map_some]

theorem Envelope.decode_encode {e : Envelope} (h : e.body.Made Number.IsInteger) :
    Envelope.decode F (e.encode F) = some e :=
  decode_encode_body (Value.decode_encode h)

/-- A `u64` is read back. -/
theorem u64?_encodeU64 (n : UInt64) : u64? (encodeU64 n) = some n := by
  have hlt := n.toNat_lt
  have hneg : (Literal.ofInt n.toNat).neg = false := by simp [Literal.ofInt]
  rw [encodeU64, u64?, Literal.int?_ofInt]
  dsimp only
  rw [hneg, if_pos ⟨rfl, by omega⟩, Int.toNat_natCast, UInt64.ofNat_toNat]

/-- The envelope that a client line carries has no double in its body. -/
def ClientLine.Integral : ClientLine → Prop
  | .send e => e.body.Made Number.IsInteger
  | _ => True

def ServerLine.Integral : ServerLine → Prop
  | .envelope e => e.body.Made Number.IsInteger
  | _ => True

theorem ClientLine.decode_encode_send (e : Envelope) :
    ClientLine.decode F ((ClientLine.send e).encode F) = (Envelope.decode F (e.encode F)).map .send := by
  have hne : ¬("send" = "hello") := by decide
  simp only [encode, decode, Json.variant?_ofVariant, Option.bind_eq_bind, Option.bind_some,
    if_neg hne, if_true]
  cases Envelope.decode F (e.encode F) <;> rfl

theorem ClientLine.decode_encode {line : ClientLine} (h : line.Integral) :
    ClientLine.decode F (line.encode F) = some line := by
  cases line with
  | hello name token => rfl
  | send e =>
    rw [decode_encode_send, Envelope.decode_encode h, Option.map_some]
  | await replyTo kind timeoutSecs =>
    let ms : List (String × Json) := [("replyTo", encodeOption .string replyTo),
      ("kind", encodeOption .string kind), ("timeoutSecs", encodeOption encodeU64 timeoutSecs)]
    have hfields : (Json.object ms).fields? ["replyTo", "kind", "timeoutSecs"] = some ms :=
      Json.fields?_object rfl (by decide)
    have hreply : optionField Json.str? "replyTo" ms = some replyTo :=
      optionField_encodeOption replyTo rfl (fun _ => rfl) (by simp)
    have hkind : optionField Json.str? "kind" ms = some kind :=
      optionField_encodeOption kind rfl (fun _ => rfl) (by simp)
    have htimeout : optionField u64? "timeoutSecs" ms = some timeoutSecs :=
      optionField_encodeOption timeoutSecs rfl u64?_encodeU64 (by simp [encodeU64])
    have hne : ¬("await" = "hello") ∧ ¬("await" = "send") := by decide
    simp only [encode, decode, Json.variant?_ofVariant, Option.bind_eq_bind, Option.bind_some,
      if_neg hne.1, if_neg hne.2, if_true]
    rw [hfields]
    simp only [Option.bind_some, hreply, hkind, htimeout]
    rfl

/-- A hello and an await come back as they are. -/
theorem ClientLine.decode_encode_plain (line : ClientLine) (h : ∀ e, line ≠ .send e) :
    ClientLine.decode F (line.encode F) = some line := by
  refine ClientLine.decode_encode ?_
  cases line with
  | send e => exact absurd rfl (h e)
  | hello name token => trivial
  | await replyTo kind timeoutSecs => trivial

theorem ServerLine.decode_encode_envelope (e : Envelope) :
    ServerLine.decode F ((ServerLine.envelope e).encode F) =
      (Envelope.decode F (e.encode F)).map .envelope := by
  have hne : ¬("envelope" = "ok") ∧ ¬("envelope" = "error") ∧ ¬("envelope" = "accepted") := by decide
  simp only [encode, decode, Json.variant?_ofVariant, Option.bind_eq_bind, Option.bind_some,
    if_neg hne.1, if_neg hne.2.1, if_neg hne.2.2, if_true]
  cases Envelope.decode F (e.encode F) <;> rfl

theorem ServerLine.decode_encode {line : ServerLine} (h : line.Integral) :
    ServerLine.decode F (line.encode F) = some line := by
  cases line with
  | ok | error message | accepted id | timeout => rfl
  | envelope e => rw [decode_encode_envelope, Envelope.decode_encode h, Option.map_some]

/-! ## Bytes -/

theorem asBytes_eq (s : String) : asBytes s = utf8Bytes s.toList :=
  toUTF8_toList s

/-- Only a newline is written with its byte. -/
theorem newline_mem_asBytes {s : String} : newline ∈ asBytes s ↔ '\n' ∈ s.toList := by
  rw [asBytes_eq, mem_utf8Bytes (by decide)]
  constructor
  · rintro ⟨c, hc, heq⟩
    obtain rfl : c = '\n' := Char.toNat_inj.1 heq
    exact hc
  · exact fun h => ⟨'\n', h, rfl⟩

theorem asBytes_append (s t : String) : asBytes (s ++ t) = asBytes s ++ asBytes t := by
  rw [asBytes_eq, asBytes_eq, asBytes_eq, String.toList_append, utf8Bytes_append]

/-- Bytes that are valid UTF-8 are those of their text. -/
theorem asBytes_of_fromUtf8 {bytes : List UInt8} {s : String} (h : fromUtf8 bytes = some s) :
    asBytes s = bytes := by
  rw [fromUtf8, String.fromUTF8?] at h
  split_ifs at h with hvalid
  rw [← Option.some.inj h]
  simp [asBytes, String.fromUTF8]

theorem fromUtf8_asBytes (s : String) : fromUtf8 (asBytes s) = some s := by
  have hbytes : (asBytes s).toByteArray = s.toByteArray := by
    rw [asBytes_eq, utf8Bytes, ← List.utf8Encode, ← String.toByteArray_ofList, String.ofList_toList]
  rw [fromUtf8, hbytes, String.fromUTF8?, dif_pos s.isValidUTF8]
  rfl

/-- The text of the value is one line, and is read back with its newline and without. -/
def RoundTrips {α : Type} (toString : α → Except String String) (fromStr : String → Except String α)
    (v : α) : Prop :=
  ∃ line : String, toJsonl toString v = .ok (line ++ "\n") ∧
    asBytes (line ++ "\n") = asBytes line ++ [newline] ∧ newline ∉ asBytes line ∧
    fromJsonl fromStr (line ++ "\n") = .ok v ∧ fromJsonl fromStr line = .ok v

section

variable {α : Type} {toString : α → Except String String} {fromStr : String → Except String α}
  {encode : α → Json} {decode : Json → Option α} {v : α}

theorem fromJsonl_of_read (hdec : DecodesAs fromStr decode) {line : String} {j : Json}
    (hread : Json.read recursionLimit line.toList = some j) (hv : decode j = some v) :
    fromJsonl fromStr line = .ok v := by
  rw [fromJsonl, (hdec line v).2 ⟨j, hread, hv⟩]

/-- A value whose document is decoded to it makes the round trip. -/
theorem roundTrips_of_decode (henc : EncodesAs toString encode) (hdec : DecodesAs fromStr decode)
    (hdepth : (encode v).depth < recursionLimit) (hv : decode (encode v) = some v) :
    RoundTrips toString fromStr v := by
  have hread := Json.read_text hdepth
  refine ⟨String.ofList (encode v).text, ?_, asBytes_append _ _, ?_, ?_, ?_⟩
  · rw [toJsonl, henc v]
  · rw [newline_mem_asBytes, String.toList_ofList]
    exact Json.newline_notMem_text _
  · refine fromJsonl_of_read hdec ?_ hv
    rw [String.toList_append, String.toList_ofList]
    exact Json.read_append_space hread isSpace_newline
  · refine fromJsonl_of_read hdec ?_ hv
    rw [String.toList_ofList, hread]

end

/-! ## What is decoded -/

theorem mem_insertMember {key : String} {v : Value} {ms : List (String × Value)} {m : String × Value}
    (h : m ∈ insertMember key v ms) : m = (key, v) ∨ m ∈ ms := by
  induction ms with
  | nil => exact Or.inl (List.mem_singleton.1 h)
  | cons m' ms ih =>
    rw [insertMember] at h
    split_ifs at h
    · exact List.mem_cons.1 h
    · rcases List.mem_cons.1 h with h | h
      · exact Or.inl h
      · exact Or.inr (List.mem_cons_of_mem _ h)
    · rcases List.mem_cons.1 h with h | h
      · exact Or.inr (h ▸ List.mem_cons_self)
      · exact (ih h).imp_right (List.mem_cons_of_mem _)

theorem sorted_insertMember {key : String} {v : Value} {ms : List (String × Value)}
    (h : ms.Pairwise fun m m' => m.1 < m'.1) :
    (insertMember key v ms).Pairwise fun m m' => m.1 < m'.1 := by
  induction ms with
  | nil => exact List.pairwise_singleton _ _
  | cons m ms ih =>
    obtain ⟨hm, hms⟩ := List.pairwise_cons.1 h
    rw [insertMember]
    split_ifs with hlt heq
    · refine List.pairwise_cons.2 ⟨fun m' hm' => ?_, h⟩
      rcases List.mem_cons.1 hm' with rfl | hm'
      · exact hlt
      · exact lt_trans hlt (hm m' hm')
    · exact List.pairwise_cons.2 ⟨fun m' hm' => heq ▸ hm m' hm', hms⟩
    · refine List.pairwise_cons.2 ⟨fun m' hm' => ?_, ih hms⟩
      rcases mem_insertMember hm' with rfl | hm'
      · exact lt_of_le_of_ne (not_lt.1 hlt) (Ne.symm heq)
      · exact hm m' hm'

/-- An object holds members it is made of, in key order. -/
theorem ofMembers_spec (ms : List (String × Value)) : ∃ ms', Value.ofMembers ms = .object ms' ∧
    (ms'.Pairwise fun m m' => m.1 < m'.1) ∧ ∀ m ∈ ms', m ∈ ms := by
  have hfold : ∀ (ms acc : List (String × Value)), (acc.Pairwise fun m m' => m.1 < m'.1) →
      ((ms.foldl (fun acc m => insertMember m.1 m.2 acc) acc).Pairwise fun m m' => m.1 < m'.1) ∧
      ∀ m ∈ ms.foldl (fun acc m => insertMember m.1 m.2 acc) acc, m ∈ acc ∨ m ∈ ms := by
    intro ms
    induction ms with
    | nil => exact fun acc hacc => ⟨hacc, fun m hm => Or.inl hm⟩
    | cons m ms ih =>
      intro acc hacc
      obtain ⟨hsorted, hmem⟩ := ih (insertMember m.1 m.2 acc) (sorted_insertMember hacc)
      refine ⟨hsorted, fun m' hm' => ?_⟩
      rcases hmem m' hm' with h | h
      · rcases mem_insertMember h with rfl | h
        · exact Or.inr List.mem_cons_self
        · exact Or.inl h
      · exact Or.inr (List.mem_cons_of_mem _ h)
  obtain ⟨hsorted, hmem⟩ := hfold ms [] List.Pairwise.nil
  exact ⟨_, rfl, hsorted, fun m hm => (hmem m hm).resolve_left (by simp)⟩

theorem decodeItems_eq_some {items : List Json} {vs : List Value} :
    Value.decodeItems F items = some vs ↔ List.Forall₂ (fun j v => Value.decode F j = some v) items vs := by
  induction items generalizing vs with
  | nil => rw [Value.decodeItems, List.forall₂_nil_left_iff, Option.some.injEq, eq_comm]
  | cons j js ih =>
    rw [Value.decodeItems, Option.bind_eq_some_iff, List.forall₂_cons_left_iff]
    refine exists_congr fun v => ?_
    rw [Option.map_eq_some_iff]
    constructor
    · rintro ⟨hv, vs', hvs, rfl⟩
      exact ⟨vs', hv, ih.1 hvs, rfl⟩
    · rintro ⟨vs', hv, hvs, rfl⟩
      exact ⟨hv, vs', ih.2 hvs, rfl⟩

theorem decodeMember_eq_some {m : String × Json} {m' : String × Value} :
    Value.decodeMember F m = some m' ↔ m.1 = m'.1 ∧ Value.decode F m.2 = some m'.2 := by
  obtain ⟨key, j⟩ := m
  obtain ⟨key', v⟩ := m'
  rw [Value.decodeMember, Option.map_eq_some_iff]
  simp only [Prod.mk.injEq]
  constructor
  · rintro ⟨v', hv, rfl, rfl⟩
    exact ⟨rfl, hv⟩
  · rintro ⟨rfl, hv⟩
    exact ⟨v, hv, rfl, rfl⟩

theorem decodeMembers_eq_some {ms : List (String × Json)} {ms' : List (String × Value)} :
    Value.decodeMembers F ms = some ms' ↔
      List.Forall₂ (fun m m' => m.1 = m'.1 ∧ Value.decode F m.2 = some m'.2) ms ms' := by
  induction ms generalizing ms' with
  | nil => rw [Value.decodeMembers, List.forall₂_nil_left_iff, Option.some.injEq, eq_comm]
  | cons m ms ih =>
    rw [Value.decodeMembers, Option.bind_eq_some_iff, List.forall₂_cons_left_iff]
    refine exists_congr fun m' => ?_
    rw [Option.map_eq_some_iff, decodeMember_eq_some]
    constructor
    · rintro ⟨hm, ms'', hms, rfl⟩
      exact ⟨ms'', hm, ih.1 hms, rfl⟩
    · rintro ⟨ms'', hm, hms, rfl⟩
      exact ⟨hm, ms'', ih.2 hms, rfl⟩

theorem forall₂_mem_right {β γ : Type} {R : β → γ → Prop} {l : List β} {l' : List γ}
    (h : List.Forall₂ R l l') {b : γ} (hb : b ∈ l') : ∃ a ∈ l, R a b := by
  induction h with
  | nil => cases hb
  | cons hab _ ih =>
    rcases List.mem_cons.1 hb with rfl | hb
    · exact ⟨_, List.mem_cons_self, hab⟩
    · obtain ⟨a, ha, hR⟩ := ih hb
      exact ⟨a, List.mem_cons_of_mem _ ha, hR⟩

theorem encodeItems_eq (vs : List Value) : Value.encodeItems F vs = vs.map (Value.encode F) := by
  induction vs with
  | nil => rfl
  | cons v vs ih => rw [Value.encodeItems, ih, List.map_cons]

theorem encodeMembers_eq (ms : List (String × Value)) :
    Value.encodeMembers F ms = ms.map fun m => (m.1, m.2.encode F) := by
  induction ms with
  | nil => rfl
  | cons m ms ih =>
    obtain ⟨key, v⟩ := m
    rw [Value.encodeMembers, Value.encodeMember, ih, List.map_cons]

/-- A decoded value nests no deeper than its document. -/
theorem depth_encode_le {j : Json} {v : Value} (h : Value.decode F j = some v) :
    (v.encode F).depth ≤ j.depth := by
  induction j using Json.induct generalizing v with
  | null | bool | string => rw [← Option.some.inj h]; exact le_refl 0
  | number l =>
    obtain ⟨n, -, rfl⟩ := Option.map_eq_some_iff.1 h
    exact le_refl 0
  | array items ih =>
    obtain ⟨vs, hvs, rfl⟩ := Option.map_eq_some_iff.1 h
    have hitems := decodeItems_eq_some.1 hvs
    have hpos : 0 < (Json.array items).depth := by
      rw [Json.depth]
      omega
    rw [Value.encode, encodeItems_eq, ← Nat.lt_succ_iff, Nat.succ_eq_add_one, Json.depth_array_lt hpos]
    intro k hk
    obtain ⟨v, hv, rfl⟩ := List.mem_map.1 hk
    obtain ⟨j, hj, hdecode⟩ := forall₂_mem_right hitems hv
    exact (ih j hj hdecode).trans_lt (Json.depth_lt_array hj)
  | object ms ih =>
    obtain ⟨vs, hvs, rfl⟩ := Option.map_eq_some_iff.1 h
    have hmembers := decodeMembers_eq_some.1 hvs
    obtain ⟨ms', hms', -, hmem⟩ := ofMembers_spec vs
    have hpos : 0 < (Json.object ms).depth := by
      rw [Json.depth]
      omega
    rw [hms', Value.encode, encodeMembers_eq, ← Nat.lt_succ_iff, Nat.succ_eq_add_one,
      Json.depth_object_lt hpos]
    intro k hk
    obtain ⟨m', hm', rfl⟩ := List.mem_map.1 hk
    obtain ⟨m, hm, -, hdecode⟩ := forall₂_mem_right hmembers (hmem m' hm')
    exact (ih m hm hdecode).trans_lt (Json.depth_lt_object hm)

/-- The body of a decoded envelope stands one level below it. -/
theorem body_of_decode {j : Json} {e : Envelope} (h : Envelope.decode F j = some e) :
    ∃ k, k.depth < j.depth ∧ Value.decode F k = some e.body := by
  simp only [Envelope.decode, Option.bind_eq_bind, Option.bind_eq_some_iff] at h
  obtain ⟨ms, hfields, id, -, sender, -, recipient, -, ts, -, kind, -, corr, -, body, hbody, he⟩ := h
  obtain ⟨k, hk, hdecode⟩ := field_eq_some hbody
  obtain rfl := Option.some.inj he
  exact ⟨k, Json.depth_lt_of_fields? hfields hk, hdecode⟩

/-- A decoded `send` line holds the envelope. -/
theorem send_of_decode {j : Json} {e : Envelope} (h : ClientLine.decode F j = some (.send e)) :
    ∃ content, j = .ofVariant "send" content ∧ Envelope.decode F content = some e := by
  simp only [ClientLine.decode, Option.bind_eq_bind, Option.bind_eq_some_iff] at h
  obtain ⟨⟨tag, content⟩, hvariant, h⟩ := h
  obtain rfl := Json.variant?_eq_some.1 hvariant
  dsimp only at h
  split_ifs at h with hhello hsend hawait
  · simp only [Option.bind_eq_some_iff] at h
    obtain ⟨ms, -, name, -, token, -, h⟩ := h
    cases Option.some.inj h
  · obtain ⟨e', he, h⟩ := Option.bind_eq_some_iff.1 h
    obtain rfl := ClientLine.send.inj (Option.some.inj h)
    exact ⟨content, by rw [hsend], he⟩
  · simp only [Option.bind_eq_some_iff] at h
    obtain ⟨ms, -, replyTo, -, kind, -, timeoutSecs, -, h⟩ := h
    cases Option.some.inj h

theorem depth_encodeOption (o : Option String) : (encodeOption Json.string o).depth = 0 := by
  cases o <;> rfl

/-- An envelope is one level deeper than its body. -/
theorem depth_envelope_lt {e : Envelope} {k : ℕ} (hk : 0 < k) :
    (e.encode F).depth < k + 1 ↔ (e.body.encode F).depth < k := by
  have hstring : ∀ s : String, (Json.string s).depth = 0 := fun _ => rfl
  rw [Envelope.encode, Json.depth_object_lt hk]
  simp [Envelope.members, depth_encodeOption, hstring, hk]

/-- The line on which the hub delivers an envelope nests no deeper than the line on which it was
sent, whatever name it is stamped with. -/
theorem depth_delivered_le {j : Json} {e : Envelope} (h : ClientLine.decode F j = some (.send e))
    (name : String) : ((ServerLine.envelope { e with «from» := name }).encode F).depth ≤ j.depth := by
  obtain ⟨content, rfl, he⟩ := send_of_decode h
  obtain ⟨k, hk, hbody⟩ := body_of_decode he
  rw [ServerLine.encode, Json.depth_ofVariant, Json.depth_ofVariant]
  have hle := depth_encode_le hbody
  have := (depth_envelope_lt (F := F) (e := { e with «from» := name }) (k := content.depth)
    (by omega)).2 (hle.trans_lt hk)
  omega

/-! ## The wire -/

variable {S : SerdeJson} {formatTs : DateTime → String}

/-- Every line and envelope without doubles makes the round trip, if it does not nest too deep.
What the hub accepts from a `send` line does not, and the client that is given it reads the
envelope with the name it is stamped with. -/
theorem wire_round_trips (hS : S.Derived F formatTs) :
    (∀ line : ClientLine, line.Integral → (line.encode F).depth < recursionLimit →
      RoundTrips S.clientLineToString S.clientLineFromStr line) ∧
    (∀ line : ServerLine, line.Integral → (line.encode F).depth < recursionLimit →
      RoundTrips S.serverLineToString S.serverLineFromStr line) ∧
    (∀ e : Envelope, e.body.Made Number.IsInteger → (e.encode F).depth < recursionLimit →
      RoundTrips S.envelopeToString S.envelopeFromStr e) ∧
    ∀ (text : String) (e : Envelope) (name : String),
      fromJsonl S.clientLineFromStr text = .ok (.send e) → e.body.Made Number.IsInteger →
      RoundTrips S.serverLineToString S.serverLineFromStr (.envelope { e with «from» := name }) := by
  have hserver : ∀ line : ServerLine, line.Integral → (line.encode F).depth < recursionLimit →
      RoundTrips S.serverLineToString S.serverLineFromStr line := fun line h hdepth =>
    roundTrips_of_decode hS.serverLine_encodes hS.serverLine_decodes hdepth (ServerLine.decode_encode h)
  refine ⟨fun line h hdepth => ?_, hserver, fun e h hdepth => ?_, fun text e name htext h => ?_⟩
  · exact roundTrips_of_decode hS.clientLine_encodes hS.clientLine_decodes hdepth
      (ClientLine.decode_encode h)
  · exact roundTrips_of_decode hS.envelope_encodes hS.envelope_decodes hdepth (Envelope.decode_encode h)
  · have hok : S.clientLineFromStr text = .ok (.send e) := by
      unfold fromJsonl at htext
      split at htext
      · rename_i line hline
        rw [hline, Except.ok.inj htext]
      · cases htext
    obtain ⟨j, hread, hj⟩ := (hS.clientLine_decodes text _).1 hok
    have hdepth := Json.depth_of_read (by decide) hread
    exact hserver (.envelope { e with «from» := name }) h ((depth_delivered_le hj name).trans_lt hdepth)

/-- Doubles where a text has none : each is zero. -/
def noFloats : Floats where
  parse _ := some 0
  print _ := ⟨⟨false, ['0'], ['0'], []⟩, by decide⟩

/-- An envelope with nesting and with characters to escape. -/
def nestedEnvelope : Envelope where
  id := "m1"
  «from» := "bob"
  «to» := "alice"
  ts := "1970-01-01T00:00:00Z"
  kind := "two\nlines"
  correlationId := some "q\"1\""
  body := .object [("items", .array [.number (.posInt 7), .number (.negInt (-7)), .string "\t", .null])]

theorem made_nestedEnvelope : nestedEnvelope.body.Made Number.IsInteger := by
  refine .object (List.pairwise_singleton _ _) (List.forall_mem_singleton.2 (.array ?_))
  simp only [List.forall_mem_cons, List.not_mem_nil, false_imp_iff, implies_true, and_true]
  exact ⟨.number trivial, .number (by decide : (-7 : Int64) < 0), .string _, .null⟩

theorem wire_round_trips_nested : RoundTrips
    (SerdeJson.ofDerives noFloats fun _ => "").clientLineToString
    (SerdeJson.ofDerives noFloats fun _ => "").clientLineFromStr (.send nestedEnvelope) :=
  (wire_round_trips (SerdeJson.derived_ofDerives noFloats fun _ => "")).1 (.send nestedEnvelope)
    made_nestedEnvelope (by decide +kernel)

end AgentHub
