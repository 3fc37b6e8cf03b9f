import AgentHub.HelloErrors
import AgentHub.Lib.Split

/-!
# What the derive says of a token

Two hello lines with the same token but for what it says (`SameForm`) are refused at the same
byte in the same words, or both read (`sameButToken_derive`). The exceptions are values that
`serde_json` quotes or looks into when it refuses them : two numbers, and two strings of which
one has an escape that stands for no character (`Indistinct`). If the derive comes to the
token, such values are told apart (`indistinct_of_derive`).
-/

namespace AgentHub

/-! ## The column in a message -/

/-- The column stands behind the last space. -/
theorem atColumn_inj {message message' : String} {column column' : ℕ}
    (h : atColumn message column = atColumn message' column') :
    message = message' ∧ column = column' := by
  have hspace : ∀ n : ℕ, ' ' ∉ (Nat.toDigits 10 n).reverse := by
    intro n hmem
    have := Nat.isDigit_of_mem_toDigits (by decide) (by decide) (List.mem_reverse.1 hmem)
    revert this
    decide
  have hlist : ∀ (m : String) (n : ℕ), (atColumn m n).toList.reverse = (Nat.toDigits 10 n).reverse ++
      ' ' :: (m.toList ++ " at line 1 column".toList).reverse := by
    intro m n
    have hdigits : (toString n).toList = Nat.toDigits 10 n := Nat.toList_repr
    have hsplit : " at line 1 column ".toList = " at line 1 column".toList ++ [' '] := by decide
    rw [atColumn, String.toList_append, String.toList_append, hdigits, hsplit]
    simp
  have hrev := congrArg (fun s => s.toList.reverse) h
  simp only [hlist] at hrev
  obtain ⟨hdigits, hmessage⟩ := split_at_first hrev (hspace column) (hspace column')
  refine ⟨String.toList_inj.1 (List.append_cancel_right (List.reverse_injective hmessage)), ?_⟩
  have hvalue := congrArg (fun ds => Nat.ofDigitChars 10 ds 0) (List.reverse_injective hdigits)
  simpa only [Nat.ofDigitChars_ten_toDigits] using hvalue

/-! ## Numbers in a message -/

theorem nat_repr_inj {m n : ℕ} (h : m.repr = n.repr) : m = n := by
  have hdigits := congrArg (fun s : String => Nat.ofDigitChars 10 s.toList 0) h
  simpa only [Nat.toList_repr, Nat.ofDigitChars_ten_toDigits] using hdigits

theorem int_toString_inj {a b : ℤ} (h : toString a = toString b) : a = b := by
  have hminus : ∀ n : ℕ, '-' ∉ n.repr.toList := by
    intro n hmem
    rw [Nat.toList_repr] at hmem
    have := Nat.isDigit_of_mem_toDigits (by decide) (by decide) hmem
    revert this
    decide
  have hneg : ∀ n : ℕ, (toString (Int.negSucc n)).toList = '-' :: (n + 1).repr.toList := fun n => by
    rw [show toString (Int.negSucc n) = "-" ++ (n + 1).repr from rfl, String.toList_append]
    rfl
  cases a with
  | ofNat m =>
    cases b with
    | ofNat n => exact congrArg Int.ofNat (nat_repr_inj h)
    | negSucc n =>
      have hlist := congrArg String.toList h
      rw [hneg] at hlist
      exact absurd (hlist ▸ List.mem_cons_self) (hminus m)
  | negSucc m =>
    cases b with
    | ofNat n =>
      have hlist := congrArg String.toList h
      rw [hneg] at hlist
      exact absurd (hlist ▸ List.mem_cons_self) (hminus n)
    | negSucc n =>
      have hlist := congrArg String.toList h
      rw [hneg, hneg] at hlist
      have := nat_repr_inj (String.toList_inj.1 (List.cons.inj hlist).2)
      rw [Nat.succ.inj this]

/-- A negative number is read as one. -/
theorem Number.toInt_of_decode {F : Floats} {l : Literal} {n : Int64}
    (h : Number.decode F l = some (.negInt n)) : n.toInt < 0 := by
  unfold Number.decode at h
  split at h
  · rename_i z hz
    split_ifs at h with hneg hbounds hsize
    · obtain rfl := Number.negInt.inj (Option.some.inj h)
      rw [Int64.toInt_ofInt_of_le hbounds.2 (by omega)]
      exact hbounds.1
    · simp at h
    · simp at h
    · simp at h
  · simp at h

theorem Number.parse_of_decode {F : Floats} {l : Literal} {x : UInt64}
    (h : Number.decode F l = some (.float x)) : F.parse l = some x := by
  unfold Number.decode at h
  split at h
  · split_ifs at h
    · cases Option.some.inj h
    · simpa using h
    · cases Option.some.inj h
    · simpa using h
  · simpa using h

variable {N : NumberTexts}

/-- A message shows which number was read. -/
theorem NumberTexts.unexpected_inj {l l' : Literal} {n n' : Number}
    (hn : Number.decode N.floats l = some n) (hn' : Number.decode N.floats l' = some n')
    (h : N.unexpected n = N.unexpected n') : n = n' := by
  have hinteger : ∀ z z' : ℤ, "integer `" ++ toString z ++ "`" = "integer `" ++ toString z' ++ "`" →
      z = z' := by
    intro z z' h
    exact int_toString_inj ((String.append_right_inj _).1 ((String.append_left_inj _).1 h))
  have hfloat : ∀ (z : ℤ) (t : String),
      "integer `" ++ toString z ++ "`" ≠ "floating point `" ++ t ++ "`" := by
    intro z t h
    have hlist := congrArg (fun s : String => s.toList.head?) h
    simp [String.toList_append] at hlist
  cases n with
  | posInt m =>
    cases n' with
    | posInt m' =>
      have := hinteger _ _ h
      rw [UInt64.toNat_inj.1 (by omega : m.toNat = m'.toNat)]
    | negInt m' =>
      have := hinteger _ _ h
      have := Number.toInt_of_decode hn'
      omega
    | float x => exact absurd h (hfloat _ _)
  | negInt m =>
    cases n' with
    | posInt m' =>
      have := hinteger _ _ h
      have := Number.toInt_of_decode hn
      omega
    | negInt m' => rw [Int64.toInt_inj.1 (hinteger _ _ h)]
    | float x => exact absurd h (hfloat _ _)
  | float x =>
    cases n' with
    | posInt m' => exact absurd h.symm (hfloat _ _)
    | negInt m' => exact absurd h.symm (hfloat _ _)
    | float x' =>
      have hshow := (String.append_right_inj _).1 ((String.append_left_inj _).1 h)
      rw [N.showFloat_inj l l' x x' (Number.parse_of_decode hn) (Number.parse_of_decode hn') hshow]

/-- The same number, or two that turn out to be too large at the same byte. -/
def SameNumber (N : NumberTexts) (l l' : Literal) : Prop :=
  Number.decode N.floats l = Number.decode N.floats l' ∧
    (Number.decode N.floats l = none → N.tooLarge l = N.tooLarge l')

/-- Numbers of one length are refused alike exactly if they are the same. -/
theorem refusal_eq_iff {l l' : Literal} (hlength : byteLength l.text = byteLength l'.text) :
    N.refusal l = N.refusal l' ↔ SameNumber N l l' := by
  have hrange : ∀ t : String, invalidType t ≠ "number out of range" := by
    intro t h
    have hlist := congrArg (fun s : String => s.toList.head?) h
    simp [invalidType, String.toList_append] at hlist
  unfold NumberTexts.refusal SameNumber
  cases hn : Number.decode N.floats l with
  | none =>
    cases hn' : Number.decode N.floats l' with
    | none => simp
    | some n' => simp [(hrange _).symm]
  | some n =>
    cases hn' : Number.decode N.floats l' with
    | none => simp [hrange]
    | some n' =>
      simp only [hlength, Prod.mk.injEq, and_true, Option.some.injEq, reduceCtorEq, false_implies]
      constructor
      · intro h
        exact N.unexpected_inj hn hn' ((String.append_right_inj _).1 ((String.append_left_inj _).1 h))
      · rintro rfl
        rfl

/-! ## Two tokens in one line -/

/-- Two values that only differ in what they say. -/
structure SameForm (v v' : RawValue) : Prop where
  kind : v.kind = v'.kind
  length : byteLength v.text = byteLength v'.text

/-- What `serde_json` says of a string that it does not read. -/
def RawString.refusal (s : RawString) : Option (String × ℕ) :=
  match s.value with
  | .ok _ => none
  | .error e => some e

/-- The values are refused alike where a string is expected. -/
def Indistinct (N : NumberTexts) : RawValue → RawValue → Prop
  | .number l, .number l' => SameNumber N l l'
  | .string s, .string s' => s.refusal = s'.refusal
  | _, _ => True

/-- Two lines that decode to the same but for the token. -/
def SameButToken (r r' : Except String ClientLine) : Prop :=
  r = r' ∨ ∃ name token token', r = .ok (.hello name token) ∧ r' = .ok (.hello name token')

/-- Tokens of one form are both read, or refused alike, but for those that a message tells apart. -/
theorem readString_of_sameForm {v v' : RawValue} (h : SameForm v v') (hsame : Indistinct N v v') :
    (∃ e, v.readString N = .error e ∧ v'.readString N = .error e) ∨
      ∃ s s', v.readString N = .ok s ∧ v'.readString N = .ok s' := by
  obtain ⟨hkind, hlength⟩ := h
  cases v with
  | null => cases v' <;> cases hkind; exact Or.inl ⟨_, rfl, rfl⟩
  | bool b =>
    cases v' with
    | bool b' =>
      have : b = b' := by
        revert hlength
        cases b <;> cases b' <;> decide
      exact Or.inl ⟨_, rfl, by rw [this]; rfl⟩
    | _ => cases hkind
  | number l =>
    cases v' with
    | number l' => exact Or.inl ⟨_, rfl, by rw [(refusal_eq_iff hlength).2 hsame]; rfl⟩
    | _ => cases hkind
  | string s =>
    cases v' with
    | string s' =>
      simp only [Indistinct, RawString.refusal] at hsame
      simp only [RawValue.readString]
      cases hs : s.value with
      | error e =>
        cases hs' : s'.value with
        | error e' =>
          rw [hs, hs'] at hsame
          exact Or.inl ⟨e, rfl, by rw [Option.some.inj hsame]⟩
        | ok t' =>
          rw [hs, hs'] at hsame
          cases hsame
      | ok t =>
        cases hs' : s'.value with
        | error e' =>
          rw [hs, hs'] at hsame
          cases hsame
        | ok t' => exact Or.inr ⟨t, t', rfl, rfl⟩
    | _ => cases hkind
  | array inside =>
    cases v' with
    | array inside' => exact Or.inl ⟨_, rfl, rfl⟩
    | _ => cases hkind
  | object inside =>
    cases v' with
    | object inside' => exact Or.inl ⟨_, rfl, rfl⟩
    | _ => cases hkind

/-! ## Reading the fields -/

/-- What of the fields does not tell the token. -/
def hideToken (r : Option String × Option String × ℕ) : Option String × Bool × ℕ :=
  (r.1, r.2.1.isSome, r.2.2)

/-- The reading goes on alike behind two tokens. -/
theorem readFields_hidden (offset : ℕ) (name : Option String) {token token' : Option String}
    (h : token.isSome = token'.isSome) (ms : List RawMember) :
    (readFields N offset name token ms).map hideToken =
      (readFields N offset name token' ms).map hideToken := by
  induction ms generalizing offset name token token' with
  | nil => simp only [readFields, Except.map, hideToken, h]
  | cons m ms ih =>
    have hfield : ∀ key, readField N offset key token m = readField N offset key token' m := by
      intro key
      simp only [readField, h]
    simp only [readFields, hfield]
    cases m.key.value with
    | error e => rfl
    | ok key =>
      dsimp only
      split_ifs
      · cases readField N offset key name m with
        | error e => rfl
        | ok s => exact ih _ _ h
      · cases readField N offset key token' m with
        | error e => rfl
        | ok s => exact ih _ _ rfl
      · rfl

theorem readFields_append (offset : ℕ) (name token : Option String) (pre ms : List RawMember) :
    readFields N offset name token (pre ++ ms) =
      (readFields N offset name token pre).bind fun r => readFields N r.2.2 r.1 r.2.1 ms := by
  induction pre generalizing offset name token with
  | nil => rfl
  | cons m pre ih =>
    simp only [List.cons_append, readFields]
    cases m.key.value with
    | error e => rfl
    | ok key =>
      dsimp only
      split_ifs
      · cases readField N offset key name m with
        | error e => rfl
        | ok s => exact ih _ _ _
      · cases readField N offset key token m with
        | error e => rfl
        | ok s => exact ih _ _ _
      · rfl

/-- A field is read at a member that holds a string, and is the first of its name. -/
theorem readField_eq_ok {offset : ℕ} {name s : String} {found : Option String} {m : RawMember} :
    readField N offset name found m = .ok s ↔ found = none ∧ m.value.readString N = .ok s := by
  unfold readField
  cases found with
  | some t => simp
  | none =>
    cases m.value.readString N with
    | error e => simp
    | ok t => simp

/-- A message names a column behind the start of the member. -/
theorem column_of_readField {offset : ℕ} {name e : String} {found : Option String} {m : RawMember}
    (h : readField N offset name found m = .error e) :
    ∃ message column, e = atColumn message column ∧ offset ≤ column := by
  unfold readField at h
  split_ifs at h with hfound
  · exact ⟨_, _, (Except.error.inj h).symm, by omega⟩
  · split at h
    · exact ⟨_, _, (Except.error.inj h).symm, by omega⟩
    · cases h

/-- The reading ends behind its start. -/
theorem column_of_readFields {offset : ℕ} {name token : Option String} {ms : List RawMember} :
    (∀ e, readFields N offset name token ms = .error e →
      ∃ message column, e = atColumn message column ∧ offset ≤ column) ∧
    ∀ r, readFields N offset name token ms = .ok r → offset ≤ r.2.2 := by
  induction ms generalizing offset name token with
  | nil =>
    refine ⟨fun e h => ?_, fun r h => ?_⟩
    · cases h
    · rw [← Except.ok.inj h]
  | cons m ms ih =>
    simp only [readFields]
    cases m.key.value with
    | error e =>
      refine ⟨fun e' h => ⟨_, _, (Except.error.inj h).symm, by omega⟩, fun r h => ?_⟩
      cases h
    | ok key =>
      dsimp only
      split_ifs
      · cases hfield : readField N offset key name m with
        | error e =>
          refine ⟨fun e' h => ?_, fun r h => ?_⟩
          · rw [← Except.error.inj h]
            exact column_of_readField hfield
          · cases h
        | ok s =>
          refine ⟨fun e h => ?_, fun r h => (Nat.le_add_right _ _).trans (ih.2 r h)⟩
          obtain ⟨message, column, he, hle⟩ := ih.1 e h
          exact ⟨message, column, he, (Nat.le_add_right _ _).trans hle⟩
      · cases hfield : readField N offset key token m with
        | error e =>
          refine ⟨fun e' h => ?_, fun r h => ?_⟩
          · rw [← Except.error.inj h]
            exact column_of_readField hfield
          · cases h
        | ok s =>
          refine ⟨fun e h => ?_, fun r h => (Nat.le_add_right _ _).trans (ih.2 r h)⟩
          obtain ⟨message, column, he, hle⟩ := ih.1 e h
          exact ⟨message, column, he, (Nat.le_add_right _ _).trans hle⟩
      · refine ⟨fun e' h => ⟨_, _, (Except.error.inj h).symm, by omega⟩, fun r h => ?_⟩
        cases h

/-- A field that is found stays. -/
theorem found_of_readFields {offset : ℕ} {name token : Option String}
    {r : Option String × Option String × ℕ} {ms : List RawMember}
    (h : readFields N offset name token ms = .ok r) :
    (name.isSome = true → r.1.isSome = true) ∧ (token.isSome = true → r.2.1.isSome = true) := by
  induction ms generalizing offset name token with
  | nil =>
    rw [← Except.ok.inj h]
    exact ⟨id, id⟩
  | cons m ms ih =>
    simp only [readFields] at h
    cases hkey : m.key.value with
    | error e =>
      rw [hkey] at h
      cases h
    | ok key =>
      simp only [hkey] at h
      split_ifs at h
      · cases hfield : readField N offset key name m with
        | error e =>
          rw [hfield] at h
          cases h
        | ok s =>
          rw [hfield] at h
          exact ⟨fun _ => (ih h).1 rfl, (ih h).2⟩
      · cases hfield : readField N offset key token m with
        | error e =>
          rw [hfield] at h
          cases h
        | ok s =>
          rw [hfield] at h
          exact ⟨(ih h).1, fun _ => (ih h).2 rfl⟩

/-- Before the token stands nothing, or the name. -/
def NameOnly (pre : List RawMember) : Prop :=
  pre = [] ∨ ∃ m s name, pre = [m] ∧ m.key.value = .ok "name" ∧ m.value = .string s ∧ s.value = .ok name

variable {pre post : List RawMember} {m : RawMember} {v v' : RawValue}

theorem string_of_readString {s : String} (h : v.readString N = .ok s) :
    ∃ raw : RawString, v = .string raw ∧ raw.value = .ok s := by
  cases v with
  | string raw => exact ⟨raw, rfl, h⟩
  | null | bool | number | array | object => cases h

/-- Behind the name no field but the token is read. -/
theorem eq_nil_of_readFields {offset offset' : ℕ} {s : String} {name : Option String}
    (h : readFields N offset (some s) none pre = .ok (name, none, offset')) : pre = [] := by
  cases pre with
  | nil => rfl
  | cons m ms =>
    simp only [readFields] at h
    cases hkey : m.key.value with
    | error e =>
      rw [hkey] at h
      cases h
    | ok key =>
      simp only [hkey] at h
      split_ifs at h
      · cases h
      · cases hfield : readField N offset key none m with
        | error e =>
          rw [hfield] at h
          cases h
        | ok t =>
          rw [hfield] at h
          cases (found_of_readFields h).2 rfl

/-- Members without a token that are read are the name, or none. -/
theorem nameOnly_of_readFields {offset offset' : ℕ} {name : Option String}
    (h : readFields N offset none none pre = .ok (name, none, offset')) : NameOnly pre := by
  cases pre with
  | nil => exact Or.inl rfl
  | cons m ms =>
    simp only [readFields] at h
    cases hkey : m.key.value with
    | error e =>
      rw [hkey] at h
      cases h
    | ok key =>
      simp only [hkey] at h
      split_ifs at h with hname
      · cases hfield : readField N offset key none m with
        | error e =>
          rw [hfield] at h
          cases h
        | ok s =>
          rw [hfield] at h
          obtain ⟨raw, hraw, hvalue⟩ := string_of_readString (readField_eq_ok.1 hfield).2
          obtain rfl := eq_nil_of_readFields h
          exact Or.inr ⟨m, raw, s, rfl, by rw [hkey, hname], hraw, hvalue⟩
      · cases hfield : readField N offset key none m with
        | error e =>
          rw [hfield] at h
          cases h
        | ok t =>
          rw [hfield] at h
          cases (found_of_readFields h).2 rfl

theorem readFields_nameOnly (h : NameOnly pre) (offset : ℕ) :
    ∃ name offset', readFields N offset none none pre = .ok (name, none, offset') := by
  rcases h with rfl | ⟨m, s, name, rfl, hkey, hvalue, hs⟩
  · exact ⟨none, offset, rfl⟩
  · refine ⟨some name, offset + m.size, ?_⟩
    have hread : m.value.readString N = .ok name := by rw [hvalue]; exact hs
    simp only [readFields, hkey, if_true, readField_eq_ok.2 ⟨rfl, hread⟩]

/-! ## The token -/

/-- Behind the members before it the token is refused. -/
theorem readFields_refused (hkey : m.key.value = .ok "token") {offset offset' read : ℕ}
    {name : Option String} {message : String}
    (hpre : readFields N offset none none pre = .ok (name, none, offset'))
    (hv : v.readString N = .error (message, read)) :
    readFields N offset none none (pre ++ m.put v :: post) =
      .error (atColumn message (offset' + m.toValue + read)) := by
  have hname : ("token" : String) ≠ "name" := by decide
  rw [readFields_append, hpre]
  simp only [Except.bind, readFields, RawMember.put, hkey, if_neg hname, if_true]
  simp only [readField, Option.isSome_none, Bool.false_eq_true, if_false, hv]
  rfl

/-- Behind the members before it the token is read, and then the rest. -/
theorem readFields_read (hkey : m.key.value = .ok "token") {offset offset' : ℕ} {name : Option String}
    {s : String} (hpre : readFields N offset none none pre = .ok (name, none, offset'))
    (hv : v.readString N = .ok s) :
    readFields N offset none none (pre ++ m.put v :: post) =
      readFields N (offset' + (m.put v).size) name (some s) post := by
  have hname : ("token" : String) ≠ "name" := by decide
  have hfield : readField N offset' "token" none (m.put v) = .ok s := readField_eq_ok.2 ⟨rfl, hv⟩
  rw [readFields_append, hpre]
  simp only [Except.bind, readFields, show (m.put v).key.value = .ok "token" from hkey, if_neg hname,
    if_true, hfield]

theorem size_put (hform : SameForm v v') : (m.put v).size = (m.put v').size := by
  simp only [RawMember.size, RawMember.put, RawMember.toValue, RawMember.toColon, hform.length]

/-- The fields are read alike. -/
theorem readFields_present (hkey : m.key.value = .ok "token") (hform : SameForm v v')
    (hsame : NameOnly pre → Indistinct N v v') (offset : ℕ) :
    (readFields N offset none none (pre ++ m.put v :: post)).map hideToken =
      (readFields N offset none none (pre ++ m.put v' :: post)).map hideToken := by
  have hname : ("token" : String) ≠ "name" := by decide
  cases hpre : readFields N offset none none pre with
  | error e => rw [readFields_append, readFields_append, hpre]; rfl
  | ok r =>
    obtain ⟨name, token, offset'⟩ := r
    cases token with
    | some t =>
      have hrefused : ∀ v, readFields N offset none none (pre ++ m.put v :: post) =
          .error (atColumn (duplicateField "token") (offset' + m.toColon)) := by
        intro v
        rw [readFields_append, hpre]
        simp only [Except.bind, readFields, RawMember.put, hkey, if_neg hname, if_true]
        rfl
      rw [hrefused, hrefused]
    | none =>
      rcases readString_of_sameForm hform (hsame (nameOnly_of_readFields hpre)) with
        ⟨⟨message, read⟩, hv, hv'⟩ | ⟨s, s', hv, hv'⟩
      · rw [readFields_refused hkey hpre hv, readFields_refused hkey hpre hv']
      · rw [readFields_read hkey hpre hv, readFields_read hkey hpre hv', size_put hform]
        exact readFields_hidden _ _ (by rw [Option.isSome_some, Option.isSome_some]) post

/-! ## The whole line -/

variable {line : HelloLine} {early : List Char → String}

/-- Fields that are the same but for the token make up lines that are. -/
theorem sameButToken_finish {r r' : Except String (Option String × Option String × ℕ)}
    (h : r.map hideToken = r'.map hideToken) : SameButToken (r.bind line.finish) (r'.bind line.finish) := by
  cases r with
  | error e =>
    cases r' with
    | error e' => exact Or.inl (congrArg _ (Except.error.inj h))
    | ok r' => cases h
  | ok r =>
    cases r' with
    | error e' => cases h
    | ok r' =>
      obtain ⟨name, token, offset⟩ := r
      obtain ⟨name', token', offset'⟩ := r'
      obtain ⟨rfl, htoken, rfl⟩ : name = name' ∧ token.isSome = token'.isSome ∧ offset = offset' := by
        simpa [Except.map, hideToken] using h
      cases name with
      | none => exact Or.inl rfl
      | some n =>
        cases token with
        | none =>
          cases token' with
          | none => exact Or.inl rfl
          | some t' => cases htoken
        | some t =>
          cases token' with
          | none => cases htoken
          | some t' =>
            simp only [Except.bind, HelloLine.finish]
            split_ifs
            · exact Or.inr ⟨n, t, t', rfl, rfl⟩
            · exact Or.inl rfl

/-- Two lines of one form are refused alike, or decode to the same but for the token. -/
theorem sameButToken_derive (hkey : m.key.value = .ok "token") (hform : SameForm v v')
    (hsame : line.earlier = [] → NameOnly pre → Indistinct N v v') :
    SameButToken ((line.present pre m post v).derive N early)
      ((line.present pre m post v').derive N early) := by
  unfold HelloLine.derive
  by_cases hearlier : line.earlier = []
  · rw [if_pos (show (line.present pre m post v).earlier = [] from hearlier),
      if_pos (show (line.present pre m post v').earlier = [] from hearlier)]
    exact sameButToken_finish (readFields_present hkey hform (hsame hearlier) _)
  · rw [if_neg (show (line.present pre m post v).earlier ≠ [] from hearlier),
      if_neg (show (line.present pre m post v').earlier ≠ [] from hearlier)]
    exact Or.inl rfl

theorem column_of_finish {r : Option String × Option String × ℕ} {e : String}
    (h : line.finish r = .error e) : ∃ message column, e = atColumn message column ∧ r.2.2 ≤ column := by
  obtain ⟨name, token, offset⟩ := r
  cases name with
  | none => exact ⟨_, _, (Except.error.inj h).symm, le_rfl⟩
  | some n =>
    cases token with
    | none => exact ⟨_, _, (Except.error.inj h).symm, le_rfl⟩
    | some t =>
      simp only [HelloLine.finish] at h
      split_ifs at h
      exact ⟨_, _, (Except.error.inj h).symm, Nat.le_add_right _ _⟩

/-- If the derive comes to the token, equal messages mean that the tokens are not told apart. -/
theorem indistinct_of_derive (hkey : m.key.value = .ok "token") (hform : SameForm v v')
    (hearlier : line.earlier = []) (hpre : NameOnly pre)
    (hsame : ∀ e, (line.present pre m post v).derive N early = .error e ↔
      (line.present pre m post v').derive N early = .error e) : Indistinct N v v' := by
  obtain ⟨name, offset, hfields⟩ := readFields_nameOnly hpre (byteLength line.head)
  have hderive : ∀ v, (line.present pre m post v).derive N early =
      (readFields N (byteLength line.head) none none (pre ++ m.put v :: post)).bind line.finish :=
    fun v => if_pos hearlier
  -- What is said of a token that is refused.
  have hrefused : ∀ v message read, v.readString N = .error (message, read) →
      (line.present pre m post v).derive N early = .error (atColumn message (offset + m.toValue + read)) := by
    intro v message read hv
    rw [hderive, readFields_refused hkey hfields hv]
    rfl
  -- What is said behind a token that is read names a later column.
  have hread : ∀ v s e, v.readString N = .ok s → (line.present pre m post v).derive N early = .error e →
      ∃ message column, e = atColumn message column ∧ offset + (m.put v).size ≤ column := by
    intro v s e hv he
    rw [hderive, readFields_read hkey hfields hv] at he
    cases hrest : readFields N (offset + (m.put v).size) name (some s) post with
    | error e' =>
      rw [hrest] at he
      obtain ⟨message, column, rfl, hle⟩ := column_of_readFields.1 e' hrest
      exact ⟨message, column, (Except.error.inj he).symm, hle⟩
    | ok r =>
      rw [hrest] at he
      obtain ⟨message, column, rfl, hle⟩ := column_of_finish he
      exact ⟨message, column, rfl, (column_of_readFields.2 r hrest).trans hle⟩
  have hequal : ∀ e e', v.readString N = .error e → v'.readString N = .error e' → e = e' := by
    rintro ⟨message, read⟩ ⟨message', read'⟩ hv hv'
    have := Except.error.inj (((hsame _).1 (hrefused v _ _ hv)).symm.trans (hrefused v' _ _ hv'))
    obtain ⟨rfl, hcolumn⟩ := atColumn_inj this
    rw [Nat.add_left_cancel hcolumn]
  have hapart : ∀ (s : RawString) (w : RawValue) e t, s.value = .error e → w.readString N = .ok t →
      byteLength s.text = byteLength w.text →
      ¬ ∀ e, (line.present pre m post (.string s)).derive N early = .error e →
        (line.present pre m post w).derive N early = .error e := by
    rintro s w ⟨message, read⟩ t hs hw hlength himp
    obtain ⟨message', column, he, hle⟩ := hread w t _ hw (himp _ (hrefused (.string s) _ _ hs))
    obtain ⟨-, rfl⟩ := atColumn_inj he
    have hstops : read ≤ byteLength s.text := s.stops _ _ hs
    have hsize : (m.put w).size = m.toValue + byteLength w.text + byteLength m.after.1 + 1 := rfl
    omega
  cases v with
  | number l =>
    cases v' with
    | number l' => exact (refusal_eq_iff hform.length).1 (hequal _ _ rfl rfl)
    | null | bool | string | array | object => trivial
  | string s =>
    cases v' with
    | string s' =>
      simp only [Indistinct, RawString.refusal]
      cases hs : s.value with
      | error e =>
        cases hs' : s'.value with
        | error e' => exact congrArg some (hequal e e' hs hs')
        | ok t' => exact absurd (fun e => (hsame e).1) (hapart s (.string s') e t' hs hs' hform.length)
      | ok t =>
        cases hs' : s'.value with
        | error e' =>
          exact absurd (fun e => (hsame e).2) (hapart s' (.string s) e' t hs' hs hform.length.symm)
        | ok t' => rfl
    | null | bool | number | array | object => trivial
  | null | bool | array | object => trivial

end AgentHub
