import AgentHub.Lib.JsonReader
import Mathlib.Data.List.Forall2
import Mathlib.Data.List.Perm.Basic
import Mathlib.Data.List.Nodup
import Mathlib.Data.Rat.Defs
import Mathlib.Algebra.Order.Field.Rat

/-!
# Documents that say the same

Two documents are alike (`Json.Like`) when they differ in the order of members and in their
numbers, which are related in a way that is a parameter. With the numbers they stand for
(`Literal.value`) as that relation, documents that are alike say the same.

Alike is composed (`Like.comp`). Where no key is repeated, what a document is alike to in two
ways it is alike to in both at once (`Like.and`), so each of its numbers is related in both
ways to one number (`Like.exists_literal`).
-/

/-! ## What numbers stand for -/

/-- The integer behind the letter of an exponent. -/
def exponentValue (cs : List Char) : ℤ :=
  match cs with
  | _ :: '-' :: ds => -(Nat.ofDigitChars 10 ds 0 : ℤ)
  | _ :: '+' :: ds => Nat.ofDigitChars 10 ds 0
  | _ :: ds => Nat.ofDigitChars 10 ds 0
  | [] => 0

/-- The number that is written. -/
def Numeral.value (n : Numeral) : ℚ :=
  (if n.neg then -1 else 1) * (Nat.ofDigitChars 10 (n.int ++ n.frac) 0 : ℚ) *
    10 ^ (exponentValue n.exp - n.frac.length)

theorem Numeral.value_of_int? {n : Numeral} {z : ℤ} (h : n.int? = some z) : n.value = z := by
  unfold Numeral.int? at h
  split_ifs at h with hint hneg
  · rw [← Option.some.inj h]
    simp [value, hint.1, hint.2, hneg, exponentValue]
  · rw [← Option.some.inj h]
    simp [value, hint.1, hint.2, hneg, exponentValue]

namespace Json

/-! ## Alike -/

/-- The documents are the same but for the order of members and for numbers, which are related
by `ρ`. -/
inductive Like (ρ : Literal → Literal → Prop) : Json → Json → Prop
  | null : Like ρ .null .null
  | bool (b : Bool) : Like ρ (.bool b) (.bool b)
  | number {l l' : Literal} (h : ρ l l') : Like ρ (.number l) (.number l')
  | string (s : String) : Like ρ (.string s) (.string s)
  | array {items items' : List Json} (h : List.Forall₂ (Like ρ) items items') :
      Like ρ (.array items) (.array items')
  | object {ms ms' ms'' : List (String × Json)} (hkeys : ms.map Prod.fst = ms'.map Prod.fst)
      (h : List.Forall₂ (Like ρ) (ms.map Prod.snd) (ms'.map Prod.snd)) (hperm : ms'.Perm ms'') :
      Like ρ (.object ms) (.object ms'')

mutual

/-- No object repeats a key. -/
def NoRepeats : Json → Prop
  | .array items => NoRepeatsItems items
  | .object ms => (ms.map Prod.fst).Nodup ∧ NoRepeatsMembers ms
  | _ => True

def NoRepeatsItems : List Json → Prop
  | [] => True
  | j :: js => NoRepeats j ∧ NoRepeatsItems js

def NoRepeatsMembers : List (String × Json) → Prop
  | [] => True
  | m :: ms => NoRepeatsMember m ∧ NoRepeatsMembers ms

def NoRepeatsMember : String × Json → Prop
  | (_, j) => NoRepeats j

end

mutual

/-- The numbers of a document. -/
def literals : Json → List Literal
  | .number l => [l]
  | .array items => literalsItems items
  | .object ms => literalsMembers ms
  | _ => []

def literalsItems : List Json → List Literal
  | [] => []
  | j :: js => literals j ++ literalsItems js

def literalsMembers : List (String × Json) → List Literal
  | [] => []
  | m :: ms => literalsMember m ++ literalsMembers ms

def literalsMember : String × Json → List Literal
  | (_, j) => literals j

end

theorem noRepeats_array {items : List Json} :
    (array items).NoRepeats ↔ ∀ j ∈ items, j.NoRepeats := by
  rw [NoRepeats]
  induction items with
  | nil => simp [NoRepeatsItems]
  | cons j js ih => rw [NoRepeatsItems, ih, List.forall_mem_cons]

theorem noRepeats_object {ms : List (String × Json)} :
    (object ms).NoRepeats ↔ (ms.map Prod.fst).Nodup ∧ ∀ m ∈ ms, m.2.NoRepeats := by
  rw [NoRepeats]
  refine and_congr Iff.rfl ?_
  induction ms with
  | nil => simp [NoRepeatsMembers]
  | cons m ms ih =>
    obtain ⟨key, j⟩ := m
    rw [NoRepeatsMembers, NoRepeatsMember, ih, List.forall_mem_cons]

theorem literals_array (items : List Json) : (array items).literals = items.flatMap literals := by
  rw [literals]
  induction items with
  | nil => rfl
  | cons j js ih => rw [literalsItems, ih, List.flatMap_cons]

theorem literals_object (ms : List (String × Json)) :
    (object ms).literals = ms.flatMap fun m => m.2.literals := by
  rw [literals]
  induction ms with
  | nil => rfl
  | cons m ms ih =>
    obtain ⟨key, j⟩ := m
    rw [literalsMembers, literalsMember, ih, List.flatMap_cons]

/-! ## Members -/

/-- Members with one key, and with documents that are alike. -/
def MemberLike (ρ : Literal → Literal → Prop) (m m' : String × Json) : Prop :=
  m.1 = m'.1 ∧ Like ρ m.2 m'.2

variable {ρ σ : Literal → Literal → Prop}

theorem forall₂_memberLike {ms ms' : List (String × Json)} :
    List.Forall₂ (MemberLike ρ) ms ms' ↔ ms.map Prod.fst = ms'.map Prod.fst ∧
      List.Forall₂ (Like ρ) (ms.map Prod.snd) (ms'.map Prod.snd) := by
  rw [List.forall₂_map_left_iff, List.forall₂_map_right_iff]
  constructor
  · intro h
    refine ⟨?_, h.imp fun _ _ hm => hm.2⟩
    induction h with
    | nil => rfl
    | cons hm _ ih => rw [List.map_cons, List.map_cons, hm.1, ih]
  · rintro ⟨hkeys, h⟩
    induction h with
    | nil => exact .nil
    | cons hm _ ih =>
      obtain ⟨hkey, hkeys⟩ := List.cons.inj hkeys
      exact .cons ⟨hkey, hm⟩ (ih hkeys)

theorem like_object {ms : List (String × Json)} {d : Json} : Like ρ (.object ms) d ↔
    ∃ ms' ms'', d = .object ms'' ∧ List.Forall₂ (MemberLike ρ) ms ms' ∧ ms'.Perm ms'' := by
  constructor
  · rintro ⟨⟩
    exact ⟨_, _, rfl, forall₂_memberLike.2 ⟨‹_›, ‹_›⟩, ‹_›⟩
  · rintro ⟨ms', ms'', rfl, h, hperm⟩
    exact .object (forall₂_memberLike.1 h).1 (forall₂_memberLike.1 h).2 hperm

theorem like_array {items : List Json} {d : Json} : Like ρ (.array items) d ↔
    ∃ items', d = .array items' ∧ List.Forall₂ (Like ρ) items items' := by
  constructor
  · rintro ⟨⟩
    exact ⟨_, rfl, ‹_›⟩
  · rintro ⟨items', rfl, h⟩
    exact .array h

theorem like_number {l : Literal} {d : Json} : Like ρ (.number l) d ↔ ∃ l', d = .number l' ∧ ρ l l' := by
  constructor
  · rintro ⟨⟩
    exact ⟨_, rfl, ‹_›⟩
  · rintro ⟨l', rfl, h⟩
    exact .number h

/-! ## Laws -/

theorem forall₂_of_forall {α β : Type} {R R' : α → β → Prop} {l : List α} {l' : List β}
    (h : List.Forall₂ R l l') (himp : ∀ a ∈ l, ∀ b, R a b → R' a b) : List.Forall₂ R' l l' := by
  induction h with
  | nil => exact .nil
  | cons hab _ ih =>
    obtain ⟨ha, hl⟩ := List.forall_mem_cons.1 himp
    exact .cons (ha _ hab) (ih hl)

theorem forall₂_mem_left {α β : Type} {R : α → β → Prop} {l : List α} {l' : List β}
    (h : List.Forall₂ R l l') {a : α} (ha : a ∈ l) : ∃ b ∈ l', R a b := by
  induction h with
  | nil => cases ha
  | cons hab _ ih =>
    rcases List.mem_cons.1 ha with rfl | ha
    · exact ⟨_, List.mem_cons_self, hab⟩
    · obtain ⟨b, hb, hR⟩ := ih ha
      exact ⟨b, List.mem_cons_of_mem _ hb, hR⟩

/-- What relates the numbers of a document may be weakened. -/
theorem Like.mono {j d : Json} (h : Like ρ j d) (himp : ∀ l ∈ j.literals, ∀ l', ρ l l' → σ l l') :
    Like σ j d := by
  induction j using Json.induct generalizing d with
  | null | bool | string => cases h; constructor
  | number l =>
    obtain ⟨l', rfl, hl⟩ := like_number.1 h
    exact .number (himp l (by simp [literals]) l' hl)
  | array items ih =>
    obtain ⟨items', rfl, hitems⟩ := like_array.1 h
    refine .array (forall₂_of_forall hitems fun j hj d hd => ih j hj hd fun l hl => himp l ?_)
    rw [literals_array]
    exact List.mem_flatMap.2 ⟨j, hj, hl⟩
  | object ms ih =>
    obtain ⟨ms', ms'', rfl, hms, hperm⟩ := like_object.1 h
    refine like_object.2 ⟨ms', ms'', rfl, forall₂_of_forall hms fun m hm m' hm' => ?_, hperm⟩
    refine ⟨hm'.1, ih m hm hm'.2 fun l hl => himp l ?_⟩
    rw [literals_object]
    exact List.mem_flatMap.2 ⟨m, hm, hl⟩

/-- Lists that are related in two steps, where the elements of the first are. -/
theorem forall₂_comp {α : Type} {R R' R'' : α → α → Prop} {l l' l'' : List α}
    (h : List.Forall₂ R l l') (h' : List.Forall₂ R' l' l'')
    (himp : ∀ a ∈ l, ∀ b c, R a b → R' b c → R'' a c) : List.Forall₂ R'' l l'' := by
  induction h generalizing l'' with
  | nil => cases h'; exact .nil
  | cons hab _ ih =>
    obtain ⟨c, cs, hbc, hrest, rfl⟩ := List.forall₂_cons_left_iff.1 h'
    obtain ⟨ha, hl⟩ := List.forall_mem_cons.1 himp
    exact .cons (ha _ _ hab hbc) (ih hrest hl)

/-- Documents that are alike in two steps. -/
theorem Like.comp {j d k : Json} (h : Like ρ j d) (h' : Like σ d k) :
    Like (fun l l'' => ∃ l', ρ l l' ∧ σ l' l'') j k := by
  induction j using Json.induct generalizing d k with
  | null | bool | string => cases h; cases h'; constructor
  | number l =>
    obtain ⟨l', rfl, hl⟩ := like_number.1 h
    obtain ⟨l'', rfl, hl'⟩ := like_number.1 h'
    exact .number ⟨l', hl, hl'⟩
  | array items ih =>
    obtain ⟨items', rfl, hitems⟩ := like_array.1 h
    obtain ⟨items'', rfl, hitems'⟩ := like_array.1 h'
    exact .array (forall₂_comp hitems hitems' fun j hj d k hd hk => ih j hj hd hk)
  | object ms ih =>
    obtain ⟨ms', ms₁, rfl, hms, hperm⟩ := like_object.1 h
    obtain ⟨ms₂, ms₃, rfl, hms₂, hperm'⟩ := like_object.1 h'
    obtain ⟨ms'', hms'', hperm''⟩ := List.perm_comp_forall₂ hperm hms₂
    refine like_object.2 ⟨ms'', ms₃, rfl, ?_, hperm''.trans hperm'⟩
    exact forall₂_comp hms hms'' fun m hm m' m'' hm' hm'' =>
      ⟨hm'.1.trans hm''.1, ih m hm hm'.2 hm''.2⟩

/-- Members with the same keys in order, none of them repeated, are the same. -/
theorem eq_of_perm_of_keys {α β : Type} {ms ms' : List (α × β)} (hperm : ms.Perm ms')
    (hkeys : ms.map Prod.fst = ms'.map Prod.fst) (hnodup : (ms.map Prod.fst).Nodup) : ms = ms' := by
  induction ms generalizing ms' with
  | nil => exact (List.nil_perm.1 hperm).symm
  | cons m ms ih =>
    cases ms' with
    | nil => simp at hkeys
    | cons m' ms' =>
      obtain ⟨-, hrest⟩ := List.cons.inj hkeys
      obtain ⟨hnotin, hnodup⟩ := List.nodup_cons.1 hnodup
      obtain rfl : m = m' := by
        refine (List.mem_cons.1 (hperm.subset List.mem_cons_self)).resolve_right fun hm => hnotin ?_
        rw [hrest]
        exact List.mem_map_of_mem hm
      rw [ih hperm.cons_inv hrest hnodup]

/-- A document without repeated keys that is alike to another in two ways is so in both at
once. -/
theorem Like.and {j d : Json} (h : Like ρ j d) (h' : Like σ j d) (hj : j.NoRepeats) :
    Like (fun l l' => ρ l l' ∧ σ l l') j d := by
  induction j using Json.induct generalizing d with
  | null | bool | string => cases h; constructor
  | number l =>
    obtain ⟨l', rfl, hl⟩ := like_number.1 h
    obtain ⟨l'', heq, hl'⟩ := like_number.1 h'
    obtain rfl := Json.number.inj heq
    exact .number ⟨hl, hl'⟩
  | array items ih =>
    obtain ⟨items', rfl, hitems⟩ := like_array.1 h
    obtain ⟨items'', heq, hitems'⟩ := like_array.1 h'
    obtain rfl := Json.array.inj heq
    have hboth : List.Forall₂ (fun j d => Like ρ j d ∧ Like σ j d) items items' :=
      hitems.mp (fun _ _ hρ hσ => ⟨hρ, hσ⟩) hitems'
    refine .array (forall₂_of_forall hboth fun j hmem d hd => ?_)
    exact ih j hmem hd.1 hd.2 (noRepeats_array.1 hj j hmem)
  | object ms ih =>
    obtain ⟨hnodup, hms⟩ := noRepeats_object.1 hj
    obtain ⟨ms₁, ms₂, rfl, hms₁, hperm⟩ := like_object.1 h
    obtain ⟨ms₃, ms₄, heq, hms₃, hperm'⟩ := like_object.1 h'
    obtain rfl := Json.object.inj heq
    have hkeys₁ := (forall₂_memberLike.1 hms₁).1
    have hkeys₃ := (forall₂_memberLike.1 hms₃).1
    obtain rfl : ms₁ = ms₃ := eq_of_perm_of_keys (hperm.trans hperm'.symm) (hkeys₁.symm.trans hkeys₃)
      (hkeys₁ ▸ hnodup)
    have hboth : List.Forall₂ (fun m m' => MemberLike ρ m m' ∧ MemberLike σ m m') ms ms₁ :=
      hms₁.mp (fun _ _ hρ hσ => ⟨hρ, hσ⟩) hms₃
    refine like_object.2 ⟨ms₁, ms₂, rfl, forall₂_of_forall hboth fun m hm m' hm' => ?_, hperm⟩
    exact ⟨hm'.1.1, ih m hm hm'.1.2 hm'.2.2 (hms m hm)⟩

/-- Each number of a document has a counterpart. -/
theorem Like.exists_literal {j d : Json} (h : Like ρ j d) {l : Literal} (hl : l ∈ j.literals) :
    ∃ l', ρ l l' := by
  induction j using Json.induct generalizing d with
  | null | bool | string => simp [literals] at hl
  | number n =>
    obtain rfl : l = n := by simpa [literals] using hl
    obtain ⟨l', -, hl'⟩ := like_number.1 h
    exact ⟨l', hl'⟩
  | array items ih =>
    obtain ⟨items', rfl, hitems⟩ := like_array.1 h
    rw [literals_array] at hl
    obtain ⟨j, hj, hl⟩ := List.mem_flatMap.1 hl
    obtain ⟨d, -, hd⟩ := forall₂_mem_left hitems hj
    exact ih j hj hd hl
  | object ms ih =>
    obtain ⟨ms', ms'', rfl, hms, -⟩ := like_object.1 h
    rw [literals_object] at hl
    obtain ⟨m, hm, hl⟩ := List.mem_flatMap.1 hl
    obtain ⟨m', -, hm'⟩ := forall₂_mem_left hms hm
    exact ih m hm hm'.2 hl

/-- A document that is alike to one without repeated keys has none. -/
theorem Like.noRepeats {j d : Json} (h : Like ρ j d) (hd : d.NoRepeats) : j.NoRepeats := by
  induction j using Json.induct generalizing d with
  | null | bool | number | string => simp [NoRepeats]
  | array items ih =>
    obtain ⟨items', rfl, hitems⟩ := like_array.1 h
    refine noRepeats_array.2 fun j hj => ?_
    obtain ⟨d', hd', hlike⟩ := forall₂_mem_left hitems hj
    exact ih j hj hlike (noRepeats_array.1 hd d' hd')
  | object ms ih =>
    obtain ⟨ms', ms'', rfl, hms, hperm⟩ := like_object.1 h
    obtain ⟨hnodup, hmembers⟩ := noRepeats_object.1 hd
    refine noRepeats_object.2 ⟨?_, fun m hm => ?_⟩
    · rw [(forall₂_memberLike.1 hms).1]
      exact (hperm.map Prod.fst).nodup_iff.2 hnodup
    · obtain ⟨m', hm', hlike⟩ := forall₂_mem_left hms hm
      exact ih m hm hlike.2 (hmembers m' (hperm.subset hm'))

end Json
