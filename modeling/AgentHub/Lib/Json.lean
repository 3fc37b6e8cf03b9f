import Mathlib.Data.List.Basic
import Mathlib.Data.Int.Order.Basic

/-!
# JSON documents

A JSON text says more than the value it stands for : the members of an object have an order
and can repeat, and a number is written in one of many ways. `Json` keeps all of that, but
for white space and for the escapes of a string. `Json.text` is the compact text of a
document, with the escapes that a control character, a quote and a backslash need.

A text has no control character (`Json.text_notMem`), so a document stands on one line.
-/

/-! ## Numbers -/

/-- The part of a number behind its integer and fraction digits : nothing, or a letter, a sign
perhaps, and digits. -/
def isExponent : List Char → Bool
  | [] => true
  | e :: ds =>
    let ds := if ds.head? = some '+' ∨ ds.head? = some '-' then ds.tail else ds
    (e = 'e' || e = 'E') && ds ≠ [] && ds.all Char.isDigit

/-- The parts of a number : its sign, the digits before and behind the point, and the exponent
with its letter. -/
structure Numeral where
  neg : Bool
  int : List Char
  frac : List Char
  exp : List Char
  deriving DecidableEq, Repr

namespace Numeral

/-- A first digit `0` is the only one before the point. -/
def Valid (n : Numeral) : Prop :=
  n.int.all Char.isDigit = true ∧ n.int ≠ [] ∧ (n.int.head? = some '0' → n.int = ['0']) ∧
    n.frac.all Char.isDigit = true ∧ isExponent n.exp = true

instance (n : Numeral) : Decidable n.Valid :=
  inferInstanceAs (Decidable (_ ∧ _))

def text (n : Numeral) : List Char :=
  (if n.neg then ['-'] else []) ++ n.int ++ (if n.frac = [] then [] else '.' :: n.frac) ++ n.exp

/-- The parts behind the sign. -/
def splitDigits (neg : Bool) (cs : List Char) : Numeral where
  neg := neg
  int := cs.takeWhile Char.isDigit
  frac := if (cs.dropWhile Char.isDigit).head? = some '.' then
    (cs.dropWhile Char.isDigit).tail.takeWhile Char.isDigit else []
  exp := if (cs.dropWhile Char.isDigit).head? = some '.' then
    (cs.dropWhile Char.isDigit).tail.dropWhile Char.isDigit else cs.dropWhile Char.isDigit

def split (cs : List Char) : Numeral :=
  if cs.head? = some '-' then splitDigits true cs.tail else splitDigits false cs

end Numeral

/-- A number as it is written. -/
structure Literal extends Numeral where
  valid : toNumeral.Valid
  deriving DecidableEq, Repr

/-- The number with a text. -/
def Literal.ofText (cs : List Char) : Option Literal :=
  if h : (Numeral.split cs).Valid ∧ (Numeral.split cs).text = cs then
    some ⟨Numeral.split cs, h.1⟩
  else none

section

variable {n : Numeral}

theorem isExponent_head {cs : List Char} (h : isExponent cs = true) :
    cs = [] ∨ cs.head? = some 'e' ∨ cs.head? = some 'E' := by
  cases cs with
  | nil => exact Or.inl rfl
  | cons e ds =>
    simp only [isExponent, Bool.and_eq_true, Bool.or_eq_true, decide_eq_true_eq] at h
    rcases h.1.1 with rfl | rfl
    · exact Or.inr (Or.inl rfl)
    · exact Or.inr (Or.inr rfl)

/-- A run of digits ends where no digit stands. -/
theorem takeWhile_digits {ds cs : List Char} (hds : ds.all Char.isDigit = true)
    (hcs : ∀ c, cs.head? = some c → c.isDigit = false) :
    (ds ++ cs).takeWhile Char.isDigit = ds ∧ (ds ++ cs).dropWhile Char.isDigit = cs := by
  have hall : ∀ c ∈ ds, c.isDigit = true := by simpa using hds
  rw [List.takeWhile_append_of_pos hall, List.dropWhile_append_of_pos hall]
  cases cs with
  | nil => simp
  | cons c cs => simp [hcs c rfl]

/-- The parts of a number's text are those of the number. -/
theorem Numeral.split_text (h : n.Valid) : Numeral.split n.text = n := by
  obtain ⟨hint, hne, -, hfrac, hexp⟩ := h
  obtain ⟨neg, int, frac, exp⟩ := n
  dsimp only at hint hne hfrac hexp
  have hexp_head : ∀ c, exp.head? = some c → c.isDigit = false ∧ c ≠ '.' := by
    intro c hc
    rcases isExponent_head hexp with rfl | he | he
    · simp at hc
    · obtain rfl := Option.some.inj (he.symm.trans hc)
      decide
    · obtain rfl := Option.some.inj (he.symm.trans hc)
      decide
  have hdigits : Numeral.splitDigits neg (int ++ ((if frac = [] then [] else '.' :: frac) ++ exp)) =
      ⟨neg, int, frac, exp⟩ := by
    by_cases hfrac_nil : frac = []
    · obtain ⟨htake, hdrop⟩ := takeWhile_digits hint fun c hc => (hexp_head c hc).1
      have hpoint : exp.head? ≠ some '.' := fun hc => (hexp_head _ hc).2 rfl
      simp only [hfrac_nil, if_true, List.nil_append, splitDigits, htake, hdrop, if_neg hpoint]
    · have hpoint : ∀ c, ('.' :: (frac ++ exp)).head? = some c → c.isDigit = false :=
        fun c hc => Option.some.inj hc ▸ rfl
      obtain ⟨htake, hdrop⟩ := takeWhile_digits hint hpoint
      obtain ⟨htake', hdrop'⟩ := takeWhile_digits hfrac fun c hc => (hexp_head c hc).1
      simp only [if_neg hfrac_nil, List.cons_append, splitDigits, htake, hdrop, List.head?_cons,
        List.tail_cons, if_true, htake', hdrop']
  cases neg with
  | true => simpa [Numeral.text, Numeral.split] using hdigits
  | false =>
    obtain ⟨d, ds, rfl⟩ := List.exists_cons_of_ne_nil hne
    have hd : d ≠ '-' := by
      rintro rfl
      simp at hint
    simpa [Numeral.text, Numeral.split, hd] using hdigits

theorem Literal.ofText_text (n : Literal) : Literal.ofText n.text = some n := by
  unfold Literal.ofText
  rw [dif_pos ⟨by rw [Numeral.split_text n.valid]; exact n.valid, by rw [Numeral.split_text n.valid]⟩]
  simp only [Numeral.split_text n.valid]

end

/-! ## Integers -/

/-- The integer a number without point and exponent stands for. -/
def Numeral.int? (n : Numeral) : Option ℤ :=
  if n.frac = [] ∧ n.exp = [] then
    some (if n.neg then -(Nat.ofDigitChars 10 n.int 0 : ℤ) else Nat.ofDigitChars 10 n.int 0)
  else none

theorem toDigits_head (n : ℕ) : (Nat.toDigits 10 n).head? = some '0' → Nat.toDigits 10 n = ['0'] := by
  induction n using Nat.strongRecOn with
  | ind n ih =>
    intro h
    by_cases hn : n < 10
    · rw [Nat.toDigits_of_lt_base hn] at h ⊢
      simpa using h
    · have hsplit := Nat.toDigits_of_base_le (b := 10) (by decide) (by omega : 10 ≤ n)
      have hhead : (Nat.toDigits 10 (n / 10)).head? = some '0' := by
        rwa [hsplit, List.head?_append_of_ne_nil _ Nat.toDigits_ne_nil] at h
      have hzero := ih (n / 10) (by omega) hhead
      have hvalue := Nat.ofDigitChars_toDigits (b := 10) (n := n / 10) (by decide) (by decide)
      rw [hzero] at hvalue
      simp [Nat.ofDigitChars] at hvalue
      omega

/-- An integer, in its decimal digits. -/
def Literal.ofInt (z : ℤ) : Literal where
  neg := z < 0
  int := Nat.toDigits 10 z.natAbs
  frac := []
  exp := []
  valid := ⟨List.all_eq_true.2 fun _ hc => Nat.isDigit_of_mem_toDigits (by decide) (by decide) hc,
    Nat.toDigits_ne_nil, toDigits_head _, rfl, rfl⟩

@[simp] theorem Literal.int?_ofInt (z : ℤ) : (Literal.ofInt z).int? = some z := by
  have hint : (Literal.ofInt z).int = Nat.toDigits 10 z.natAbs := rfl
  rw [Numeral.int?, if_pos ⟨rfl, rfl⟩, hint, Nat.ofDigitChars_toDigits (by decide) (by decide),
    Option.some.injEq]
  by_cases hz : z < 0
  · have hneg : (Literal.ofInt z).neg = true := decide_eq_true hz
    rw [if_pos hneg]
    omega
  · have hneg : ¬(Literal.ofInt z).neg = true := by simpa [Literal.ofInt] using hz
    rw [if_neg hneg]
    omega

/-! ## Documents -/

/-- A JSON text without its white space and the style of its escapes. -/
inductive Json
  | null
  | bool (b : Bool)
  | number (n : Literal)
  | string (s : String)
  | array (items : List Json)
  | object (members : List (String × Json))
  deriving Repr, Inhabited

/-- Induction over the items of arrays and the members of objects. -/
@[elab_as_elim]
theorem Json.induct {P : Json → Prop} (null : P .null) (bool : ∀ b, P (.bool b))
    (number : ∀ n, P (.number n)) (string : ∀ s, P (.string s))
    (array : ∀ items, (∀ j ∈ items, P j) → P (.array items))
    (object : ∀ ms, (∀ m ∈ ms, P m.2) → P (.object ms)) (j : Json) : P j :=
  @Json.rec P (fun items => ∀ j ∈ items, P j) (fun ms => ∀ m ∈ ms, P m.2) (fun m => P m.2)
    null bool number string array object (by simp) (fun _ _ ih ihs => List.forall_mem_cons.2 ⟨ih, ihs⟩)
    (by simp) (fun _ _ ih ihs => List.forall_mem_cons.2 ⟨ih, ihs⟩) (fun _ _ ih => ih) j

/-! ## The compact text -/

/-- The escape of a character in a string. -/
def escapeChar (c : Char) : List Char :=
  if c = '\x22' then ['\x5c', '\x22']
  else if c = '\x5c' then ['\x5c', '\x5c']
  else if c = '\n' then ['\x5c', 'n']
  else if c = '\r' then ['\x5c', 'r']
  else if c = '\t' then ['\x5c', 't']
  else if c = '\x08' then ['\x5c', 'b']
  else if c = '\x0c' then ['\x5c', 'f']
  else if c.toNat < 32 then
    ['\x5c', 'u', '0', '0', Nat.digitChar (c.toNat / 16), Nat.digitChar (c.toNat % 16)]
  else [c]

/-- A string between its quotes. -/
def quotedChars (cs : List Char) : List Char :=
  '\x22' :: (cs.flatMap escapeChar ++ ['\x22'])

namespace Json

mutual

/-- The text without white space. -/
def text : Json → List Char
  | .null => ['n', 'u', 'l', 'l']
  | .bool true => ['t', 'r', 'u', 'e']
  | .bool false => ['f', 'a', 'l', 's', 'e']
  | .number n => n.text
  | .string s => quotedChars s.toList
  | .array [] => ['[', ']']
  | .array (j :: js) => '[' :: (text j ++ textItems js)
  | .object [] => ['\x7b', '\x7d']
  | .object (m :: ms) => '\x7b' :: (textMember m ++ textMembers ms)

/-- The items behind the first one, and the closing bracket. -/
def textItems : List Json → List Char
  | [] => [']']
  | j :: js => ',' :: (text j ++ textItems js)

def textMember : String × Json → List Char
  | (key, j) => quotedChars key.toList ++ ':' :: text j

/-- The members behind the first one, and the closing brace. -/
def textMembers : List (String × Json) → List Char
  | [] => ['\x7d']
  | m :: ms => ',' :: (textMember m ++ textMembers ms)

end

mutual

/-- How deep arrays and objects nest. -/
def depth : Json → ℕ
  | .array items => depthItems items + 1
  | .object ms => depthMembers ms + 1
  | _ => 0

def depthItems : List Json → ℕ
  | [] => 0
  | j :: js => max (depth j) (depthItems js)

def depthMembers : List (String × Json) → ℕ
  | [] => 0
  | m :: ms => max (depthMember m) (depthMembers ms)

def depthMember : String × Json → ℕ
  | (_, j) => depth j

end

theorem textMember_eq (m : String × Json) :
    textMember m = quotedChars m.1.toList ++ ':' :: text m.2 := by
  obtain ⟨key, j⟩ := m
  rw [textMember]

theorem depthMember_eq (m : String × Json) : depthMember m = m.2.depth := by
  obtain ⟨key, j⟩ := m
  rw [depthMember]

theorem depthItems_lt {items : List Json} {k : ℕ} (hk : 0 < k) :
    depthItems items < k ↔ ∀ j ∈ items, depth j < k := by
  induction items with
  | nil => simpa [depthItems] using hk
  | cons j js ih => rw [depthItems, Nat.max_lt, ih, List.forall_mem_cons]

theorem depthMembers_lt {ms : List (String × Json)} {k : ℕ} (hk : 0 < k) :
    depthMembers ms < k ↔ ∀ m ∈ ms, depth m.2 < k := by
  induction ms with
  | nil => simpa [depthMembers] using hk
  | cons m ms ih =>
    rw [depthMembers, Nat.max_lt, ih, List.forall_mem_cons, depthMember_eq]

theorem depth_lt_array {items : List Json} {j : Json} (hj : j ∈ items) :
    j.depth < (Json.array items).depth := by
  rw [depth.eq_def (.array items)]
  exact (depthItems_lt (Nat.succ_pos _)).1 (Nat.lt_succ_self _) j hj

theorem depth_lt_object {ms : List (String × Json)} {m : String × Json} (hm : m ∈ ms) :
    m.2.depth < (Json.object ms).depth := by
  rw [depth.eq_def (.object ms)]
  exact (depthMembers_lt (Nat.succ_pos _)).1 (Nat.lt_succ_self _) m hm

/-- An array is one deeper than its items. -/
theorem depth_array_lt {items : List Json} {k : ℕ} (hk : 0 < k) :
    (Json.array items).depth < k + 1 ↔ ∀ j ∈ items, j.depth < k := by
  rw [depth, Nat.add_lt_add_iff_right, depthItems_lt hk]

theorem depth_object_lt {ms : List (String × Json)} {k : ℕ} (hk : 0 < k) :
    (Json.object ms).depth < k + 1 ↔ ∀ m ∈ ms, m.2.depth < k := by
  rw [depth, Nat.add_lt_add_iff_right, depthMembers_lt hk]

/-! ## One line -/

/-- No character of the list is a control character. -/
def Printable (cs : List Char) : Prop :=
  ∀ c ∈ cs, 32 ≤ c.toNat

instance (cs : List Char) : Decidable (Printable cs) :=
  List.decidableBAll _ cs

theorem printable_append {cs ds : List Char} : Printable (cs ++ ds) ↔ Printable cs ∧ Printable ds :=
  List.forall_mem_append

theorem printable_cons {c : Char} {cs : List Char} : Printable (c :: cs) ↔ 32 ≤ c.toNat ∧ Printable cs :=
  List.forall_mem_cons

theorem printable_hexDigits : ∀ n < 32,
    Printable ['\x5c', 'u', '0', '0', Nat.digitChar (n / 16), Nat.digitChar (n % 16)] := by
  decide

theorem printable_escapeChar (c : Char) : Printable (escapeChar c) := by
  unfold escapeChar
  split_ifs with _ _ _ _ _ _ _ hcontrol
  · decide
  · decide
  · decide
  · decide
  · decide
  · decide
  · decide
  · exact printable_hexDigits _ hcontrol
  · exact printable_cons.2 ⟨Nat.not_lt.1 hcontrol, by decide⟩

theorem printable_quotedChars (cs : List Char) : Printable (quotedChars cs) := by
  refine printable_cons.2 ⟨by decide, printable_append.2 ⟨fun c hc => ?_, by decide⟩⟩
  obtain ⟨d, -, hd⟩ := List.mem_flatMap.1 hc
  exact printable_escapeChar d c hd

theorem le_toNat_of_isDigit {c : Char} (h : c.isDigit = true) : 48 ≤ c.toNat := by
  simp only [Char.isDigit, Bool.and_eq_true, decide_eq_true_eq, ge_iff_le, UInt32.le_iff_toNat_le] at h
  exact h.1

theorem printable_digits {ds : List Char} (h : ds.all Char.isDigit = true) : Printable ds := by
  intro c hc
  have := le_toNat_of_isDigit (List.all_eq_true.1 h c hc)
  omega

theorem printable_exponent {cs : List Char} (h : isExponent cs = true) : Printable cs := by
  cases cs with
  | nil => decide
  | cons e ds =>
    simp only [isExponent, Bool.and_eq_true, Bool.or_eq_true, decide_eq_true_eq] at h
    refine printable_cons.2 ⟨?_, ?_⟩
    · rcases h.1.1 with rfl | rfl <;> decide
    · have hdigits := printable_digits h.2
      split_ifs at hdigits with hsign
      · cases ds with
        | nil => decide
        | cons d ds =>
          refine printable_cons.2 ⟨?_, hdigits⟩
          rcases hsign with hd | hd <;> rw [Option.some.inj hd] <;> decide
      · exact hdigits

theorem printable_literal (n : Literal) : Printable n.text := by
  obtain ⟨hint, -, -, hfrac, hexp⟩ := n.valid
  refine printable_append.2 ⟨printable_append.2 ⟨printable_append.2 ⟨?_, printable_digits hint⟩, ?_⟩,
    printable_exponent hexp⟩
  · split_ifs <;> decide
  · split_ifs
    · decide
    · exact printable_cons.2 ⟨by decide, printable_digits hfrac⟩

theorem printable_textItems {items : List Json} (h : ∀ j ∈ items, Printable j.text) :
    Printable (textItems items) := by
  induction items with
  | nil => rw [textItems]; decide
  | cons j js ih =>
    obtain ⟨hj, hjs⟩ := List.forall_mem_cons.1 h
    exact printable_cons.2 ⟨by decide, printable_append.2 ⟨hj, ih hjs⟩⟩

theorem printable_textMember {m : String × Json} (h : Printable m.2.text) :
    Printable (textMember m) := by
  rw [textMember_eq]
  exact printable_append.2 ⟨printable_quotedChars _, printable_cons.2 ⟨by decide, h⟩⟩

theorem printable_textMembers {ms : List (String × Json)} (h : ∀ m ∈ ms, Printable m.2.text) :
    Printable (textMembers ms) := by
  induction ms with
  | nil => rw [textMembers]; decide
  | cons m ms ih =>
    obtain ⟨hm, hms⟩ := List.forall_mem_cons.1 h
    exact printable_cons.2 ⟨by decide, printable_append.2 ⟨printable_textMember hm, ih hms⟩⟩

/-- A text has no control character. -/
theorem printable_text (j : Json) : Printable j.text := by
  induction j using Json.induct with
  | null => rw [text]; decide
  | bool b => cases b <;> rw [text] <;> decide
  | number n => exact printable_literal n
  | string s => exact printable_quotedChars s.toList
  | array items ih =>
    cases items with
    | nil => rw [text]; decide
    | cons j js =>
      obtain ⟨hj, hjs⟩ := List.forall_mem_cons.1 ih
      exact printable_cons.2 ⟨by decide, printable_append.2 ⟨hj, printable_textItems hjs⟩⟩
  | object ms ih =>
    cases ms with
    | nil => rw [text]; decide
    | cons m ms =>
      obtain ⟨hm, hms⟩ := List.forall_mem_cons.1 ih
      exact printable_cons.2 ⟨by decide,
        printable_append.2 ⟨printable_textMember hm, printable_textMembers hms⟩⟩

theorem newline_notMem_text (j : Json) : '\n' ∉ j.text := fun h =>
  absurd (printable_text j _ h) (by decide)

end Json
