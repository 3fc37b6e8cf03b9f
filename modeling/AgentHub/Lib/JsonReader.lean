import AgentHub.Lib.Json

/-!
# Reading JSON

A reader of JSON texts that takes one character at a time. It holds the arrays and objects
that are open (`Frame`) and what it expects next (`Phase`), and refuses a character that does
not fit (`Reader.step`). A bound on the number of open arrays and objects is a parameter.

The text of a document is read back (`read_text`), white space behind it changes nothing
(`read_append_space`), and a part of the text of an array or an object is no text
(`read_cut`). What is read is never nested deeper than the bound allows (`depth_of_read`).
-/

/-- White space between the parts of a JSON text. -/
def isSpace (c : Char) : Bool :=
  c = ' ' || c = '\n' || c = '\t' || c = '\r'

theorem isSpace_newline : ∀ c ∈ ['\n'], isSpace c = true :=
  List.forall_mem_singleton.2 rfl

/-- The characters numbers are written with. -/
def isNumberChar (c : Char) : Bool :=
  c.isDigit || c = '-' || c = '+' || c = '.' || c = 'e' || c = 'E'

/-- What a string is read for : a value, or the next key of an object with some members. -/
inductive StringUse
  | value
  | key (members : List (String × Json))

/-- An open array with its items so far, or an open object with its members so far and the key
of the value that is being read. -/
inductive Frame
  | array (items : List Json)
  | object (members : List (String × Json)) (key : String)

/-- What the reader expects. -/
inductive Phase
  | value
  /-- Behind an opening bracket. -/
  | items
  /-- Behind an opening brace. -/
  | members
  /-- Behind a comma in an object. -/
  | key (members : List (String × Json))
  | colon (members : List (String × Json)) (key : String)
  | after (j : Json)
  /-- The rest of `null`, `true` or `false`. -/
  | word (rest : List Char) (j : Json)
  | number (cs : List Char)
  | string (use : StringUse) (cs : List Char)
  /-- Behind a backslash. -/
  | escape (use : StringUse) (cs : List Char)
  /-- Behind `\u` and `count` hexadecimal digits, of a low surrogate if there is a high one. -/
  | unicode (use : StringUse) (cs : List Char) (high : Option ℕ) (count code : ℕ)
  /-- Behind a high surrogate, and the backslash of the low one. -/
  | surrogate (use : StringUse) (cs : List Char) (high : ℕ) (slash : Bool)

structure Reader where
  stack : List Frame
  phase : Phase

namespace Reader

/-- The first character of a value. -/
def begin (limit : ℕ) (stack : List Frame) (c : Char) : Option Reader :=
  if c = '\x22' then some ⟨stack, .string .value []⟩
  else if c = '[' then
    if stack.length + 1 < limit then some ⟨.array [] :: stack, .items⟩ else none
  else if c = '\x7b' then
    if stack.length + 1 < limit then some ⟨stack, .members⟩ else none
  else if c = 'n' then some ⟨stack, .word ['u', 'l', 'l'] .null⟩
  else if c = 't' then some ⟨stack, .word ['r', 'u', 'e'] (.bool true)⟩
  else if c = 'f' then some ⟨stack, .word ['a', 'l', 's', 'e'] (.bool false)⟩
  else if c = '-' || c.isDigit then some ⟨stack, .number [c]⟩
  else none

/-- A character behind a value. -/
def behind (stack : List Frame) (j : Json) (c : Char) : Option Reader :=
  if isSpace c then some ⟨stack, .after j⟩
  else match stack with
  | [] => none
  | .array items :: stack =>
    if c = ',' then some ⟨.array (items ++ [j]) :: stack, .value⟩
    else if c = ']' then some ⟨stack, .after (.array (items ++ [j]))⟩
    else none
  | .object ms key :: stack =>
    if c = ',' then some ⟨stack, .key (ms ++ [(key, j)])⟩
    else if c = '\x7d' then some ⟨stack, .after (.object (ms ++ [(key, j)]))⟩
    else none

/-- A string ends. -/
def closeString (stack : List Frame) (use : StringUse) (cs : List Char) : Reader :=
  match use with
  | .value => ⟨stack, .after (.string (String.ofList cs))⟩
  | .key ms => ⟨stack, .colon ms (String.ofList cs)⟩

/-- The character behind a backslash stands for another one. -/
def unescape (c : Char) : Option Char :=
  if c = '\x22' then some '\x22'
  else if c = '\x5c' then some '\x5c'
  else if c = '/' then some '/'
  else if c = 'n' then some '\n'
  else if c = 'r' then some '\r'
  else if c = 't' then some '\t'
  else if c = 'b' then some '\x08'
  else if c = 'f' then some '\x0c'
  else none

def hexValue (c : Char) : Option ℕ :=
  if c.isDigit then some (c.toNat - 48)
  else if 'a' ≤ c ∧ c ≤ 'f' then some (c.toNat - 87)
  else if 'A' ≤ c ∧ c ≤ 'F' then some (c.toNat - 55)
  else none

/-- Four hexadecimal digits are read. A surrogate stands for nothing alone. -/
def closeUnicode (stack : List Frame) (use : StringUse) (cs : List Char) (high : Option ℕ)
    (code : ℕ) : Option Reader :=
  match high with
  | none =>
    if 0xD800 ≤ code ∧ code ≤ 0xDBFF then some ⟨stack, .surrogate use cs code false⟩
    else if 0xDC00 ≤ code ∧ code ≤ 0xDFFF then none
    else some ⟨stack, .string use (cs ++ [Char.ofNat code])⟩
  | some high =>
    if 0xDC00 ≤ code ∧ code ≤ 0xDFFF then
      some ⟨stack, .string use
        (cs ++ [Char.ofNat (0x10000 + (high - 0xD800) * 0x400 + (code - 0xDC00))])⟩
    else none

/-- Reads one character. -/
def step (limit : ℕ) (r : Reader) (c : Char) : Option Reader :=
  match r.phase with
  | .value => if isSpace c then some r else begin limit r.stack c
  | .items =>
    if isSpace c then some r
    else if c = ']' then
      match r.stack with
      | .array items :: stack => some ⟨stack, .after (.array items)⟩
      | _ => none
    else begin limit r.stack c
  | .members =>
    if isSpace c then some r
    else if c = '\x22' then some ⟨r.stack, .string (.key []) []⟩
    else if c = '\x7d' then some ⟨r.stack, .after (.object [])⟩
    else none
  | .key ms =>
    if isSpace c then some r
    else if c = '\x22' then some ⟨r.stack, .string (.key ms) []⟩
    else none
  | .colon ms key =>
    if isSpace c then some r
    else if c = ':' then some ⟨.object ms key :: r.stack, .value⟩
    else none
  | .after j => behind r.stack j c
  | .word rest j =>
    match rest with
    | [] => none
    | d :: ds =>
      if c = d then some ⟨r.stack, if ds = [] then .after j else .word ds j⟩ else none
  | .number cs =>
    if isNumberChar c then some ⟨r.stack, .number (cs ++ [c])⟩
    else match Literal.ofText cs with
    | some n => behind r.stack (.number n) c
    | none => none
  | .string use cs =>
    if c = '\x22' then some (closeString r.stack use cs)
    else if c = '\x5c' then some ⟨r.stack, .escape use cs⟩
    else if c.toNat < 32 then none
    else some ⟨r.stack, .string use (cs ++ [c])⟩
  | .escape use cs =>
    if c = 'u' then some ⟨r.stack, .unicode use cs none 0 0⟩
    else (unescape c).map fun d => ⟨r.stack, .string use (cs ++ [d])⟩
  | .unicode use cs high count code =>
    match hexValue c with
    | none => none
    | some d =>
      if count = 3 then closeUnicode r.stack use cs high (16 * code + d)
      else some ⟨r.stack, .unicode use cs high (count + 1) (16 * code + d)⟩
  | .surrogate use cs high slash =>
    if slash then if c = 'u' then some ⟨r.stack, .unicode use cs (some high) 0 0⟩ else none
    else if c = '\x5c' then some ⟨r.stack, .surrogate use cs high true⟩
    else none

/-- Reads a list of characters. -/
def run (limit : ℕ) (r : Reader) (cs : List Char) : Option Reader :=
  cs.foldlM (step limit) r

/-- What is read when the text ends. -/
def finish (r : Reader) : Option Json :=
  match r.stack, r.phase with
  | [], .after j => some j
  | [], .number cs => (Literal.ofText cs).map .number
  | _, _ => none

/-- The reader before the first character. -/
def start : Reader where
  stack := []
  phase := .value

end Reader

/-- The document of a text in which fewer than `limit` arrays and objects are open at a time. -/
def Json.read (limit : ℕ) (cs : List Char) : Option Json :=
  (Reader.start.run limit cs).bind Reader.finish

namespace Reader

variable {limit : ℕ} {stack : List Frame} {use : StringUse} {c : Char} {j : Json} {r r' : Reader}

theorem run_nil (r : Reader) : r.run limit [] = some r :=
  rfl

theorem run_cons (r : Reader) (c : Char) (cs : List Char) :
    r.run limit (c :: cs) = (r.step limit c).bind fun r' => r'.run limit cs :=
  List.foldlM_cons

theorem run_append (r : Reader) (cs ds : List Char) :
    r.run limit (cs ++ ds) = (r.run limit cs).bind fun r' => r'.run limit ds :=
  List.foldlM_append

/-- A step, and what is read after it. -/
theorem run_of_step {cs : List Char} (h : r.step limit c = some r') :
    r.run limit (c :: cs) = r'.run limit cs := by
  rw [run_cons, h, Option.bind_some]

theorem run_of_run {cs ds : List Char} (h : r.run limit cs = some r') :
    r.run limit (cs ++ ds) = r'.run limit ds := by
  rw [run_append, h, Option.bind_some]

/-! ## Strings -/

theorem hexValue_digitChar : ∀ n < 16, hexValue (Nat.digitChar n) = some n := by
  decide

/-- The escape of a control character is read back. -/
theorem run_control (cs : List Char) {n : ℕ} (hn : n < 32) :
    run limit ⟨stack, .string use cs⟩
      ['\x5c', 'u', '0', '0', Nat.digitChar (n / 16), Nat.digitChar (n % 16)] =
      some ⟨stack, .string use (cs ++ [Char.ofNat n])⟩ := by
  have hcode : closeUnicode stack use cs none (16 * (n / 16) + n % 16) =
      some ⟨stack, .string use (cs ++ [Char.ofNat n])⟩ := by
    rw [Nat.div_add_mod, closeUnicode, if_neg (by omega), if_neg (by omega)]
  have hhigh := hexValue_digitChar (n / 16) (by omega)
  have hlow := hexValue_digitChar (n % 16) (by omega)
  have hslash : step limit ⟨stack, .string use cs⟩ '\x5c' = some ⟨stack, .escape use cs⟩ := rfl
  have hu : step limit ⟨stack, .escape use cs⟩ 'u' = some ⟨stack, .unicode use cs none 0 0⟩ := rfl
  have hzero : step limit ⟨stack, .unicode use cs none 0 0⟩ '0' =
      some ⟨stack, .unicode use cs none 1 0⟩ := rfl
  have hzero' : step limit ⟨stack, .unicode use cs none 1 0⟩ '0' =
      some ⟨stack, .unicode use cs none 2 0⟩ := rfl
  have hdigit : step limit ⟨stack, .unicode use cs none 2 0⟩ (Nat.digitChar (n / 16)) =
      some ⟨stack, .unicode use cs none 3 (n / 16)⟩ := by simp [step, hhigh]
  have hclose : step limit ⟨stack, .unicode use cs none 3 (n / 16)⟩ (Nat.digitChar (n % 16)) =
      some ⟨stack, .string use (cs ++ [Char.ofNat n])⟩ := by
    simp only [step, hlow, if_true, hcode]
  rw [run_of_step hslash, run_of_step hu, run_of_step hzero, run_of_step hzero', run_of_step hdigit,
    run_of_step hclose, run_nil]

/-- An escaped character is read back. -/
theorem run_escapeChar (cs : List Char) (c : Char) :
    run limit ⟨stack, .string use cs⟩ (escapeChar c) = some ⟨stack, .string use (cs ++ [c])⟩ := by
  unfold escapeChar
  split_ifs with h₁ h₂ h₃ h₄ h₅ h₆ h₇ hcontrol
  · rw [h₁]; rfl
  · rw [h₂]; rfl
  · rw [h₃]; rfl
  · rw [h₄]; rfl
  · rw [h₅]; rfl
  · rw [h₆]; rfl
  · rw [h₇]; rfl
  · rw [run_control cs hcontrol, Char.ofNat_toNat]
  · simp [run_cons, run_nil, step, h₁, h₂, hcontrol]

theorem run_quotedChars (cs ds : List Char) :
    run limit ⟨stack, .string use cs⟩ (ds.flatMap escapeChar ++ ['\x22']) =
      some (closeString stack use (cs ++ ds)) := by
  induction ds generalizing cs with
  | nil =>
    rw [List.append_nil]
    rfl
  | cons d ds ih =>
    rw [List.flatMap_cons, List.append_assoc, run_of_run (run_escapeChar cs d), ih,
      List.append_assoc, List.singleton_append]

/-! ## Documents -/

/-- The reader has a value, which a number is only when its text has ended. -/
inductive Holds (stack : List Frame) : Json → Reader → Prop
  | after (j : Json) : Holds stack j ⟨stack, .after j⟩
  | number (n : Literal) : Holds stack (.number n) ⟨stack, .number n.text⟩

/-- The next character tells that the value has ended. -/
theorem Holds.step (h : Holds stack j r) (hc : isNumberChar c = false) :
    r.step limit c = behind stack j c := by
  cases h with
  | after j => rfl
  | number n => simp [Reader.step, hc, Literal.ofText_text]

theorem Holds.finish (h : Holds [] j r) : r.finish = some j := by
  cases h with
  | after j => rfl
  | number n => simp [Reader.finish, Literal.ofText_text]

theorem isNumberChar_digits {ds : List Char} (h : ds.all Char.isDigit = true) :
    ∀ c ∈ ds, isNumberChar c = true := by
  intro c hc
  simp [isNumberChar, List.all_eq_true.1 h c hc]

theorem isNumberChar_exponent {cs : List Char} (h : isExponent cs = true) :
    ∀ c ∈ cs, isNumberChar c = true := by
  cases cs with
  | nil => simp
  | cons e ds =>
    simp only [isExponent, Bool.and_eq_true, Bool.or_eq_true, decide_eq_true_eq] at h
    refine List.forall_mem_cons.2 ⟨?_, ?_⟩
    · rcases h.1.1 with rfl | rfl <;> rfl
    · have hdigits := isNumberChar_digits h.2
      split_ifs at hdigits with hsign
      · cases ds with
        | nil => simp
        | cons d ds =>
          refine List.forall_mem_cons.2 ⟨?_, hdigits⟩
          rcases hsign with hd | hd <;> rw [Option.some.inj hd] <;> rfl
      · exact hdigits

theorem isNumberChar_text (n : Literal) : ∀ c ∈ n.text, isNumberChar c = true := by
  obtain ⟨hint, -, -, hfrac, hexp⟩ := n.valid
  refine List.forall_mem_append.2 ⟨List.forall_mem_append.2 ⟨List.forall_mem_append.2
    ⟨?_, isNumberChar_digits hint⟩, ?_⟩, isNumberChar_exponent hexp⟩
  · split_ifs <;> simp [isNumberChar]
  · split_ifs
    · simp
    · exact List.forall_mem_cons.2 ⟨rfl, isNumberChar_digits hfrac⟩

/-- A number starts with its sign or with a digit. -/
theorem text_literal_cons (n : Literal) :
    ∃ c cs, n.text = c :: cs ∧ (c = '-' ∨ c.isDigit = true) := by
  obtain ⟨hint, hne, -, -, -⟩ := n.valid
  obtain ⟨d, ds, hds⟩ := List.exists_cons_of_ne_nil hne
  have hd : d.isDigit = true := List.all_eq_true.1 hint d (by simp [hds])
  cases hneg : n.neg with
  | true =>
    refine ⟨'-', n.int ++ ((if n.frac = [] then [] else '.' :: n.frac) ++ n.exp), ?_, Or.inl rfl⟩
    simp [Numeral.text, hneg]
  | false =>
    refine ⟨d, ds ++ ((if n.frac = [] then [] else '.' :: n.frac) ++ n.exp), ?_, Or.inr hd⟩
    simp [Numeral.text, hneg, hds]

theorem ne_of_number {d : Char} (hc : c = '-' ∨ c.isDigit = true) (hminus : d ≠ '-')
    (hdigit : d.isDigit = false) : c ≠ d := by
  rintro rfl
  rcases hc with rfl | hc
  · exact hminus rfl
  · rw [hdigit] at hc
    cases hc

theorem isSpace_number (hc : c = '-' ∨ c.isDigit = true) : isSpace c = false := by
  simp [isSpace, ne_of_number (d := ' ') hc (by decide) rfl, ne_of_number (d := '\n') hc (by decide) rfl,
    ne_of_number (d := '\t') hc (by decide) rfl, ne_of_number (d := '\r') hc (by decide) rfl]

theorem step_number (hc : c = '-' ∨ c.isDigit = true) :
    step limit ⟨stack, .value⟩ c = some ⟨stack, .number [c]⟩ := by
  simp [step, isSpace_number hc, begin, ne_of_number (d := '\x22') hc (by decide) rfl,
    ne_of_number (d := '[') hc (by decide) rfl, ne_of_number (d := '\x7b') hc (by decide) rfl,
    ne_of_number (d := 'n') hc (by decide) rfl, ne_of_number (d := 't') hc (by decide) rfl,
    ne_of_number (d := 'f') hc (by decide) rfl, hc]

/-- A run of number characters. -/
theorem run_number {cs ds : List Char} (h : ∀ c ∈ ds, isNumberChar c = true) :
    run limit ⟨stack, .number cs⟩ ds = some ⟨stack, .number (cs ++ ds)⟩ := by
  induction ds generalizing cs with
  | nil => rw [List.append_nil, run_nil]
  | cons d ds ih =>
    obtain ⟨hd, hds⟩ := List.forall_mem_cons.1 h
    have hstep : step limit ⟨stack, .number cs⟩ d = some ⟨stack, .number (cs ++ [d])⟩ := by
      simp [step, hd]
    rw [run_of_step hstep, ih hds, List.append_assoc, List.singleton_append]

/-- The reader takes the text of the document as a value. -/
def Reads (limit : ℕ) (j : Json) : Prop :=
  ∀ stack : List Frame, stack.length + j.depth < limit →
    ∃ r, run limit ⟨stack, .value⟩ j.text = some r ∧ Holds stack j r

theorem reads_number (n : Literal) : Reads limit (.number n) := by
  intro stack _
  obtain ⟨c, cs, htext, hc⟩ := text_literal_cons n
  have hcs : ∀ d ∈ cs, isNumberChar d = true := fun d hd =>
    isNumberChar_text n d (by simp [htext, hd])
  refine ⟨_, ?_, .number n⟩
  rw [Json.text, htext, run_of_step (step_number hc), run_number hcs, List.singleton_append]

/-- The items behind the first one. -/
theorem run_textItems {js items : List Json} (hjs : ∀ k ∈ js, Reads limit k)
    (hdepth : ∀ k ∈ js, stack.length + 1 + k.depth < limit) (hr : Holds (.array items :: stack) j r) :
    r.run limit (Json.textItems js) = some ⟨stack, .after (.array (items ++ j :: js))⟩ := by
  induction js generalizing items j r with
  | nil =>
    rw [Json.textItems, run_of_step (hr.step rfl)]
    rfl
  | cons k ks ih =>
    obtain ⟨hk, hks⟩ := List.forall_mem_cons.1 hjs
    obtain ⟨hdk, hdks⟩ := List.forall_mem_cons.1 hdepth
    obtain ⟨r', hrun, hr'⟩ := hk (.array (items ++ [j]) :: stack) hdk
    have hcomma : r.step limit ',' = some ⟨.array (items ++ [j]) :: stack, .value⟩ := hr.step rfl
    rw [Json.textItems, run_of_step hcomma, run_of_run hrun, ih hks hdks hr', List.append_assoc,
      List.singleton_append]

/-- A member, from the quote of its key on. -/
theorem run_textMember {ms : List (String × Json)} {m : String × Json} (hm : Reads limit m.2)
    (hdepth : stack.length + 1 + m.2.depth < limit)
    (hr : r.step limit '\x22' = some ⟨stack, .string (.key ms) []⟩) :
    ∃ r', r.run limit (Json.textMember m) = some r' ∧ Holds (.object ms m.1 :: stack) m.2 r' := by
  obtain ⟨r', hrun, hr'⟩ := hm (.object ms m.1 :: stack) hdepth
  have hkey : closeString stack (.key ms) ([] ++ m.1.toList) = ⟨stack, .colon ms m.1⟩ := by
    simp [closeString]
  have hcolon : step limit ⟨stack, .colon ms m.1⟩ ':' = some ⟨.object ms m.1 :: stack, .value⟩ := rfl
  refine ⟨r', ?_, hr'⟩
  rw [Json.textMember_eq, quotedChars, List.cons_append, run_of_step hr,
    run_of_run (run_quotedChars [] m.1.toList), hkey, run_of_step hcolon, hrun]

/-- The members behind the first one. -/
theorem run_textMembers {ms ms' : List (String × Json)} {key : String}
    (hms : ∀ m ∈ ms, Reads limit m.2) (hdepth : ∀ m ∈ ms, stack.length + 1 + m.2.depth < limit)
    (hr : Holds (.object ms' key :: stack) j r) :
    r.run limit (Json.textMembers ms) = some ⟨stack, .after (.object (ms' ++ (key, j) :: ms))⟩ := by
  induction ms generalizing ms' key j r with
  | nil =>
    rw [Json.textMembers, run_of_step (hr.step rfl)]
    rfl
  | cons m ms ih =>
    obtain ⟨hm, hms⟩ := List.forall_mem_cons.1 hms
    obtain ⟨hdm, hdms⟩ := List.forall_mem_cons.1 hdepth
    have hcomma : r.step limit ',' = some ⟨stack, .key (ms' ++ [(key, j)])⟩ := hr.step rfl
    obtain ⟨r', hrun, hr'⟩ := run_textMember (r := ⟨stack, .key (ms' ++ [(key, j)])⟩) hm hdm rfl
    rw [Json.textMembers, run_of_step hcomma, run_of_run hrun, ih hms hdms hr', List.append_assoc,
      List.singleton_append]

/-- The first character of a text. -/
theorem text_cons (j : Json) : ∃ c cs, j.text = c :: cs ∧ isSpace c = false ∧ c ≠ ']' := by
  cases j with
  | null => exact ⟨'n', ['u', 'l', 'l'], rfl, rfl, by decide⟩
  | bool b =>
    cases b with
    | true => exact ⟨'t', ['r', 'u', 'e'], rfl, rfl, by decide⟩
    | false => exact ⟨'f', ['a', 'l', 's', 'e'], rfl, rfl, by decide⟩
  | number n =>
    obtain ⟨c, cs, htext, hc⟩ := text_literal_cons n
    exact ⟨c, cs, htext, isSpace_number hc, ne_of_number hc (by decide) rfl⟩
  | string s => exact ⟨'\x22', _, rfl, rfl, by decide⟩
  | array items => cases items <;> exact ⟨'[', _, rfl, rfl, by decide⟩
  | object ms => cases ms <;> exact ⟨'\x7b', _, rfl, rfl, by decide⟩

/-- Every document is read back from its text. -/
theorem reads (j : Json) : Reads limit j := by
  induction j using Json.induct with
  | null => exact fun stack _ => ⟨_, rfl, .after _⟩
  | bool b => exact fun stack _ => by cases b <;> exact ⟨_, rfl, .after _⟩
  | number n => exact reads_number n
  | string s =>
    intro stack _
    have hquote : step limit ⟨stack, .value⟩ '\x22' = some ⟨stack, .string .value []⟩ := rfl
    refine ⟨closeString stack .value s.toList, ?_, ?_⟩
    · rw [Json.text, quotedChars, run_of_step hquote, run_quotedChars, List.nil_append]
    · rw [closeString, String.ofList_toList]
      exact .after _
  | array items ih =>
    intro stack hdepth
    have hopen : step limit ⟨stack, .value⟩ '[' = some ⟨.array [] :: stack, .items⟩ := by
      rw [Json.depth] at hdepth
      simp [step, isSpace, begin, show stack.length + 1 < limit by omega]
    refine ⟨_, ?_, .after _⟩
    cases items with
    | nil =>
      rw [Json.text, run_of_step hopen]
      rfl
    | cons j js =>
      have hitems : ∀ k ∈ j :: js, stack.length + 1 + k.depth < limit := by
        intro k hk
        have := Json.depth_lt_array hk
        omega
      obtain ⟨hj, hjs⟩ := List.forall_mem_cons.1 ih
      obtain ⟨hdj, hdjs⟩ := List.forall_mem_cons.1 hitems
      obtain ⟨r, hrun, hr⟩ := hj (.array [] :: stack) hdj
      -- behind the bracket the first item is read as a value
      have hfirst : run limit ⟨.array [] :: stack, .items⟩ j.text = some r := by
        obtain ⟨c, cs, htext, hspace, hclose⟩ := text_cons j
        rw [← hrun, htext, run_cons, run_cons]
        simp [step, hspace, hclose]
      rw [Json.text, run_of_step hopen, run_of_run hfirst, run_textItems hjs hdjs hr, List.nil_append]
  | object ms ih =>
    intro stack hdepth
    have hopen : step limit ⟨stack, .value⟩ '\x7b' = some ⟨stack, .members⟩ := by
      rw [Json.depth] at hdepth
      simp [step, isSpace, begin, show stack.length + 1 < limit by omega]
    refine ⟨_, ?_, .after _⟩
    cases ms with
    | nil =>
      rw [Json.text, run_of_step hopen]
      rfl
    | cons m ms =>
      have hmembers : ∀ m' ∈ m :: ms, stack.length + 1 + m'.2.depth < limit := by
        intro m' hm'
        have := Json.depth_lt_object hm'
        omega
      obtain ⟨hm, hms⟩ := List.forall_mem_cons.1 ih
      obtain ⟨hdm, hdms⟩ := List.forall_mem_cons.1 hmembers
      obtain ⟨r, hrun, hr⟩ := run_textMember (r := ⟨stack, .members⟩) hm hdm rfl
      rw [Json.text, run_of_step hopen, run_of_run hrun, run_textMembers hms hdms hr, List.nil_append]

/-- White space behind a value changes nothing. -/
theorem run_spaces {ws : List Char} (hws : ∀ c ∈ ws, isSpace c = true) :
    run limit ⟨stack, .after j⟩ ws = some ⟨stack, .after j⟩ := by
  induction ws with
  | nil => rfl
  | cons c ws ih =>
    obtain ⟨hc, hws⟩ := List.forall_mem_cons.1 hws
    have hstep : step limit ⟨stack, .after j⟩ c = some ⟨stack, .after j⟩ := by
      simp only [step, behind, hc, if_true]
    rw [run_of_step hstep, ih hws]

/-- A reader that can finish. -/
theorem finish_eq_some (h : r.finish = some j) : r = ⟨[], .after j⟩ ∨
    ∃ cs n, r = ⟨[], .number cs⟩ ∧ Literal.ofText cs = some n ∧ j = .number n := by
  obtain ⟨stack, phase⟩ := r
  unfold finish at h
  split at h
  · rename_i j' hstack hphase
    obtain rfl := Option.some.inj h
    exact Or.inl (by rw [show stack = [] from hstack, show phase = .after j' from hphase])
  · rename_i cs hstack hphase
    obtain ⟨n, hn, rfl⟩ := Option.map_eq_some_iff.1 h
    exact Or.inr ⟨cs, n, by rw [show stack = [] from hstack, show phase = .number cs from hphase], hn, rfl⟩
  · cases h

theorem run_spaces_of_finish {ws : List Char} (h : r.finish = some j)
    (hws : ∀ c ∈ ws, isSpace c = true) : ∃ r', r.run limit ws = some r' ∧ r'.finish = some j := by
  rcases finish_eq_some h with rfl | ⟨cs, n, rfl, hn, rfl⟩
  · exact ⟨_, run_spaces hws, rfl⟩
  · cases ws with
    | nil => exact ⟨_, rfl, h⟩
    | cons c ws =>
      obtain ⟨hc, hws⟩ := List.forall_mem_cons.1 hws
      have hnumber : isNumberChar c = false := by
        simp only [isSpace, Bool.or_eq_true, decide_eq_true_eq] at hc
        rcases hc with ((rfl | rfl) | rfl) | rfl <;> rfl
      have hstep : step limit ⟨[], .number cs⟩ c = some ⟨[], .after (.number n)⟩ := by
        simp [step, hnumber, hn, behind, hc]
      exact ⟨_, by rw [run_of_step hstep, run_spaces hws], rfl⟩

theorem begin_mono {limit' : ℕ} (hle : limit ≤ limit') (h : begin limit stack c = some r) :
    begin limit' stack c = some r := by
  unfold begin at h ⊢
  split_ifs at h ⊢ <;> first | exact h | omega

/-- A higher bound reads the same. -/
theorem step_mono {limit' : ℕ} (hle : limit ≤ limit') (h : r.step limit c = some r') :
    r.step limit' c = some r' := by
  obtain ⟨stack, phase⟩ := r
  cases phase with
  | value =>
    simp only [step] at h ⊢
    split_ifs at h ⊢
    · exact h
    · exact begin_mono hle h
  | items =>
    simp only [step] at h ⊢
    split_ifs at h ⊢
    · exact h
    · exact h
    · exact begin_mono hle h
  | members | key | colon | after | word | number | string | escape | unicode | surrogate => exact h

theorem run_mono {limit' : ℕ} {cs : List Char} (hle : limit ≤ limit') (h : r.run limit cs = some r') :
    r.run limit' cs = some r' := by
  induction cs generalizing r with
  | nil => exact h
  | cons c cs ih =>
    rw [run_cons] at h
    obtain ⟨r₁, hstep, hrun⟩ := Option.bind_eq_some_iff.1 h
    rw [run_of_step (step_mono hle hstep), ih hrun]

/-! ## Cuts -/

/-- A value is read, and nothing is open. -/
def Ended (r : Reader) : Prop :=
  r.stack = [] ∧ ((∃ j, r.phase = .after j) ∨ ∃ cs, r.phase = .number cs)

theorem ended_of_finish (h : r.finish = some j) : Ended r := by
  rcases finish_eq_some h with rfl | ⟨cs, n, rfl, -, -⟩
  · exact ⟨rfl, Or.inl ⟨_, rfl⟩⟩
  · exact ⟨rfl, Or.inr ⟨_, rfl⟩⟩

theorem behind_nil (h : behind [] j c = some r) : isSpace c = true ∧ r = ⟨[], .after j⟩ := by
  unfold behind at h
  split_ifs at h with hspace
  exact ⟨hspace, (Option.some.inj h).symm⟩

/-- Nothing closes any more. -/
theorem Ended.step (h : Ended r) (hstep : r.step limit c = some r') :
    Ended r' ∧ c ≠ ']' ∧ c ≠ '\x7d' := by
  obtain ⟨stack, phase⟩ := r
  obtain ⟨rfl, ⟨j, rfl⟩ | ⟨cs, rfl⟩⟩ := h
  · obtain ⟨hspace, rfl⟩ := behind_nil hstep
    refine ⟨⟨rfl, Or.inl ⟨_, rfl⟩⟩, ?_, ?_⟩ <;> rintro rfl <;> cases hspace
  · simp only [Reader.step] at hstep
    split_ifs at hstep with hc
    · obtain rfl := Option.some.inj hstep
      refine ⟨⟨rfl, Or.inr ⟨_, rfl⟩⟩, ?_, ?_⟩ <;> rintro rfl <;> cases hc
    · split at hstep
      · obtain ⟨hspace, rfl⟩ := behind_nil hstep
        refine ⟨⟨rfl, Or.inl ⟨_, rfl⟩⟩, ?_, ?_⟩ <;> rintro rfl <;> cases hspace
      · cases hstep

theorem Ended.run {cs : List Char} (h : Ended r) (hrun : r.run limit cs = some r') :
    ∀ c ∈ cs, c ≠ ']' ∧ c ≠ '\x7d' := by
  induction cs generalizing r with
  | nil => simp
  | cons c cs ih =>
    rw [run_cons] at hrun
    obtain ⟨r₁, hstep, hrun⟩ := Option.bind_eq_some_iff.1 hrun
    obtain ⟨hr₁, hc⟩ := h.step hstep
    exact List.forall_mem_cons.2 ⟨hc, ih hr₁ hrun⟩

end Reader

namespace Json

variable {limit : ℕ} {j : Json}

/-- The text of a document is read back. -/
theorem read_text (h : j.depth < limit) : read limit j.text = some j := by
  obtain ⟨r, hrun, hr⟩ := Reader.reads j [] (by simpa using h)
  rw [read, Reader.start, hrun, Option.bind_some, hr.finish]

theorem read_append_space {cs ws : List Char} (h : read limit cs = some j)
    (hws : ∀ c ∈ ws, isSpace c = true) : read limit (cs ++ ws) = some j := by
  obtain ⟨r, hrun, hfinish⟩ := Option.bind_eq_some_iff.1 h
  obtain ⟨r', hrun', hfinish'⟩ := Reader.run_spaces_of_finish hfinish hws
  rw [read, Reader.run_of_run hrun, hrun', Option.bind_some, hfinish']

theorem read_mono {limit' : ℕ} {cs : List Char} (hle : limit ≤ limit') (h : read limit cs = some j) :
    read limit' cs = some j := by
  obtain ⟨r, hrun, hfinish⟩ := Option.bind_eq_some_iff.1 h
  rw [read, Reader.run_mono hle hrun, Option.bind_some, hfinish]

/-- Whatever the limit, nothing else is read from the text of a document. -/
theorem eq_of_read_text {ws : List Char} {k : Json} (h : read limit (j.text ++ ws) = some k)
    (hws : ∀ c ∈ ws, isSpace c = true) : k = j := by
  have hmax := read_mono (Nat.le_max_left limit (j.depth + 1)) h
  have htext : read (max limit (j.depth + 1)) j.text = some j := read_text (by omega)
  exact Option.some.inj (hmax.symm.trans (read_append_space htext hws))

theorem textMembers_last (ms : List (String × Json)) : ∃ cs, textMembers ms = cs ++ ['\x7d'] := by
  induction ms with
  | nil => exact ⟨[], rfl⟩
  | cons m ms ih =>
    obtain ⟨cs, hcs⟩ := ih
    exact ⟨',' :: (textMember m ++ cs), by rw [textMembers, hcs, List.cons_append, List.append_assoc]⟩

/-- The text of an object ends with its brace. -/
theorem text_object_last (ms : List (String × Json)) : ∃ cs, (object ms).text = cs ++ ['\x7d'] := by
  cases ms with
  | nil => exact ⟨['\x7b'], rfl⟩
  | cons m ms =>
    obtain ⟨cs, hcs⟩ := textMembers_last ms
    exact ⟨'\x7b' :: (textMember m ++ cs), by rw [text, hcs, List.cons_append, List.append_assoc]⟩

/-- A part of the text of an object is no text. -/
theorem read_cut {ms : List (String × Json)} {cs ds : List Char}
    (htext : (object ms).text = cs ++ ds) (hds : ds ≠ []) : read limit cs = none := by
  by_contra hne
  obtain ⟨j, hread⟩ := Option.ne_none_iff_exists'.1 hne
  -- a bound that the whole text keeps
  obtain ⟨limit', hle, hdepth⟩ : ∃ limit', limit ≤ limit' ∧ (object ms).depth < limit' :=
    ⟨max limit ((object ms).depth + 1), Nat.le_max_left _ _, Nat.le_max_right _ _⟩
  obtain ⟨r, hrun, hfinish⟩ := Option.bind_eq_some_iff.1 (read_mono hle hread)
  obtain ⟨r', hrun', -⟩ := Reader.reads (object ms) [] (by rwa [List.length_nil, Nat.zero_add])
  rw [htext] at hrun'
  have hrest := (Reader.run_of_run hrun).symm.trans hrun'
  obtain ⟨cs', hlast⟩ := text_object_last ms
  have hbrace : ds.getLast hds = '\x7d' := by
    rw [htext, ← List.dropLast_append_getLast hds, ← List.append_assoc] at hlast
    exact (List.append_inj' hlast rfl).2 |> List.singleton_inj.1
  have hmem : '\x7d' ∈ ds := hbrace ▸ List.getLast_mem hds
  exact ((Reader.ended_of_finish hfinish).run hrest '\x7d' hmem).2 rfl

end Json

/-! ## Nesting -/

section

variable {limit height : ℕ}

/-- The members of an object that stands at some depth are not nested too deep. -/
def MembersFit (limit height : ℕ) (ms : List (String × Json)) : Prop :=
  height + 1 < limit ∧ ∀ m ∈ ms, height + 1 + m.2.depth < limit

def ItemsFit (limit height : ℕ) (items : List Json) : Prop :=
  height + 1 < limit ∧ ∀ j ∈ items, height + 1 + j.depth < limit

theorem MembersFit.depth_lt {ms : List (String × Json)} (h : MembersFit limit height ms) :
    height + (Json.object ms).depth < limit := by
  obtain ⟨hheight, hms⟩ := h
  have hdepth : (Json.object ms).depth < limit - height - 1 + 1 :=
    (Json.depth_object_lt (by omega)).2 fun m hm => by
      have := hms m hm
      omega
  omega

theorem ItemsFit.depth_lt {items : List Json} (h : ItemsFit limit height items) :
    height + (Json.array items).depth < limit := by
  obtain ⟨hheight, hitems⟩ := h
  have hdepth : (Json.array items).depth < limit - height - 1 + 1 :=
    (Json.depth_array_lt (by omega)).2 fun j hj => by
      have := hitems j hj
      omega
  omega

theorem MembersFit.snoc {ms : List (String × Json)} (key : String) {j : Json}
    (h : MembersFit limit height ms) (hj : height + 1 + j.depth < limit) :
    MembersFit limit height (ms ++ [(key, j)]) :=
  ⟨h.1, List.forall_mem_append.2 ⟨h.2, by simpa using hj⟩⟩

theorem ItemsFit.snoc {items : List Json} {j : Json} (h : ItemsFit limit height items)
    (hj : height + 1 + j.depth < limit) : ItemsFit limit height (items ++ [j]) :=
  ⟨h.1, List.forall_mem_append.2 ⟨h.2, by simpa using hj⟩⟩

def Frame.Fits (limit height : ℕ) : Frame → Prop
  | .array items => ItemsFit limit height items
  | .object ms _ => MembersFit limit height ms

/-- Every open array and object is at its depth. -/
def StackFits (limit : ℕ) : List Frame → Prop
  | [] => 0 < limit
  | f :: stack => f.Fits limit stack.length ∧ StackFits limit stack

def StringUse.Fits (limit height : ℕ) : StringUse → Prop
  | .value => True
  | .key ms => MembersFit limit height ms

def Phase.Fits (limit height : ℕ) : Phase → Prop
  | .value | .items | .number _ => True
  | .members => MembersFit limit height []
  | .key ms | .colon ms _ => MembersFit limit height ms
  | .after j => height + j.depth < limit
  | .word _ j => j.depth = 0
  | .string use _ | .escape use _ | .unicode use _ _ _ _ | .surrogate use _ _ _ => use.Fits limit height

end

namespace Reader

variable {limit : ℕ} {stack : List Frame} {use : StringUse} {c : Char} {j : Json} {r r' : Reader}

/-- What the reader holds is not nested too deep. -/
def Fits (limit : ℕ) (r : Reader) : Prop :=
  StackFits limit r.stack ∧ r.phase.Fits limit r.stack.length

theorem length_lt_of_fits (h : StackFits limit stack) : stack.length < limit := by
  cases stack with
  | nil => exact h
  | cons f stack =>
    cases f with
    | array items => exact h.1.1
    | object ms key => exact h.1.1

theorem fits_begin (h : StackFits limit stack) (hbegin : begin limit stack c = some r) :
    r.Fits limit := by
  unfold begin at hbegin
  split_ifs at hbegin with _ _ hopen _ hopen <;> obtain rfl := Option.some.inj hbegin
  · exact ⟨h, trivial⟩
  · exact ⟨⟨⟨hopen, by simp⟩, h⟩, trivial⟩
  · exact ⟨h, ⟨hopen, by simp⟩⟩
  · exact ⟨h, rfl⟩
  · exact ⟨h, rfl⟩
  · exact ⟨h, rfl⟩
  · exact ⟨h, trivial⟩

theorem fits_behind (h : StackFits limit stack) (hj : stack.length + j.depth < limit)
    (hbehind : behind stack j c = some r) : r.Fits limit := by
  cases stack with
  | nil =>
    simp only [behind] at hbehind
    split_ifs at hbehind
    obtain rfl := Option.some.inj hbehind
    exact ⟨h, hj⟩
  | cons f stack =>
    obtain ⟨hframe, hstack⟩ := h
    cases f with
    | array items =>
      have hitems := ItemsFit.snoc hframe hj
      simp only [behind] at hbehind
      split_ifs at hbehind <;> obtain rfl := Option.some.inj hbehind
      · exact ⟨⟨hframe, hstack⟩, hj⟩
      · exact ⟨⟨hitems, hstack⟩, trivial⟩
      · exact ⟨hstack, hitems.depth_lt⟩
    | object ms key =>
      have hms := MembersFit.snoc key hframe hj
      simp only [behind] at hbehind
      split_ifs at hbehind <;> obtain rfl := Option.some.inj hbehind
      · exact ⟨⟨hframe, hstack⟩, hj⟩
      · exact ⟨hstack, hms⟩
      · exact ⟨hstack, hms.depth_lt⟩

theorem fits_closeString (h : StackFits limit stack) (huse : use.Fits limit stack.length)
    (cs : List Char) : (closeString stack use cs).Fits limit := by
  cases use with
  | value => exact ⟨h, length_lt_of_fits h⟩
  | key ms => exact ⟨h, huse⟩

theorem fits_closeUnicode {cs : List Char} {high : Option ℕ} {code : ℕ} (h : StackFits limit stack)
    (huse : use.Fits limit stack.length) (hclose : closeUnicode stack use cs high code = some r) :
    r.Fits limit := by
  unfold closeUnicode at hclose
  split at hclose <;> split_ifs at hclose <;> obtain rfl := Option.some.inj hclose <;> exact ⟨h, huse⟩

theorem Fits.step (h : r.Fits limit) (hstep : r.step limit c = some r') : r'.Fits limit := by
  obtain ⟨stack, phase⟩ := r
  obtain ⟨hstack, hphase⟩ := h
  dsimp only at hstack hphase
  cases phase with
  | value =>
    simp only [Reader.step] at hstep
    split_ifs at hstep
    · obtain rfl := Option.some.inj hstep
      exact ⟨hstack, hphase⟩
    · exact fits_begin hstack hstep
  | items =>
    simp only [Reader.step] at hstep
    split_ifs at hstep
    · obtain rfl := Option.some.inj hstep
      exact ⟨hstack, hphase⟩
    · split at hstep
      · obtain rfl := Option.some.inj hstep
        exact ⟨hstack.2, hstack.1.depth_lt⟩
      · cases hstep
    · exact fits_begin hstack hstep
  | members =>
    simp only [Reader.step] at hstep
    split_ifs at hstep <;> obtain rfl := Option.some.inj hstep
    · exact ⟨hstack, hphase⟩
    · exact ⟨hstack, hphase⟩
    · exact ⟨hstack, hphase.depth_lt⟩
  | key ms =>
    simp only [Reader.step] at hstep
    split_ifs at hstep <;> obtain rfl := Option.some.inj hstep <;> exact ⟨hstack, hphase⟩
  | colon ms key =>
    simp only [Reader.step] at hstep
    split_ifs at hstep <;> obtain rfl := Option.some.inj hstep
    · exact ⟨hstack, hphase⟩
    · exact ⟨⟨hphase, hstack⟩, trivial⟩
  | after j => exact fits_behind hstack hphase hstep
  | word rest j =>
    simp only [Reader.step] at hstep
    split at hstep
    · cases hstep
    split_ifs at hstep <;> obtain rfl := Option.some.inj hstep
    · have := length_lt_of_fits hstack
      exact ⟨hstack, by simpa [Phase.Fits, show j.depth = 0 from hphase] using this⟩
    · exact ⟨hstack, hphase⟩
  | number cs =>
    simp only [Reader.step] at hstep
    split_ifs at hstep
    · obtain rfl := Option.some.inj hstep
      exact ⟨hstack, trivial⟩
    split at hstep
    · rename_i n hn
      exact fits_behind (j := .number n) hstack (length_lt_of_fits hstack) hstep
    · cases hstep
  | string use cs =>
    simp only [Reader.step] at hstep
    split_ifs at hstep <;> obtain rfl := Option.some.inj hstep
    · exact fits_closeString hstack hphase cs
    · exact ⟨hstack, hphase⟩
    · exact ⟨hstack, hphase⟩
  | escape use cs =>
    simp only [Reader.step] at hstep
    split_ifs at hstep
    · obtain rfl := Option.some.inj hstep
      exact ⟨hstack, hphase⟩
    · obtain ⟨d, -, rfl⟩ := Option.map_eq_some_iff.1 hstep
      exact ⟨hstack, hphase⟩
  | unicode use cs high count code =>
    simp only [Reader.step] at hstep
    split at hstep
    · cases hstep
    split_ifs at hstep
    · exact fits_closeUnicode hstack hphase hstep
    · obtain rfl := Option.some.inj hstep
      exact ⟨hstack, hphase⟩
  | surrogate use cs high slash =>
    simp only [Reader.step] at hstep
    split_ifs at hstep <;> obtain rfl := Option.some.inj hstep <;> exact ⟨hstack, hphase⟩

theorem Fits.run {cs : List Char} (h : r.Fits limit) (hrun : r.run limit cs = some r') :
    r'.Fits limit := by
  induction cs generalizing r with
  | nil => exact Option.some.inj hrun ▸ h
  | cons c cs ih =>
    rw [run_cons] at hrun
    obtain ⟨r₁, hstep, hrun⟩ := Option.bind_eq_some_iff.1 hrun
    exact ih (h.step hstep) hrun

end Reader

/-- What is read is not nested too deep. -/
theorem Json.depth_of_read {limit : ℕ} {cs : List Char} {j : Json} (hlimit : 0 < limit)
    (h : Json.read limit cs = some j) : j.depth < limit := by
  obtain ⟨r, hrun, hfinish⟩ := Option.bind_eq_some_iff.1 h
  have hfits : r.Fits limit := Reader.Fits.run (r := Reader.start) ⟨hlimit, trivial⟩ hrun
  rcases Reader.finish_eq_some hfinish with rfl | ⟨cs, n, rfl, -, rfl⟩
  · exact Nat.zero_add j.depth ▸ hfits.2
  · exact hlimit

/-- A text that nests too deep is not read. -/
theorem Json.read_text_of_le {limit : ℕ} {j : Json} (hlimit : 0 < limit) (h : limit ≤ j.depth) :
    Json.read limit j.text = none := by
  by_contra hne
  obtain ⟨j', hread⟩ := Option.ne_none_iff_exists'.1 hne
  have hall := Json.read_mono (by omega : limit ≤ j.depth + 1) hread
  rw [Json.read_text (Nat.lt_succ_self _)] at hall
  have := Json.depth_of_read hlimit hread
  rw [← Option.some.inj hall] at this
  omega
