import AgentHub.Lib.Utf8
import AgentHub.Serde

/-!
# What serde says of a hello line

`serde_json` reads a line as a stream and stops at the first thing that the derive of
`ClientLine` does not take. `HelloLine` is a line whose object holds a `hello`, cut into the
parts that the derive looks at, and `HelloLine.derive` says how the reading goes : it gives
the hello, or the derive's message with the column that is reached.

A value that is no string is named in the message by its kind, but a number or a boolean is
quoted (`RawValue.readString`).
-/

namespace AgentHub

/-! ## Parts of a JSON text -/

/-- The number of bytes of a text. -/
def byteLength (cs : List Char) : ℕ :=
  (utf8Bytes cs).length

/-- White space. -/
abbrev Spaces :=
  {cs : List Char // ∀ c ∈ cs, isSpace c = true}

def quoted (inside : List Char) : List Char :=
  '\x22' :: inside ++ ['\x22']

/-- A string as it is written. If one of its escapes stands for no character, `value` is what
`serde_json` says of it and the bytes read by then. -/
structure RawString where
  inside : List Char
  value : Except (String × ℕ) String
  reads : ∀ s, value = .ok s → ∃ limit, Json.read limit (quoted inside) = some (.string s)
  stops : ∀ message read, value = .error (message, read) → read ≤ byteLength (quoted inside)

def RawString.text (s : RawString) : List Char :=
  quoted s.inside

/-- A string with no more escapes than it needs. -/
def RawString.plain (s : String) : RawString where
  inside := s.toList.flatMap escapeChar
  value := .ok s
  reads t ht := by
    have hdepth : (Json.string s).depth < 1 := Nat.one_pos
    exact ⟨1, Except.ok.inj ht ▸ Json.read_text hdepth⟩
  stops message read h := by cases h

/-- A value as it is written. -/
inductive RawValue
  | null
  | bool (b : Bool)
  | number (l : Literal)
  | string (s : RawString)
  | array (inside : List Char)
  | object (inside : List Char)

inductive JsonKind
  | null
  | bool
  | number
  | string
  | array
  | object
  deriving DecidableEq, Repr

namespace RawValue

def text : RawValue → List Char
  | .null => "null".toList
  | .bool b => (toString b).toList
  | .number l => l.text
  | .string s => s.text
  | .array inside => '[' :: inside ++ [']']
  | .object inside => '\x7b' :: inside ++ ['\x7d']

def kind : RawValue → JsonKind
  | .null => .null
  | .bool _ => .bool
  | .number _ => .number
  | .string _ => .string
  | .array _ => .array
  | .object _ => .object

end RawValue

/-- A member of an object as it is written. -/
structure RawMember where
  before : Spaces
  key : RawString
  beforeColon : Spaces
  afterColon : Spaces
  value : RawValue
  after : Spaces

namespace RawMember

def text (m : RawMember) : List Char :=
  m.before.1 ++ m.key.text ++ m.beforeColon.1 ++ ':' :: m.afterColon.1 ++ m.value.text ++ m.after.1

/-- Another value under the same key. -/
def put (m : RawMember) (v : RawValue) : RawMember :=
  { m with value := v }

/-- The bytes of a member up to its colon, up to its value, and with the comma or the brace
behind it. -/
def toColon (m : RawMember) : ℕ :=
  byteLength (m.before.1 ++ m.key.text ++ m.beforeColon.1)

def toValue (m : RawMember) : ℕ :=
  m.toColon + 1 + byteLength m.afterColon.1

def size (m : RawMember) : ℕ :=
  m.toValue + byteLength m.value.text + byteLength m.after.1 + 1

end RawMember

/-! ## Messages -/

/-- How `serde_json` reads and shows numbers. -/
structure NumberTexts where
  floats : Floats
  /-- `{}` of an `f64`, the shortest text that is read as the same number. -/
  showFloat : UInt64 → String
  showFloat_inj : ∀ l l' x x', floats.parse l = some x → floats.parse l' = some x' →
    showFloat x = showFloat x' → x = x'
  /-- The bytes of a number that are read when it turns out to be too large. -/
  tooLarge : Literal → ℕ

/-- What was read instead of a string. -/
def invalidType (unexpected : String) : String :=
  "invalid type: " ++ unexpected ++ ", expected a string"

def unknownField (key : String) : String :=
  "unknown field `" ++ key ++ "`, expected `name` or `token`"

def duplicateField (name : String) : String :=
  "duplicate field `" ++ name ++ "`"

def missingField (name : String) : String :=
  "missing field `" ++ name ++ "`"

/-- The `Display` text of an error behind some bytes of a line. -/
def atColumn (message : String) (column : ℕ) : String :=
  message ++ " at line 1 column " ++ toString column

/-- `Unexpected` of a number. -/
def NumberTexts.unexpected (N : NumberTexts) : Number → String
  | .posInt n => "integer `" ++ toString (n.toNat : ℤ) ++ "`"
  | .negInt n => "integer `" ++ toString n.toInt ++ "`"
  | .float bits => "floating point `" ++ N.showFloat bits ++ "`"

/-- The message for a number, and how many of its bytes are read. -/
def NumberTexts.refusal (N : NumberTexts) (l : Literal) : String × ℕ :=
  match Number.decode N.floats l with
  | some n => (invalidType (N.unexpected n), byteLength l.text)
  | none => ("number out of range", N.tooLarge l)

/-- Where the derive expects a string : the string, or the message and how many bytes of the
value are read then. -/
def RawValue.readString (N : NumberTexts) : RawValue → Except (String × ℕ) String
  | .null => .error (invalidType "null", byteLength "null".toList)
  | .bool b => .error (invalidType ("boolean `" ++ toString b ++ "`"), byteLength (toString b).toList)
  | .number l => .error (N.refusal l)
  | .string s => s.value
  | .array _ => .error (invalidType "sequence", 0)
  | .object _ => .error (invalidType "map", 0)

/-! ## The derive -/

section Derive

variable (N : NumberTexts)

/-- The value of the field `name` at the member `m`, `offset` bytes into the line, where it is
already `found` perhaps. -/
def readField (offset : ℕ) (name : String) (found : Option String) (m : RawMember) :
    Except String String :=
  if found.isSome then .error (atColumn (duplicateField name) (offset + m.toColon))
  else match m.value.readString N with
    | .error (message, read) => .error (atColumn message (offset + m.toValue + read))
    | .ok s => .ok s

/-- `visit_map` for the fields of a hello, with the fields found so far. -/
def readFields : ℕ → Option String → Option String → List RawMember →
    Except String (Option String × Option String × ℕ)
  | offset, name, token, [] => .ok (name, token, offset)
  | offset, name, token, m :: ms =>
    match m.key.value with
    | .error (message, read) => .error (atColumn message (offset + byteLength m.before.1 + read))
    | .ok key =>
      if key = "name" then
        match readField N offset key name m with
        | .error e => .error e
        | .ok s => readFields (offset + m.size) (some s) token ms
      else if key = "token" then
        match readField N offset key token m with
        | .error e => .error e
        | .ok s => readFields (offset + m.size) name (some s) ms
      else .error (atColumn (unknownField key) (offset + m.toColon))

/-- A line whose object holds a hello that has members. -/
structure HelloLine where
  lead : Spaces
  /-- The members before the hello, each with a comma behind it. -/
  earlier : List RawMember
  before : Spaces
  tag : RawString
  tag_eq : tag.value = .ok "hello"
  beforeColon : Spaces
  afterColon : Spaces
  members : List RawMember
  nonempty : members ≠ []
  after : Spaces
  /-- The members behind the hello, each with a comma before it. -/
  later : List RawMember
  trail : Spaces

namespace HelloLine

/-- The line up to the hello. -/
def lineStart (line : HelloLine) : List Char :=
  line.lead.1 ++ '\x7b' :: line.earlier.flatMap fun m => m.text ++ [',']

/-- The line up to the first member of the hello. -/
def head (line : HelloLine) : List Char :=
  line.lineStart ++ line.before.1 ++ line.tag.text ++ line.beforeColon.1 ++ ':' :: line.afterColon.1 ++
    ['\x7b']

/-- The line behind the hello. -/
def rest (line : HelloLine) : List Char :=
  line.after.1 ++ line.later.flatMap (fun m => ',' :: m.text) ++ '\x7d' :: line.trail.1

/-- The members of an object with the commas between them. -/
def membersText : List RawMember → List Char
  | [] => []
  | [m] => m.text
  | m :: ms => m.text ++ ',' :: membersText ms

def text (line : HelloLine) : List Char :=
  line.head ++ membersText line.members ++ '\x7d' :: line.rest

/-- What the derive makes of the fields, and what `serde_json` says of a line that goes on. -/
def finish (line : HelloLine) : Option String × Option String × ℕ → Except String ClientLine
  | (none, _, offset) => .error (atColumn (missingField "name") offset)
  | (some _, none, offset) => .error (atColumn (missingField "token") offset)
  | (some name, some token, offset) =>
    if line.later = [] then .ok (.hello name token)
    else .error (atColumn "expected value" (offset + byteLength line.after.1))

/-- `from_str` for a hello line. What stands before the hello is refused before it comes to
the hello, and `early` is what is said then. -/
def derive (early : List Char → String) (line : HelloLine) : Except String ClientLine :=
  if line.earlier = [] then
    (readFields N (byteLength line.head) none none line.members).bind line.finish
  else .error (early line.lineStart)

/-- The line with the value `v` under the key of the member `m`, between other members. -/
def present (line : HelloLine) (pre : List RawMember) (m : RawMember) (post : List RawMember)
    (v : RawValue) : HelloLine :=
  { line with members := pre ++ m.put v :: post, nonempty := by simp }

end HelloLine

end Derive

end AgentHub
