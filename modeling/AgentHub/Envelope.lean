import Mathlib.Data.List.Basic
import Mathlib.Data.Nat.Notation
import Mathlib.Data.Int.Notation

/-!
# Envelopes

The message unit the hub routes (`envelope.rs`), with the JSON value it carries as body.
The hub checks the fields of an envelope with `Envelope.validate` and never looks into
`body`. The one body it writes itself is the object of a bounce.
-/

namespace AgentHub

/-- Text as the bytes of its UTF-8 encoding. -/
def asBytes (s : String) : List UInt8 :=
  s.toUTF8.data.toList

/-- `String::from_utf8`. -/
def fromUtf8 (bytes : List UInt8) : Option String :=
  String.fromUTF8? bytes.toByteArray

/-- A `chrono::DateTime<Utc>`, in nanoseconds since the epoch. -/
abbrev DateTime := ℤ

/-! ## JSON values -/

/-- `serde_json::Number` without `arbitrary_precision` : a `u64`, a negative `i64`, or an
`f64`, given by its bits. -/
inductive Number
  | posInt (n : UInt64)
  | negInt (n : Int64)
  | float (bits : UInt64)
  deriving DecidableEq, Repr

/-- `serde_json::Value`. The members of an object are those of a `BTreeMap` : one for each
key, in key order. -/
inductive Value
  | null
  | bool (b : Bool)
  | number (n : Number)
  | string (s : String)
  | array (items : List Value)
  | object (members : List (String × Value))
  deriving Repr, Inhabited

/-- `BTreeMap::insert` on members in key order : a new value replaces the old one. -/
def insertMember (key : String) (v : Value) : List (String × Value) → List (String × Value)
  | [] => [(key, v)]
  | (k, w) :: ms =>
    if key < k then (key, v) :: (k, w) :: ms
    else if key = k then (key, v) :: ms
    else (k, w) :: insertMember key v ms

/-- The object `json!` builds from its members, in the order they are written. -/
def Value.ofMembers (ms : List (String × Value)) : Value :=
  .object (ms.foldl (fun acc m => insertMember m.1 m.2 acc) [])

/-- The value of an object's member. -/
def Value.member? (key : String) : Value → Option Value
  | .object ms => (ms.find? fun m => m.1 = key).map Prod.snd
  | _ => none

mutual

/-- Whether two values are equal. -/
def Value.same : Value → Value → Bool
  | .null, .null => true
  | .bool a, .bool b => a = b
  | .number a, .number b => a = b
  | .string a, .string b => a = b
  | .array vs, .array ws => sameItems vs ws
  | .object ms, .object ns => sameMembers ms ns
  | _, _ => false

def Value.sameItems : List Value → List Value → Bool
  | [], [] => true
  | v :: vs, w :: ws => v.same w && sameItems vs ws
  | _, _ => false

def Value.sameMembers : List (String × Value) → List (String × Value) → Bool
  | [], [] => true
  | (k, v) :: ms, (k', w) :: ns => k = k' && v.same w && sameMembers ms ns
  | _, _ => false

end

mutual

theorem Value.same_iff : ∀ v w : Value, v.same w = true ↔ v = w
  | .null, w => by cases w <;> simp [Value.same]
  | .bool a, w => by cases w <;> simp [Value.same]
  | .number a, w => by cases w <;> simp [Value.same]
  | .string a, w => by cases w <;> simp [Value.same]
  | .array vs, w => by
    cases w with
    | array ws => simp [Value.same, sameItems_iff vs ws]
    | _ => simp [Value.same]
  | .object ms, w => by
    cases w with
    | object ns => simp [Value.same, sameMembers_iff ms ns]
    | _ => simp [Value.same]

theorem Value.sameItems_iff : ∀ vs ws : List Value, Value.sameItems vs ws = true ↔ vs = ws
  | [], ws => by cases ws <;> simp [Value.sameItems]
  | v :: vs, ws => by
    cases ws with
    | nil => simp [Value.sameItems]
    | cons w ws => simp [Value.sameItems, Value.same_iff v w, sameItems_iff vs ws]

theorem Value.sameMembers_iff : ∀ ms ns : List (String × Value),
    Value.sameMembers ms ns = true ↔ ms = ns
  | [], ns => by cases ns <;> simp [Value.sameMembers]
  | (k, v) :: ms, ns => by
    cases ns with
    | nil => simp [Value.sameMembers]
    | cons m ns =>
      simp [Value.sameMembers, Value.same_iff v m.2, sameMembers_iff ms ns, Prod.ext_iff, and_assoc]

end

instance : DecidableEq Value :=
  fun v w => decidable_of_iff _ (Value.same_iff v w)

/-! ## The envelope -/

/-- Reserved sender identity of hub-synthesized envelopes. -/
def hubName : String :=
  "hub"

/-- Kind of a hub-synthesized bounce envelope. -/
def bounceKind : String :=
  "bounce"

/-- One routed message. -/
structure Envelope where
  id : String
  /-- Sender identity. The hub overwrites it with the authenticated name. -/
  «from» : String
  /-- Destination agent name. -/
  «to» : String
  /-- Sender clock, RFC 3339, kept as the sender's string. -/
  ts : String
  kind : String
  /-- The `id` of the envelope this one answers. -/
  correlationId : Option String
  body : Value
  deriving DecidableEq, Repr, Inhabited

/-- Why an envelope failed validation. `source` is the text of the timestamp parser's
error. -/
inductive EnvelopeError
  | emptyId
  | emptyTo
  | emptyKind
  | emptyCorrelationId
  | invalidTs (ts source : String)
  deriving DecidableEq, Repr

/-- The error's text. `debug` renders a string as `{:?}` does. -/
def EnvelopeError.display (debug : String → String) : EnvelopeError → String
  | .emptyId => "envelope id is empty"
  | .emptyTo => "envelope to is empty"
  | .emptyKind => "envelope kind is empty"
  | .emptyCorrelationId => "envelope correlationId is empty; use null or an envelope id"
  | .invalidTs ts source => "envelope ts " ++ debug ts ++ " is not RFC 3339: " ++ source

/-- Checks the fields in the order of the source. `parseTs` is
`chrono::DateTime::parse_from_rfc3339`. -/
def Envelope.validate (parseTs : String → Except String DateTime) (e : Envelope) :
    Except EnvelopeError Unit :=
  if e.id = "" then .error .emptyId
  else if e.to = "" then .error .emptyTo
  else if e.kind = "" then .error .emptyKind
  else match parseTs e.ts with
    | .error source => .error (.invalidTs e.ts source)
    | .ok _ => if e.correlationId = some "" then .error .emptyCorrelationId else .ok ()

/-- An envelope passes exactly when every check does. `from` and `body` are not checked. -/
theorem Envelope.validate_eq_ok_iff (parseTs : String → Except String DateTime) (e : Envelope) :
    e.validate parseTs = .ok () ↔ e.id ≠ "" ∧ e.to ≠ "" ∧ e.kind ≠ "" ∧
      (∃ t, parseTs e.ts = .ok t) ∧ e.correlationId ≠ some "" := by
  unfold Envelope.validate
  by_cases hid : e.id = ""
  · simp [hid]
  by_cases hto : e.to = ""
  · simp [hid, hto]
  by_cases hkind : e.kind = ""
  · simp [hid, hto, hkind]
  cases ht : parseTs e.ts with
  | error source => simp [hid, hto, hkind]
  | ok t => by_cases hc : e.correlationId = some "" <;> simp [hid, hto, hkind, hc]

end AgentHub
