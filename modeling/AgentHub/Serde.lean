import AgentHub.Lib.JsonReader
import AgentHub.Lib.JsonRecords
import AgentHub.Connection
import Mathlib.Algebra.Group.Int.Defs
import Mathlib.Data.String.Basic

/-!
# What serde makes of the wire types

The derives of `wire.rs`, `envelope.rs` and `audit.rs` as functions between their types and
JSON documents : an enum is an object with the variant's name as its one key, a struct an
object with a member for each field under its renamed name. Decoding takes the members in any
order, and a list of all fields instead of an object. It refuses an unknown and a repeated
field, and reads an absent option as `None`.

Texts are another matter (`EncodesAs`, `DecodesAs`) : the compact text of the document on the
way out, and on the way in any JSON text whose arrays and objects nest less deep than
`recursionLimit`. Doubles are code of their own (`Floats`).
-/

namespace AgentHub

/-- `remaining_depth` of a `serde_json` deserializer. An array or object that leaves none is
refused. -/
def recursionLimit : ℕ :=
  128

/-- How `serde_json` parses and prints doubles. A number too large for a double does not
parse. -/
structure Floats where
  parse : Literal → Option UInt64
  print : UInt64 → Literal

/-! ## Values -/

def Number.encode (F : Floats) : Number → Literal
  | .posInt n => .ofInt n.toNat
  | .negInt n => .ofInt n.toInt
  | .float bits => F.print bits

/-- An integer outside of 64 bits is a double, and so is `-0`. -/
def Number.decode (F : Floats) (l : Literal) : Option Number :=
  match l.int? with
  | some z =>
    if l.neg then
      if z < 0 ∧ -2 ^ 63 ≤ z then some (.negInt (Int64.ofInt z)) else (F.parse l).map .float
    else if z < 2 ^ 64 then some (.posInt (UInt64.ofNat z.toNat)) else (F.parse l).map .float
  | none => (F.parse l).map .float

namespace Value

mutual

def encode (F : Floats) : Value → Json
  | .null => .null
  | .bool b => .bool b
  | .number n => .number (n.encode F)
  | .string s => .string s
  | .array items => .array (encodeItems F items)
  | .object ms => .object (encodeMembers F ms)

def encodeItems (F : Floats) : List Value → List Json
  | [] => []
  | v :: vs => encode F v :: encodeItems F vs

def encodeMembers (F : Floats) : List (String × Value) → List (String × Json)
  | [] => []
  | m :: ms => encodeMember F m :: encodeMembers F ms

def encodeMember (F : Floats) : String × Value → String × Json
  | (key, v) => (key, encode F v)

end

mutual

/-- The members of an object are inserted into a `BTreeMap` one after another. -/
def decode (F : Floats) : Json → Option Value
  | .null => some .null
  | .bool b => some (.bool b)
  | .number l => (Number.decode F l).map .number
  | .string s => some (.string s)
  | .array items => (decodeItems F items).map .array
  | .object ms => (decodeMembers F ms).map .ofMembers

def decodeItems (F : Floats) : List Json → Option (List Value)
  | [] => some []
  | j :: js => (decode F j).bind fun v => (decodeItems F js).map (v :: ·)

def decodeMembers (F : Floats) : List (String × Json) → Option (List (String × Value))
  | [] => some []
  | m :: ms => (decodeMember F m).bind fun m => (decodeMembers F ms).map (m :: ·)

def decodeMember (F : Floats) : String × Json → Option (String × Value)
  | (key, j) => (decode F j).map fun v => (key, v)

end

end Value

/-! ## Structs -/

/-- A `u64` field. -/
def u64? : Json → Option UInt64
  | .number l =>
    match l.int? with
    | some z => if l.neg = false ∧ z < 2 ^ 64 then some (UInt64.ofNat z.toNat) else none
    | none => none
  | _ => none

/-- A `u64`. -/
def encodeU64 (n : UInt64) : Json :=
  .number (.ofInt n.toNat)

def Envelope.members (F : Floats) (e : Envelope) : List (String × Json) :=
  [("id", .string e.id), ("from", .string e.from), ("to", .string e.to), ("ts", .string e.ts),
    ("kind", .string e.kind), ("correlationId", encodeOption .string e.correlationId),
    ("body", e.body.encode F)]

def Envelope.encode (F : Floats) (e : Envelope) : Json :=
  .object (e.members F)

def Envelope.decode (F : Floats) (j : Json) : Option Envelope := do
  let ms ← j.fields? ["id", "from", "to", "ts", "kind", "correlationId", "body"]
  let id ← field Json.str? "id" ms
  let sender ← field Json.str? "from" ms
  let recipient ← field Json.str? "to" ms
  let ts ← field Json.str? "ts" ms
  let kind ← field Json.str? "kind" ms
  let correlationId ← optionField Json.str? "correlationId" ms
  let body ← field (Value.decode F) "body" ms
  return ⟨id, sender, recipient, ts, kind, correlationId, body⟩

/-! ## Enums -/

def ClientLine.encode (F : Floats) : ClientLine → Json
  | .hello name token => .ofVariant "hello" (.object [("name", .string name), ("token", .string token)])
  | .send e => .ofVariant "send" (e.encode F)
  | .await replyTo kind timeoutSecs =>
    .ofVariant "await" (.object [("replyTo", encodeOption .string replyTo),
      ("kind", encodeOption .string kind), ("timeoutSecs", encodeOption encodeU64 timeoutSecs)])

def ClientLine.decode (F : Floats) (j : Json) : Option ClientLine := do
  let (tag, payload) ← j.variant?
  if tag = "hello" then
    let ms ← payload.fields? ["name", "token"]
    let name ← field Json.str? "name" ms
    let token ← field Json.str? "token" ms
    return .hello name token
  else if tag = "send" then
    let e ← Envelope.decode F payload
    return .send e
  else if tag = "await" then
    let ms ← payload.fields? ["replyTo", "kind", "timeoutSecs"]
    let replyTo ← optionField Json.str? "replyTo" ms
    let kind ← optionField Json.str? "kind" ms
    let timeoutSecs ← optionField u64? "timeoutSecs" ms
    return .await replyTo kind timeoutSecs
  else none

def ServerLine.encode (F : Floats) : ServerLine → Json
  | .ok => .ofVariant "ok" (.object [])
  | .error message => .ofVariant "error" (.object [("message", .string message)])
  | .accepted id => .ofVariant "accepted" (.object [("id", .string id)])
  | .envelope e => .ofVariant "envelope" (e.encode F)
  | .timeout => .ofVariant "timeout" (.object [])

def ServerLine.decode (F : Floats) (j : Json) : Option ServerLine := do
  let (tag, payload) ← j.variant?
  if tag = "ok" then
    let _ ← payload.fields? []
    return .ok
  else if tag = "error" then
    let ms ← payload.fields? ["message"]
    let message ← field Json.str? "message" ms
    return .error message
  else if tag = "accepted" then
    let ms ← payload.fields? ["id"]
    let id ← field Json.str? "id" ms
    return .accepted id
  else if tag = "envelope" then
    let e ← Envelope.decode F payload
    return .envelope e
  else if tag = "timeout" then
    let _ ← payload.fields? []
    return .timeout
  else none

def AuthFailureReason.encode : AuthFailureReason → Json
  | .unknownName => .string "unknown_name"
  | .tokenMismatch => .string "token_mismatch"

/-- `formatTs` is the form in which `chrono` serializes a `DateTime<Utc>`. -/
def AuditEvent.encode (F : Floats) (formatTs : DateTime → String) : AuditEvent → Json
  | .connection ts peer =>
    .ofVariant "connection" (.object [("ts", .string (formatTs ts)), ("peer", .string peer)])
  | .authFailure ts peer name reason =>
    .ofVariant "auth_failure" (.object [("ts", .string (formatTs ts)), ("peer", .string peer),
      ("name", .string name), ("reason", reason.encode)])
  | .accepted ts e =>
    .ofVariant "accepted" (.object [("ts", .string (formatTs ts)), ("envelope", e.encode F)])
  | .delivery ts id recipient peer =>
    .ofVariant "delivery" (.object [("ts", .string (formatTs ts)), ("id", .string id),
      ("to", .string recipient), ("peer", .string peer)])

/-! ## Texts -/

/-- `to_string` writes the compact text of the document. -/
def EncodesAs {α : Type} (toString : α → Except String String) (encode : α → Json) : Prop :=
  ∀ v, toString v = .ok (String.ofList (encode v).text)

/-- `from_str` reads the values of the documents that can be decoded, and nothing else. -/
def DecodesAs {α : Type} (fromStr : String → Except String α) (decode : Json → Option α) : Prop :=
  ∀ text v, fromStr text = .ok v ↔
    ∃ j, Json.read recursionLimit text.toList = some j ∧ decode j = some v

/-- `serde_json::to_string` and `serde_json::from_str` at the types of client and hub. -/
structure SerdeJson where
  clientLineToString : ClientLine → Except String String
  clientLineFromStr : String → Except String ClientLine
  serverLineToString : ServerLine → Except String String
  serverLineFromStr : String → Except String ServerLine
  envelopeToString : Envelope → Except String String
  envelopeFromStr : String → Except String Envelope
  auditEventToString : AuditEvent → Except String String
  valueFromStr : String → Except String Value

/-- They do what the derives say. -/
structure SerdeJson.Derived (S : SerdeJson) (F : Floats) (formatTs : DateTime → String) : Prop where
  clientLine_encodes : EncodesAs S.clientLineToString (ClientLine.encode F)
  clientLine_decodes : DecodesAs S.clientLineFromStr (ClientLine.decode F)
  serverLine_encodes : EncodesAs S.serverLineToString (ServerLine.encode F)
  serverLine_decodes : DecodesAs S.serverLineFromStr (ServerLine.decode F)
  envelope_encodes : EncodesAs S.envelopeToString (Envelope.encode F)
  envelope_decodes : DecodesAs S.envelopeFromStr (Envelope.decode F)
  auditEvent_encodes : EncodesAs S.auditEventToString (AuditEvent.encode F formatTs)
  value_decodes : DecodesAs S.valueFromStr (Value.decode F)

/-- The functions of the hub, with `serde_json` as it is. -/
def Libs.withSerde (L : Libs) (S : SerdeJson) : Libs :=
  { L with
    clientLineFromStr := S.clientLineFromStr
    serverLineToString := S.serverLineToString
    auditEventToString := S.auditEventToString }

/-- `from_str` from its documents. The text of the error is not that of `serde_json`. -/
def fromStrOf {α : Type} (decode : Json → Option α) (text : String) : Except String α :=
  match (Json.read recursionLimit text.toList).bind decode with
  | some v => .ok v
  | none => .error "invalid value"

theorem decodesAs_fromStrOf {α : Type} (decode : Json → Option α) :
    DecodesAs (fromStrOf decode) decode := by
  intro text v
  rw [← Option.bind_eq_some_iff, fromStrOf]
  cases (Json.read recursionLimit text.toList).bind decode <;> simp

def toStringOf {α : Type} (encode : α → Json) (v : α) : Except String String :=
  .ok (String.ofList (encode v).text)

/-- An instance of `serde_json`, but for the texts of its errors. -/
def SerdeJson.ofDerives (F : Floats) (formatTs : DateTime → String) : SerdeJson where
  clientLineToString := toStringOf (ClientLine.encode F)
  clientLineFromStr := fromStrOf (ClientLine.decode F)
  serverLineToString := toStringOf (ServerLine.encode F)
  serverLineFromStr := fromStrOf (ServerLine.decode F)
  envelopeToString := toStringOf (Envelope.encode F)
  envelopeFromStr := fromStrOf (Envelope.decode F)
  auditEventToString := toStringOf (AuditEvent.encode F formatTs)
  valueFromStr := fromStrOf (Value.decode F)

theorem SerdeJson.derived_ofDerives (F : Floats) (formatTs : DateTime → String) :
    (SerdeJson.ofDerives F formatTs).Derived F formatTs where
  clientLine_encodes _ := rfl
  clientLine_decodes := decodesAs_fromStrOf _
  serverLine_encodes _ := rfl
  serverLine_decodes := decodesAs_fromStrOf _
  envelope_encodes _ := rfl
  envelope_decodes := decodesAs_fromStrOf _
  auditEvent_encodes _ := rfl
  value_decodes := decodesAs_fromStrOf _

end AgentHub
