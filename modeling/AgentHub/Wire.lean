import AgentHub.Envelope

/-!
# Wire lines

The lines client and hub exchange (`wire.rs`), one JSON object a line. `serde_json` is
code of its own : the two conversions take it as a parameter and add what `wire.rs` does
around it, the trailing newline and the error text.
-/

namespace AgentHub

/-- Lines a client may send to the hub. -/
inductive ClientLine
  | hello (name token : String)
  | send (envelope : Envelope)
  | await (replyTo kind : Option String) (timeoutSecs : Option UInt64)
  deriving DecidableEq, Repr

/-- Lines the hub may send to a client. -/
inductive ServerLine
  | ok
  | error (message : String)
  | accepted (id : String)
  | envelope (e : Envelope)
  | timeout
  deriving Repr

/-- Why a wire line failed to serialize or parse. `source` is the text of the
`serde_json` error. -/
inductive WireError
  | serialize (source : String)
  | parse (source : String)
  deriving DecidableEq, Repr

def WireError.display : WireError → String
  | .serialize source => "cannot serialize wire line: " ++ source
  | .parse source => "invalid wire line: " ++ source

/-- Serializes one wire value to its JSONL form, trailing newline included. -/
def toJsonl {α : Type} (toString : α → Except String String) (value : α) :
    Except WireError String :=
  match toString value with
  | .ok line => .ok (line ++ "\n")
  | .error source => .error (.serialize source)

/-- Parses one received JSONL line. -/
def fromJsonl {α : Type} (fromStr : String → Except String α) (line : String) :
    Except WireError α :=
  match fromStr line with
  | .ok value => .ok value
  | .error source => .error (.parse source)

end AgentHub
