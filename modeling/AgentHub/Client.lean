import AgentHub.RoundTrip

/-!
# The client

`agent-hub`, up to its sockets (`agent-hub.rs`) : what an invocation makes of its arguments,
the two lines it writes, and what it makes of the lines it reads. `read_line` hands over the
bytes up to a newline, or up to end-of-file. An invocation ends with an exit code and what it
prints, or with a `ClientError`, which is exit code 1.
-/

namespace AgentHub

/-- Why a client invocation failed. The payloads are texts of errors. -/
inductive ClientError
  | tokenFile (path source : String)
  | bodyStdin (source : String)
  | bodyNotJson (source : String)
  | connect (addr source : String)
  | wire (source : WireError)
  | socketWrite (source : String)
  | socketRead (source : String)
  | hubClosed (expected : String)
  | hub (message : String)
  | unexpectedReply (expected got : String)
  deriving DecidableEq, Repr

def ClientError.display : ClientError → String
  | .tokenFile path source => "cannot read token file " ++ path ++ ": " ++ source
  | .bodyStdin source => "cannot read body from stdin: " ++ source
  | .bodyNotJson source => "body is not valid JSON: " ++ source
  | .connect addr source => "cannot connect to hub at " ++ addr ++ ": " ++ source
  | .wire source => source.display
  | .socketWrite source => "cannot write to hub: " ++ source
  | .socketRead source => "cannot read hub reply: " ++ source
  | .hubClosed expected => "hub closed the connection before replying (expected " ++ expected ++ ")"
  | .hub message => "hub error: " ++ message
  | .unexpectedReply expected got =>
    "protocol violation: expected " ++ expected ++ ", hub sent " ++ got

/-- A success : the line printed on stdout, or the exit code of a timeout. -/
inductive Exit
  | success (stdout : String)
  | timeout
  deriving DecidableEq, Repr

/-- The process exit code. -/
def exitCode : Except ClientError Exit → ℕ
  | .ok (.success _) => 0
  | .error _ => 1
  | .ok .timeout => 2

/-- Names a server line for diagnostics. -/
def serverLineKind : ServerLine → String
  | .ok => "ok"
  | .error _ => "error"
  | .accepted _ => "accepted"
  | .envelope _ => "envelope"
  | .timeout => "timeout"

/-- The hub's own error passes through, any other line breaks the protocol. -/
def replyError (expected : String) : ServerLine → ClientError
  | .error message => .hub message
  | line => .unexpectedReply expected (serverLineKind line)

section

variable (S : SerdeJson)

/-- `read_reply` on the bytes that `read_line` returns, none at end-of-file. -/
def readReply (expected : String) (bytes : List UInt8) : Except ClientError ServerLine :=
  match fromUtf8 bytes with
  | none => .error (.socketRead "stream did not contain valid UTF-8")
  | some line =>
    if bytes = [] then .error (.hubClosed expected)
    else match fromJsonl S.serverLineFromStr line with
      | .ok reply => .ok reply
      | .error source => .error (.wire source)

/-- What `run_send` makes of the reply to its verb. -/
def answerSend : ServerLine → Except ClientError Exit
  | .accepted id => .ok (.success (id ++ "\n"))
  | line => .error (replyError "accepted" line)

/-- What `run_await` makes of the reply to its verb. -/
def answerAwait : ServerLine → Except ClientError Exit
  | .envelope e =>
    match toJsonl S.envelopeToString e with
    | .ok jsonl => .ok (.success jsonl)
    | .error source => .error (.wire source)
  | .timeout => .ok .timeout
  | line => .error (replyError "envelope or timeout" line)

/-- `run_await`, from its last read on. -/
def finishAwait (bytes : List UInt8) : Except ClientError Exit :=
  (readReply S "envelope or timeout" bytes).bind (answerAwait S)

/-- `run_send`, from its last read on. -/
def finishSend (bytes : List UInt8) : Except ClientError Exit :=
  (readReply S "accepted" bytes).bind answerSend

/-- `read_body` of an inline body. -/
def readBody (text : String) : Except ClientError Value :=
  match S.valueFromStr text with
  | .ok body => .ok body
  | .error source => .error (.bodyNotJson source)

end

end AgentHub
