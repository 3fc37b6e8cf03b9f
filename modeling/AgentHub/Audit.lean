import AgentHub.Envelope

/-!
# The audit log

The events of the audit log and the writer that appends them (`audit.rs`). The file is the
list of its bytes. `writeAll` is the standard library's `write_all` over the results the
operating system gives to its writes, one after another : it resumes after a short write,
retries an interrupted one, and stops at any other error, or at a write that accepts
nothing.
-/

namespace AgentHub

/-- Why authentication failed. -/
inductive AuthFailureReason
  | unknownName
  | tokenMismatch
  deriving DecidableEq, Repr

def AuthFailureReason.display : AuthFailureReason → String
  | .unknownName => "unknown agent name"
  | .tokenMismatch => "token mismatch"

/-- One protocol event. -/
inductive AuditEvent
  /-- A TCP connection was accepted, before any authentication. -/
  | connection (ts : DateTime) (peer : String)
  /-- A hello line failed verification. `name` is what the client asserted. -/
  | authFailure (ts : DateTime) (peer name : String) (reason : AuthFailureReason)
  /-- An envelope was accepted, `from` already stamped. -/
  | accepted (ts : DateTime) (envelope : Envelope)
  /-- An envelope was written to the `await` client of `to`. -/
  | delivery (ts : DateTime) (id «to» peer : String)
  deriving Repr

/-- An `std::io::Error` of a write. -/
inductive IoError
  | interrupted
  | writeZero
  | other (message : String)
  deriving DecidableEq, Repr

def IoError.display : IoError → String
  | .interrupted => "Interrupted system call (os error 4)"
  | .writeZero => "failed to write whole buffer"
  | .other message => message

/-- What one `write` returns : the number of bytes accepted, or an error. -/
inductive WriteResult
  | ok (n : ℕ)
  | err (e : IoError)
  deriving DecidableEq, Repr

/-- `write_all` of `buf` to the end of `file`. The call has not returned when the results
run out, and no write accepts more bytes than it was offered. -/
def writeAll : List UInt8 → List UInt8 → List WriteResult →
    Option (List UInt8 × Except IoError Unit)
  | file, [], _ => some (file, .ok ())
  | _, _ :: _, [] => none
  | file, b :: bs, r :: rs =>
    match r with
    | .ok 0 => some (file, .error .writeZero)
    | .ok n =>
      if n ≤ (b :: bs).length then writeAll (file ++ (b :: bs).take n) ((b :: bs).drop n) rs
      else none
    | .err .interrupted => writeAll file (b :: bs) rs
    | .err e => some (file, .error e)

/-- Why an audit-log operation failed, with the file's path. -/
inductive AuditError
  | «open» (path source : String)
  | serialize (source : String)
  | write (path source : String)
  deriving DecidableEq, Repr

def AuditError.display : AuditError → String
  | .open path source => "cannot open audit log " ++ path ++ ": " ++ source
  | .serialize source => "cannot serialize audit event: " ++ source
  | .write path source => "cannot append to audit log " ++ path ++ ": " ++ source

/-- The audit log writer and the bytes of its file. -/
structure AuditLog where
  path : String
  file : List UInt8

/-- Appends one event as a single JSONL line. `toString` is `serde_json::to_string`; an
event that does not serialize is never written. -/
def AuditLog.write (toString : AuditEvent → Except String String) (log : AuditLog)
    (event : AuditEvent) (os : List WriteResult) : Option (AuditLog × Except AuditError Unit) :=
  match toString event with
  | .error source => some (log, .error (.serialize source))
  | .ok line =>
    match writeAll log.file (asBytes (line ++ "\n")) os with
    | none => none
    | some (file, .ok ()) => some ({ log with file }, .ok ())
    | some (file, .error e) => some ({ log with file }, .error (.write log.path e.display))

/-- A write that the operating system accepts whole. -/
theorem writeAll_once (file buf : List UInt8) :
    writeAll file buf [.ok buf.length] = some (file ++ buf, .ok ()) := by
  cases buf with
  | nil => simp [writeAll]
  | cons b bs => simp [writeAll]

theorem AuditLog.write_once {toString : AuditEvent → Except String String} {event : AuditEvent}
    {line : String} (log : AuditLog) (h : toString event = .ok line) :
    log.write toString event [.ok (asBytes (line ++ "\n")).length] =
      some ({ log with file := log.file ++ asBytes (line ++ "\n") }, .ok ()) := by
  simp only [AuditLog.write, h, writeAll_once]

end AgentHub
