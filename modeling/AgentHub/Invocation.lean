import AgentHub.Client

/-!
# One invocation of the client

What `run_send` and `run_await` do up to the connection (`prepare`), and the process that
follows (`Client.step`) : it writes the hello, reads the hub's `ok`, writes its verb and reads
one reply. `write_all` may take any number of writes, and `read_line` hands over what
`read_reply` is given.
-/

namespace AgentHub

/-! ## Arguments -/

/-- `char::is_whitespace`. -/
def isWhitespace (c : Char) : Bool :=
  (9 ≤ c.toNat && c.toNat ≤ 13) || c.toNat = 0x20 || c.toNat = 0x85 || c.toNat = 0xA0 ||
    c.toNat = 0x1680 || (0x2000 ≤ c.toNat && c.toNat ≤ 0x200A) || c.toNat = 0x2028 ||
    c.toNat = 0x2029 || c.toNat = 0x202F || c.toNat = 0x205F || c.toNat = 0x3000

/-- `str::trim_end`. -/
def trimEnd (s : String) : String :=
  String.ofList (s.toList.reverse.dropWhile isWhitespace).reverse

/-- The verb an invocation performs, with its flags. -/
inductive Command
  | send («to» kind : String) (correlationId : Option String) (body : String)
  | await (replyTo kind : Option String) (timeout : Option UInt64)

/-- The command line. -/
structure Args where
  asName : String
  tokenFile : String
  command : Command

/-- What an invocation reads before it connects : files, its stdin, a fresh id and its clock. -/
structure Surroundings where
  readFile : String → Except String String
  stdin : Except String String
  uuid : String
  ts : String

/-- What an invocation connects for. -/
structure Invocation where
  name : String
  token : String
  verb : ClientLine

section

variable (S : SerdeJson)

/-- `read_body`, with `-` for stdin. -/
def resolveBody (env : Surroundings) (spec : String) : Except ClientError Value :=
  if spec = "-" then
    match env.stdin with
    | .ok text => readBody S text
    | .error source => .error (.bodyStdin source)
  else readBody S spec

def readToken (env : Surroundings) (path : String) : Except ClientError String :=
  match env.readFile path with
  | .ok raw => .ok (trimEnd raw)
  | .error source => .error (.tokenFile path source)

/-- The line of the verb. -/
def assemble (args : Args) (env : Surroundings) : Except ClientError ClientLine :=
  match args.command with
  | .send recipient kind correlationId body =>
    (resolveBody S env body).map fun body =>
      .send ⟨env.uuid, args.asName, recipient, env.ts, kind, correlationId, body⟩
  | .await replyTo kind timeout => .ok (.await replyTo kind timeout)

/-- `run_send` and `run_await` up to `TcpStream::connect`. -/
def prepare (args : Args) (env : Surroundings) : Except ClientError Invocation :=
  (assemble S args env).bind fun verb =>
    (readToken env args.tokenFile).map fun token => ⟨args.asName, token, verb⟩

/-! ## The process -/

/-- Where an invocation stands. -/
inductive ClientPc
  | connecting
  /-- In `write_all` of the hello, with bytes left. -/
  | writingHello (rest : List UInt8)
  | readingOk
  | writingVerb (rest : List UInt8)
  | readingReply
  | exited (result : Except ClientError Exit)
  deriving DecidableEq

/-- The process, with what went through its socket. -/
structure Client where
  pc : ClientPc
  /-- All bytes its socket accepted. -/
  sent : List UInt8
  /-- All bytes it has read. -/
  consumed : List UInt8

/-- What the process is given. -/
inductive ClientInput
  | connected
  | connectFails (addr source : String)
  /-- A write accepted so many bytes. -/
  | wrote (n : ℕ)
  | writeFails (source : String)
  /-- `read_line` returned these bytes. -/
  | read (bytes : List UInt8)
  | readFails (source : String)

/-- `write_line` up to its first write. -/
def startWrite (line : ClientLine) (pc : List UInt8 → ClientPc) : ClientPc :=
  match toJsonl S.clientLineToString line with
  | .ok jsonl => pc (asBytes jsonl)
  | .error source => .exited (.error (.wire source))

/-- What follows the reply to the hello. -/
def onOkReply (verb : ClientLine) (bytes : List UInt8) : ClientPc :=
  match readReply S "ok" bytes with
  | .ok .ok => startWrite S verb .writingVerb
  | .ok line => .exited (.error (replyError "ok" line))
  | .error e => .exited (.error e)

/-- What an invocation ends with, on the bytes of the reply to its verb. -/
def finish (verb : ClientLine) (bytes : List UInt8) : Except ClientError Exit :=
  match verb with
  | .send _ => finishSend S bytes
  | _ => finishAwait S bytes

namespace Client

def init : Client where
  pc := .connecting
  sent := []
  consumed := []

variable (inv : Invocation)

/-- One step of the process. -/
def step (k : Client) : ClientInput → Option Client
  | .connected =>
    match k.pc with
    | .connecting => some { k with pc := startWrite S (.hello inv.name inv.token) .writingHello }
    | _ => none
  | .connectFails addr source =>
    match k.pc with
    | .connecting => some { k with pc := .exited (.error (.connect addr source)) }
    | _ => none
  | .wrote n =>
    match k.pc with
    | .writingHello rest =>
      if 0 < n ∧ n ≤ rest.length then
        some { k with
          pc := if n = rest.length then .readingOk else .writingHello (rest.drop n)
          sent := k.sent ++ rest.take n }
      else none
    | .writingVerb rest =>
      if 0 < n ∧ n ≤ rest.length then
        some { k with
          pc := if n = rest.length then .readingReply else .writingVerb (rest.drop n)
          sent := k.sent ++ rest.take n }
      else none
    | _ => none
  | .writeFails source =>
    match k.pc with
    | .writingHello _ | .writingVerb _ => some { k with pc := .exited (.error (.socketWrite source)) }
    | _ => none
  | .read bytes =>
    match k.pc with
    | .readingOk => some { k with pc := onOkReply S inv.verb bytes, consumed := k.consumed ++ bytes }
    | .readingReply =>
      some { k with pc := .exited (finish S inv.verb bytes), consumed := k.consumed ++ bytes }
    | _ => none
  | .readFails source =>
    match k.pc with
    | .readingOk | .readingReply => some { k with pc := .exited (.error (.socketRead source)) }
    | _ => none

/-- The process has exited. -/
def hasExited (k : Client) : Bool :=
  match k.pc with
  | .exited _ => true
  | _ => false

end Client

end

end AgentHub
