import AgentHub.Conversation

/-!
# A sample of the hub

Two agents, the lines they send, and third-party functions that do on these lines what
`serde_json` and `chrono` do. The clock always reads the epoch, and no text here needs
escaping. Runs of the sample hub show where a condition is needed and where a guarantee
says something.
-/

namespace AgentHub

/-! ## JSON -/

/-- A JSON string without characters to escape. -/
def quote (s : String) : String :=
  "\"" ++ s ++ "\""

/-- A JSON object. -/
def jsonObject (members : List (String × String)) : String :=
  "\x7b" ++ String.intercalate "," (members.map fun m => quote m.1 ++ ":" ++ m.2) ++ "\x7d"

/-- The JSON of a value that holds no number, and in an object or array only such scalars. -/
def Value.json : Value → String
  | .null | .number _ => "null"
  | .bool b => toString b
  | .string s => quote s
  | .array items => "[" ++ String.intercalate "," (items.map scalar) ++ "]"
  | .object members => jsonObject (members.map fun m => (m.1, scalar m.2))
where
  scalar : Value → String
    | .bool b => toString b
    | .string s => quote s
    | _ => "null"

def Envelope.json (e : Envelope) : String :=
  jsonObject [("id", quote e.id), ("from", quote e.from), ("to", quote e.to), ("ts", quote e.ts),
    ("kind", quote e.kind), ("correlationId", (e.correlationId.map quote).getD "null"),
    ("body", e.body.json)]

def ServerLine.json : ServerLine → String
  | .ok => jsonObject [("ok", jsonObject [])]
  | .error message => jsonObject [("error", jsonObject [("message", quote message)])]
  | .accepted id => jsonObject [("accepted", jsonObject [("id", quote id)])]
  | .envelope e => jsonObject [("envelope", e.json)]
  | .timeout => jsonObject [("timeout", jsonObject [])]

/-- The epoch. -/
def epoch : String :=
  "1970-01-01T00:00:00Z"

def AuthFailureReason.json : AuthFailureReason → String
  | .unknownName => quote "unknown_name"
  | .tokenMismatch => quote "token_mismatch"

def AuditEvent.json : AuditEvent → String
  | .connection _ peer =>
    jsonObject [("connection", jsonObject [("ts", quote epoch), ("peer", quote peer)])]
  | .authFailure _ peer name reason =>
    jsonObject [("auth_failure", jsonObject [("ts", quote epoch), ("peer", quote peer),
      ("name", quote name), ("reason", reason.json)])]
  | .accepted _ envelope =>
    jsonObject [("accepted", jsonObject [("ts", quote epoch), ("envelope", envelope.json)])]
  | .delivery _ id recipient peer =>
    jsonObject [("delivery", jsonObject [("ts", quote epoch), ("id", quote id),
      ("to", quote recipient), ("peer", quote peer)])]

/-! ## Agents and lines -/

/-- An envelope that `bob` sends to `alice`. -/
def sampleEnvelope (id kind : String) : Envelope where
  id := id
  «from» := "bob"
  «to» := "alice"
  ts := epoch
  kind := kind
  correlationId := none
  body := .null

/-- What `alice` sends back. -/
def sampleReply : Envelope where
  id := "r1"
  «from» := "alice"
  «to» := "bob"
  ts := epoch
  kind := "result"
  correlationId := some "m1"
  body := .null

/-- The lines of the sample clients. -/
def sampleLines : List (String × ClientLine) :=
  [("\x7b\"hello\":\x7b\"name\":\"alice\",\"token\":\"a-token\"\x7d\x7d", .hello "alice" "a-token"),
   ("\x7b\"hello\":\x7b\"name\":\"bob\",\"token\":\"b-token\"\x7d\x7d", .hello "bob" "b-token"),
   ("\x7b\"await\":\x7b\"replyTo\":null,\"kind\":null,\"timeoutSecs\":1\x7d\x7d",
    .await none none (some 1)),
   ("\x7b\"await\":\x7b\"replyTo\":null,\"kind\":\"result\",\"timeoutSecs\":1\x7d\x7d",
    .await none (some "result") (some 1)),
   ("\x7b\"send\":" ++ (sampleEnvelope "m1" "task").json ++ "\x7d", .send (sampleEnvelope "m1" "task")),
   ("\x7b\"send\":" ++ (sampleEnvelope "m2" "result").json ++ "\x7d",
    .send (sampleEnvelope "m2" "result")),
   ("\x7b\"send\":" ++ sampleReply.json ++ "\x7d", .send sampleReply)]

def sampleRoster : Roster where
  agents := [("alice", "a-token"), ("bob", "b-token")]
  nodup := by decide

/-- The roster file of the sample hub. -/
def sampleRosterFile : String :=
  "[agents]\nalice = \"a-token\"\nbob = \"b-token\"\n"

/-- What the TOML parser makes of that file. -/
def sampleFromStr (text : String) : Except String Roster :=
  if text = sampleRosterFile then .ok sampleRoster else .error "missing field `agents`"

theorem load_sampleRoster :
    Roster.load (fun _ => .ok sampleRosterFile) sampleFromStr "roster.toml" = .ok sampleRoster := by
  simp [Roster.load, sampleFromStr, sampleRoster, Roster.checkEntries, hubName]

def sampleLibs : Libs where
  clientLineFromStr text :=
    match sampleLines.lookup text with
    | some line => .ok line
    | none => .error "expected value at line 1 column 1"
  serverLineToString line := .ok line.json
  auditEventToString event := .ok event.json
  parseFromRfc3339 ts := if ts = epoch then .ok 0 else .error "premature end of input"
  toRfc3339Secs _ := epoch
  debugStr := quote

theorem sampleLibs_serializes : sampleLibs.Serializes :=
  ⟨fun _ => ⟨_, rfl⟩, fun _ => ⟨_, rfl⟩⟩

theorem sampleLines_lookup (i : Fin sampleLines.length) :
    sampleLines.lookup (sampleLines.get i).1 = some (sampleLines.get i).2 := by
  have hnodup : (sampleLines.map Prod.fst).Nodup := by decide +kernel
  have hsplit := take_get_drop sampleLines i
  rw [hsplit, List.map_append, List.map_cons, List.nodup_append] at hnodup
  refine List.lookup_eq_some_iff.2 ⟨_, _, hsplit, fun p hp => ?_⟩
  simpa using (hnodup.2.2 _ (List.mem_map_of_mem hp) _ List.mem_cons_self).symm

/-- The bytes of the sample line at position `i`. -/
def sampleBytes (i : Fin sampleLines.length) :
    (sampleLines.get i).2.Bytes sampleLibs where
  bytes := asBytes (sampleLines.get i).1
  text := (sampleLines.get i).1
  newline_notMem := by revert i; decide +kernel
  length_le := by revert i; decide +kernel
  utf8 := by revert i; decide +kernel
  decodes := by simp only [sampleLibs, sampleLines_lookup]

def aliceHello : (ClientLine.hello "alice" "a-token").Bytes sampleLibs :=
  sampleBytes ⟨0, by decide⟩

def bobHello : (ClientLine.hello "bob" "b-token").Bytes sampleLibs :=
  sampleBytes ⟨1, by decide⟩

def awaitAny : (ClientLine.await none none (some 1)).Bytes sampleLibs :=
  sampleBytes ⟨2, by decide⟩

def awaitResult : (ClientLine.await none (some "result") (some 1)).Bytes sampleLibs :=
  sampleBytes ⟨3, by decide⟩

def sendTask : (ClientLine.send (sampleEnvelope "m1" "task")).Bytes sampleLibs :=
  sampleBytes ⟨4, by decide⟩

def sendResult : (ClientLine.send (sampleEnvelope "m2" "result")).Bytes sampleLibs :=
  sampleBytes ⟨5, by decide⟩

def sendReply : (ClientLine.send sampleReply).Bytes sampleLibs :=
  sampleBytes ⟨6, by decide⟩

/-! ## Runs -/

/-- The audit log at startup, empty. -/
def sampleAudit : AuditLog where
  path := "audit.jsonl"
  file := []

/-- The states the sample hub reaches. -/
abbrev SampleReach : Hub → Prop :=
  Hub.Reach sampleLibs sampleRoster sampleAudit

/-- The state a list of actions leads to. -/
def runSample (as : List Action) : Option Hub :=
  Machine.run (Hub.step sampleLibs sampleRoster) (Hub.init sampleAudit) (as.map fun a => (0, a))

theorem exists_of_runSample {as : List Action} {P : Hub → Bool}
    (h : (runSample as).any P = true) : ∃ s, SampleReach s ∧ P s = true := by
  cases hs : runSample as with
  | none => simp [hs] at h
  | some s => exact ⟨s, Machine.reach_of_run hs, by simpa [hs] using h⟩

/-- A run and how it goes on. -/
theorem exists_of_runSample_append {as bs : List Action} {P : Hub → Hub → Bool}
    (h : ((runSample as).any fun s₀ => (Machine.run (Hub.step sampleLibs sampleRoster) s₀
      (bs.map fun a => (0, a))).any (P s₀)) = true) :
    ∃ s₀ s, SampleReach s₀ ∧ Machine.Reach (Hub.step sampleLibs sampleRoster) s₀ s ∧ P s₀ s = true := by
  obtain ⟨s₀, h₀, hrest⟩ := Option.any_eq_true _ _ |>.1 h
  obtain ⟨s, hs, hP⟩ := Option.any_eq_true _ _ |>.1 hrest
  exact ⟨s₀, s, Machine.reach_of_run h₀, Machine.reach_of_run hs, hP⟩

/-- One write accepts the whole audit line of `event`. -/
def whole (event : AuditEvent) : List WriteResult :=
  [.ok (asBytes (event.json ++ "\n")).length]

/-- A client connects and sends its two lines, and the hub dispatches the verb. -/
def opening (c : ConnId) (hello line : List UInt8) : List Action :=
  [.accept c "127.0.0.1:49152", .lockAudit c, .append c (whole (.connection 0 "127.0.0.1:49152")),
    .unlockAudit c, .task c (.recv (.ok (hello ++ [newline]))), .task c (.replied (.ok ())),
    .task c (.recv (.ok (line ++ [newline])))]

/-- The blocking job of a commit. -/
def committing (c : ConnId) (e : Envelope) : List Action :=
  [.lockAudit c, .append c (whole (.accepted 0 e)), .route c, .unlockAudit c]

/-- One write accepts the whole line of `e`. -/
def delivering (c : ConnId) (e : Envelope) : Action :=
  .task c (.wrote (.ok (asBytes ((ServerLine.envelope e).json ++ "\n")).length))

/-- `alice` waits, `bob`'s task is handed to her and written, and `bob`'s result is queued. -/
def exchange : List Action :=
  opening 0 aliceHello.bytes awaitAny.bytes ++ [.await 0] ++
  opening 1 bobHello.bytes sendTask.bytes ++ committing 1 (sampleEnvelope "m1" "task") ++
  [.task 1 (.replied (.ok ())), .task 0 .polled, delivering 0 (sampleEnvelope "m1" "task"),
    .lockAudit 0, .append 0 (whole (.delivery 0 "m1" "alice" "127.0.0.1:49152")), .unlockAudit 0] ++
  opening 2 bobHello.bytes sendResult.bytes ++ committing 2 (sampleEnvelope "m2" "result")

end AgentHub
