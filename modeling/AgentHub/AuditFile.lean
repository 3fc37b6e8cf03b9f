import AgentHub.AuditOrder
import AgentHub.Sample

/-!
# The audit file

What calls to `AuditLog::write` leave in the file, for every behaviour of the operating
system. An event is serialized before any write, but `write_all` hands its line over in as
many writes as the system likes, and one that fails does not take back the bytes accepted
before it. A call is torn (`Torn`) when it fails between the first byte of its line and the
last.

The file is the original content with one line for each event whose call returned `Ok`
exactly if no call is torn (`file_eq_of_writes`). Each run of the hub is such a sequence of calls
(`exists_writes_of_reach`).
-/

namespace AgentHub

/-- How many bytes of a line of `len` bytes are accepted before a write fails. -/
def acceptedBytes : ℕ → List WriteResult → ℕ
  | _, [] => 0
  | len, .ok n :: rs => if n = 0 ∨ len = 0 then 0 else n + acceptedBytes (len - n) rs
  | len, .err .interrupted :: rs => acceptedBytes len rs
  | _, .err _ :: _ => 0

/-- The bytes of one JSONL line. -/
def jsonl (text : String) : List UInt8 :=
  asBytes (text ++ "\n")

theorem acceptedBytes_zero (os : List WriteResult) : acceptedBytes 0 os = 0 := by
  induction os with
  | nil => rfl
  | cons r os ih =>
    unfold acceptedBytes
    split <;> simp_all

/-- `write_all` appends what is accepted, and returns `Ok` exactly if that is all. -/
theorem writeAll_spec {file file' buf : List UInt8} {os : List WriteResult} {r : Except IoError Unit}
    (h : writeAll file buf os = some (file', r)) :
    file' = file ++ buf.take (acceptedBytes buf.length os) ∧
      (r = .ok () ↔ buf.length ≤ acceptedBytes buf.length os) := by
  fun_induction writeAll file buf os with
  | case1 file os =>
    cases h
    simp [acceptedBytes_zero]
  | case2 => cases h
  | case3 file b bs rs =>
    cases h
    simp [acceptedBytes]
  | case4 file b bs rs n hn hle ih =>
    obtain ⟨rfl, hr⟩ := ih h
    have hn0 : n ≠ 0 := fun h0 => hn h0
    have hlen : ((b :: bs).drop n).length = (b :: bs).length - n := List.length_drop
    have haccepted : acceptedBytes (b :: bs).length (.ok n :: rs) =
        n + acceptedBytes ((b :: bs).length - n) rs := by
      simp [acceptedBytes, hn0]
    rw [hlen] at hr ⊢
    refine ⟨?_, ?_⟩
    · rw [haccepted, List.append_assoc, ← List.take_add]
    · rw [hr, haccepted]
      omega
  | case5 => cases h
  | case6 file b bs rs ih => exact ih h
  | case7 file b bs rs e hne =>
    cases h
    cases e with
    | interrupted => exact absurd rfl hne
    | _ => simp [acceptedBytes]

namespace AuditLog

variable (toString : AuditEvent → Except String String)

/-- Calls to `write`, one after another, with the results of each. -/
def writes : AuditLog → List (AuditEvent × List WriteResult) →
    Option (AuditLog × List (AuditEvent × Except AuditError Unit))
  | log, [] => some (log, [])
  | log, (event, os) :: calls =>
    match log.write toString event os with
    | none => none
    | some (log, r) => (writes log calls).map fun (log, rs) => (log, (event, r) :: rs)

/-- The line of an event whose call returned `Ok`, and nothing for another. -/
def record : AuditEvent × Except AuditError Unit → List UInt8
  | (event, .ok ()) =>
    match toString event with
    | .ok text => jsonl text
    | .error _ => []
  | (_, .error _) => []

/-- A call fails after some bytes of its line are accepted, and before all are. -/
def Torn (call : AuditEvent × List WriteResult) : Prop :=
  ∃ text, toString call.1 = .ok text ∧ 0 < acceptedBytes (jsonl text).length call.2 ∧
    acceptedBytes (jsonl text).length call.2 < (jsonl text).length

variable {toString}

/-- One call appends the record of its event, or a part of its line when it is torn. -/
theorem file_of_write {log log' : AuditLog} {event : AuditEvent} {os : List WriteResult}
    {r : Except AuditError Unit} (h : log.write toString event os = some (log', r)) :
    (¬Torn toString (event, os) ∧ log'.file = log.file ++ record toString (event, r)) ∨
      (Torn toString (event, os) ∧ record toString (event, r) = [] ∧
        log.file.length < log'.file.length) := by
  unfold AuditLog.write at h
  cases htext : toString event with
  | error source =>
    rw [htext] at h
    cases h
    refine Or.inl ⟨?_, by simp [record]⟩
    rintro ⟨text, htext', -⟩
    rw [htext] at htext'
    cases htext'
  | ok text =>
    rw [htext] at h
    dsimp only at h
    have htorn : Torn toString (event, os) ↔ 0 < acceptedBytes (jsonl text).length os ∧
        acceptedBytes (jsonl text).length os < (jsonl text).length := by
      simp [Torn, htext]
    split at h
    · cases h
    · rename_i file hwrite
      cases h
      obtain ⟨hfile, hok⟩ : file = log.file ++ (jsonl text).take (acceptedBytes (jsonl text).length os) ∧
        (_ ↔ (jsonl text).length ≤ acceptedBytes (jsonl text).length os) := writeAll_spec hwrite
      have hall := hok.1 rfl
      refine Or.inl ⟨fun ht => absurd (htorn.1 ht).2 (Nat.not_lt.2 hall), ?_⟩
      rw [List.take_of_length_le hall] at hfile
      simpa only [record, htext] using hfile
    · rename_i file e hwrite
      cases h
      obtain ⟨hfile, hok⟩ : file = log.file ++ (jsonl text).take (acceptedBytes (jsonl text).length os) ∧
        (_ ↔ (jsonl text).length ≤ acceptedBytes (jsonl text).length os) := writeAll_spec hwrite
      have hpart : acceptedBytes (jsonl text).length os < (jsonl text).length :=
        Nat.not_le.1 fun hall => by cases hok.2 hall
      by_cases hzero : acceptedBytes (jsonl text).length os = 0
      · refine Or.inl ⟨fun ht => by have := (htorn.1 ht).1; omega, ?_⟩
        rwa [hzero, List.take_zero] at hfile
      · refine Or.inr ⟨htorn.2 ⟨Nat.pos_of_ne_zero hzero, hpart⟩, rfl, ?_⟩
        have hlen := congrArg List.length hfile
        rw [List.length_append, List.length_take, Nat.min_eq_left hpart.le] at hlen
        dsimp only
        omega

theorem writes_cons {log log' : AuditLog} {event : AuditEvent} {os : List WriteResult}
    {calls : List (AuditEvent × List WriteResult)} {rs : List (AuditEvent × Except AuditError Unit)}
    (h : log.writes toString ((event, os) :: calls) = some (log', rs)) :
    ∃ log₁ r rs', log.write toString event os = some (log₁, r) ∧
      log₁.writes toString calls = some (log', rs') ∧ rs = (event, r) :: rs' := by
  simp only [writes] at h
  split at h
  · cases h
  rename_i log₁ r hwrite
  obtain ⟨⟨log₂, rs'⟩, hrest, heq⟩ := Option.map_eq_some_iff.1 h
  cases heq
  exact ⟨log₁, r, rs', hwrite, hrest, rfl⟩

/-- The file never holds less than the records. -/
theorem length_le_of_writes : ∀ {calls : List (AuditEvent × List WriteResult)} {log log' : AuditLog}
    {rs : List (AuditEvent × Except AuditError Unit)}, log.writes toString calls = some (log', rs) →
    log.file.length + (rs.flatMap (record toString)).length ≤ log'.file.length
  | [], log, log', rs, h => by
    cases h
    simp
  | (event, os) :: calls, log, log', rs, h => by
    obtain ⟨log₁, r, rs', hwrite, hrest, rfl⟩ := writes_cons h
    have ih := length_le_of_writes hrest
    rw [List.flatMap_cons, List.length_append]
    rcases file_of_write hwrite with ⟨-, hfile⟩ | ⟨-, hnone, hlt⟩
    · rw [hfile, List.length_append] at ih
      omega
    · rw [hnone, List.length_nil]
      omega

/-- The file is the original content and the records exactly if no call is torn. -/
theorem file_eq_of_writes : ∀ {calls : List (AuditEvent × List WriteResult)} {log log' : AuditLog}
    {rs : List (AuditEvent × Except AuditError Unit)}, log.writes toString calls = some (log', rs) →
    (log'.file = log.file ++ rs.flatMap (record toString) ↔ ∀ call ∈ calls, ¬Torn toString call)
  | [], log, log', rs, h => by
    cases h
    simp
  | (event, os) :: calls, log, log', rs, h => by
    obtain ⟨log₁, r, rs', hwrite, hrest, rfl⟩ := writes_cons h
    have ih := file_eq_of_writes hrest
    rw [List.forall_mem_cons, List.flatMap_cons]
    rcases file_of_write hwrite with ⟨hwhole, hfile⟩ | ⟨htorn, hnone, hlt⟩
    · rw [← ih, hfile, List.append_assoc]
      exact ⟨fun heq => ⟨hwhole, heq⟩, fun heq => heq.2⟩
    · -- a torn call leaves bytes that no record accounts for
      refine ⟨fun heq => ?_, fun hno => absurd htorn hno.1⟩
      have hlen := length_le_of_writes hrest
      have heq := congrArg List.length heq
      rw [hnone, List.nil_append, List.length_append] at heq
      omega

theorem writes_append {log₁ log' : AuditLog} {event : AuditEvent} {os : List WriteResult}
    {r : Except AuditError Unit} (hwrite : log₁.write toString event os = some (log', r)) :
    ∀ {calls : List (AuditEvent × List WriteResult)} {log : AuditLog}
      {rs : List (AuditEvent × Except AuditError Unit)}, log.writes toString calls = some (log₁, rs) →
      log.writes toString (calls ++ [(event, os)]) = some (log', rs ++ [(event, r)])
  | [], log, rs, h => by
    cases h
    simp [writes, hwrite]
  | (event', os') :: calls, log, rs, h => by
    obtain ⟨log₂, r', rs', hwrite', hrest, rfl⟩ := writes_cons h
    have ih := writes_append hwrite hrest
    simp [writes, hwrite', ih]

end AuditLog

/-! ## The file in a run of the hub -/

/-- The events of a trace whose append returned `Ok`, in append order. -/
def recordsOf (trace : List Obs) : List AuditEvent :=
  trace.filterMap fun
    | .logged _ event => some event
    | .accepted _ _ ts x => some (.accepted ts x.envelope)
    | _ => none

@[simp] theorem recordsOf_append (t t' : List Obs) :
    recordsOf (t ++ t') = recordsOf t ++ recordsOf t' :=
  List.filterMap_append

section Task

variable {L : Libs} {roster : Roster} {now : DateTime} {c : ConnId} {k k' : Conn} {obs : List Obs}

theorem recordsOf_localStep (h : k.LocalStep L roster now c k' obs) : recordsOf obs = [] := by
  cases h with
  | wroteAll hpc hobs => rcases hobs with rfl | rfl <;> simp [recordsOf]
  | _ => simp [recordsOf]

theorem recordsOf_sharedStep {i : Input} (h : k.SharedStep now c i k' obs)
    (hi : ∀ r, i ≠ .appended r) : recordsOf obs = [] := by
  cases h with
  | logged | unlogged | accepted | refused => exact absurd rfl (hi _)
  | _ => simp [recordsOf]

/-- The blocking job emits a record of its event exactly when the append returns `Ok`. -/
theorem recordsOf_appended {r : Except AuditError ℕ} (h : k.SharedStep now c (.appended r) k' obs)
    {event : AuditEvent} (hevent : Hub.pendingEvent now k.pc = some event) :
    recordsOf obs = if r.isOk then [event] else [] := by
  cases h with
  | logged hpc | unlogged hpc | accepted hpc | refused hpc =>
    rw [hpc] at hevent
    cases hevent
    rfl

end Task

namespace Hub

variable {L : Libs} {roster : Roster} {audit : AuditLog} {s s' : Hub}

/-- A run of the hub is a sequence of calls to `AuditLog::write`. -/
theorem exists_writes_of_reach (h : Reach L roster audit s) :
    ∃ calls rs, audit.writes L.auditEventToString calls = some (s.audit, rs) ∧
      (rs.filter fun r => r.2.isOk).map Prod.fst = recordsOf s.trace := by
  refine Machine.Reach.invariant (P := fun s => ∃ calls rs,
    audit.writes L.auditEventToString calls = some (s.audit, rs) ∧
      (rs.filter fun r => r.2.isOk).map Prod.fst = recordsOf s.trace) h
    ⟨[], [], rfl, rfl⟩ fun s a s' hP hs => ?_
  obtain ⟨calls, rs, hwrites, hrecords⟩ := hP
  have hsame : ∀ {obs : List Obs}, s'.audit = s.audit → s'.trace = s.trace ++ obs →
      recordsOf obs = [] → ∃ calls rs, audit.writes L.auditEventToString calls = some (s'.audit, rs) ∧
        (rs.filter fun r => r.2.isOk).map Prod.fst = recordsOf s'.trace := by
    intro obs haudit htrace hobs
    exact ⟨calls, rs, haudit ▸ hwrites, by rw [htrace, recordsOf_append, hobs, List.append_nil, hrecords]⟩
  cases step_cases hs with
  | accept | unlockAudit | loseRace => exact hsame rfl rfl rfl
  | task hk hstep => exact hsame rfl rfl (recordsOf_localStep hstep)
  | lockAudit hfree hk hstep => exact hsame rfl rfl (recordsOf_sharedStep hstep (by simp))
  | route hk hpc | requeue hk hpc =>
    exact hsame (routing_audit _ _ _ _ _ _) (routing_trace _ _ _ _ _ _) rfl
  | take | park => exact hsame rfl rfl rfl
  | deregister => exact hsame (onChan_audit _ _ _) (onChan_trace _ _ _) rfl
  | @append now c os k k' obs event audit' r hlock hk hevent hwrite hstep =>
    refine ⟨_, _, AuditLog.writes_append hwrite hwrites, ?_⟩
    rw [put_trace, recordsOf_append, recordsOf_appended hstep hevent, List.filter_append,
      List.map_append, hrecords]
    cases r <;> rfl

/-- The line of an event. -/
def lineOf (L : Libs) (event : AuditEvent) : List UInt8 :=
  AuditLog.record L.auditEventToString (event, .ok ())

theorem flatMap_record {toString : AuditEvent → Except String String}
    (rs : List (AuditEvent × Except AuditError Unit)) :
    rs.flatMap (AuditLog.record toString) =
      ((rs.filter fun r => r.2.isOk).map Prod.fst).flatMap
        fun event => AuditLog.record toString (event, .ok ()) := by
  induction rs with
  | nil => rfl
  | cons r rs ih =>
    obtain ⟨event, r | u⟩ := r
    · simpa [AuditLog.record, Except.isOk, Except.toBool] using ih
    · simp [ih, Except.isOk, Except.toBool]

/-- After any calls the file is the original content with one complete line for each event
whose call returned `Ok`, in call order, exactly if no call was torn. The hub's file is
written so, and the events are those its trace records. -/
theorem audit_file_integrity (L : Libs) :
    (∀ (log log' : AuditLog) (calls : List (AuditEvent × List WriteResult))
      (rs : List (AuditEvent × Except AuditError Unit)),
      log.writes L.auditEventToString calls = some (log', rs) →
        (log'.file = log.file ++ rs.flatMap (AuditLog.record L.auditEventToString) ↔
          ∀ call ∈ calls, ¬AuditLog.Torn L.auditEventToString call)) ∧
    ∀ (roster : Roster) (audit : AuditLog) (s : Hub), Reach L roster audit s →
      ∃ calls rs, audit.writes L.auditEventToString calls = some (s.audit, rs) ∧
        (rs.filter fun r => r.2.isOk).map Prod.fst = recordsOf s.trace ∧
        (s.audit.file = audit.file ++ (recordsOf s.trace).flatMap (lineOf L) ↔
          ∀ call ∈ calls, ¬AuditLog.Torn L.auditEventToString call) := by
  refine ⟨fun log log' calls rs h => AuditLog.file_eq_of_writes h, fun roster audit s h => ?_⟩
  obtain ⟨calls, rs, hwrites, hrecords⟩ := exists_writes_of_reach h
  refine ⟨calls, rs, hwrites, hrecords, ?_⟩
  rw [← AuditLog.file_eq_of_writes hwrites, flatMap_record, hrecords]
  rfl

/-- The disk fills up at the last byte of a line, and is free again for the next one. -/
def diskFull : List (AuditEvent × List WriteResult) :=
  let event := AuditEvent.accepted 0 (sampleEnvelope "m1" "task")
  [(event, [.ok (asBytes event.json).length, .err (.other "No space left on device (os error 28)")]),
    (.connection 0 "127.0.0.1:49152", whole (.connection 0 "127.0.0.1:49152"))]

/-- A send is refused, and the line of the next event starts at the end of its record. -/
theorem exists_corrupted : ∃ log rs,
    sampleAudit.writes sampleLibs.auditEventToString diskFull = some (log, rs) ∧
      rs.map (fun r => r.2.isOk) = [false, true] ∧
      log.file = asBytes ((AuditEvent.accepted 0 (sampleEnvelope "m1" "task")).json ++
        (AuditEvent.connection 0 "127.0.0.1:49152").json ++ "\n") ∧
      log.file ≠ sampleAudit.file ++ rs.flatMap (AuditLog.record sampleLibs.auditEventToString) := by
  have hrun : (sampleAudit.writes sampleLibs.auditEventToString diskFull).any (fun r =>
      r.2.map (fun r => r.2.isOk) = [false, true] ∧
      r.1.file = asBytes ((AuditEvent.accepted 0 (sampleEnvelope "m1" "task")).json ++
        (AuditEvent.connection 0 "127.0.0.1:49152").json ++ "\n") ∧
      r.1.file ≠ sampleAudit.file ++ r.2.flatMap (AuditLog.record sampleLibs.auditEventToString)) =
      true := by decide +kernel
  obtain ⟨r, hr, hP⟩ := Option.any_eq_true _ _ |>.1 hrun
  exact ⟨r.1, r.2, hr, of_decide_eq_true hP⟩

/-- Where the disk is full from the first byte of the line, nothing is left of it. -/
theorem audit_file_integrity_clean : ∃ log rs,
    sampleAudit.writes sampleLibs.auditEventToString
      [(.accepted 0 (sampleEnvelope "m1" "task"), [.err (.other "No space left on device (os error 28)")]),
        (.connection 0 "127.0.0.1:49152", whole (.connection 0 "127.0.0.1:49152"))] = some (log, rs) ∧
      log.file = sampleAudit.file ++ rs.flatMap (AuditLog.record sampleLibs.auditEventToString) := by
  have hrun : (sampleAudit.writes sampleLibs.auditEventToString
      [(.accepted 0 (sampleEnvelope "m1" "task"), [.err (.other "No space left on device (os error 28)")]),
        (.connection 0 "127.0.0.1:49152", whole (.connection 0 "127.0.0.1:49152"))]).isSome = true := by
    decide +kernel
  obtain ⟨⟨log, rs⟩, h⟩ := Option.isSome_iff_exists.1 hrun
  refine ⟨log, rs, h, ((audit_file_integrity sampleLibs).1 _ _ _ _ h).2 fun call hcall => ?_⟩
  simp only [List.mem_cons, List.not_mem_nil, or_false] at hcall
  rcases hcall with rfl | rfl
  · rintro ⟨text, -, hpos, -⟩
    simp [acceptedBytes] at hpos
  · rintro ⟨text, htext, -, hlt⟩
    cases htext
    revert hlt
    decide +kernel

end Hub

end AgentHub
