import AgentHub.Lib.Utf8
import AgentHub.LineIo
import AgentHub.Wire

/-!
# Writing an envelope line, whatever the socket accepts

The whole of `write_envelope_line` : the rounds of its loop against a socket that accepts as
much as it likes of each slice (`writeLoop`). `Writes` says which writes are made of a line,
by the socket's answers alone. Each offers all that those before it left, and they go on until
the line is out or the socket accepts nothing. So what was accepted is the beginning of the
line, and how much that was decides the outcome.
-/

namespace AgentHub

/-- How a socket answers the writes of one call, by their number and by the slice offered :
with an error, or with how many bytes of the slice it accepts. -/
abbrev Socket :=
  ℕ → (offered : List UInt8) → Except IoError (Fin (offered.length + 1))

/-- One call to `write` : the slice that was offered, and the answer. -/
structure Write where
  offered : List UInt8
  answer : Except IoError (Fin (offered.length + 1))

namespace Write

/-- How many bytes the socket accepted. -/
def count (w : Write) : ℕ :=
  match w.answer with
  | .error _ => 0
  | .ok n => n

/-- The bytes it accepted. -/
def taken (w : Write) : List UInt8 :=
  w.offered.take w.count

/-- What the task is given. -/
def result (w : Write) : WriteResult :=
  match w.answer with
  | .error e => .err e
  | .ok n => .ok n

/-- The socket accepts nothing more. -/
def Stops (w : Write) : Prop :=
  w.answer = .ok 0 ∨ ∃ e, w.answer = .error e

end Write

/-- A write, as the socket answers it. -/
def Socket.write (socket : Socket) (writes : ℕ) (offered : List UInt8) : Write :=
  ⟨offered, socket writes offered⟩

/-- All bytes that some writes got accepted, in order. -/
def Write.accepted (ws : List Write) : List UInt8 :=
  ws.flatMap Write.taken

/-- The sum of the counts that some writes returned. -/
def Write.total : List Write → ℕ
  | [] => 0
  | w :: ws => w.count + total ws

/-- What the writing loop leaves : the writes it made, and its counter `written`. -/
structure Sent where
  writes : List Write
  written : ℕ

/-- The loop of `write_envelope_line` over the bytes of the line, after some writes. -/
def writeLoop (socket : Socket) (bytes : List UInt8) (writes written : ℕ) : Sent :=
  if written < bytes.length then
    let offered := bytes.drop written
    match socket writes offered with
    | .error source => ⟨[⟨offered, .error source⟩], written⟩
    | .ok n =>
      if n.val = 0 then ⟨[⟨offered, .ok n⟩], written⟩
      else
        let sent := writeLoop socket bytes (writes + 1) (written + n)
        { sent with writes := ⟨offered, .ok n⟩ :: sent.writes }
  else ⟨[], written⟩
termination_by bytes.length - written

/-- `EnvelopeWrite` with the envelope that a clean failure carries back. -/
inductive Reclaiming
  | written
  | failedClean (envelope : Envelope)
  | failedPartial (written : ℕ)

/-- The outcome without the envelope. -/
def Reclaiming.outcome : Reclaiming → EnvelopeWrite
  | .written => .written
  | .failedClean _ => .failedClean
  | .failedPartial n => .failedPartial n

/-- Writes one envelope line to the peer. -/
def writeEnvelopeLine (toString : ServerLine → Except String String) (socket : Socket)
    (envelope : Envelope) : Reclaiming × Sent :=
  match toJsonl toString (.envelope envelope) with
  | .error _ => (.failedClean envelope, ⟨[], 0⟩)
  | .ok jsonl =>
    let bytes := asBytes jsonl
    let sent := writeLoop socket bytes 0 0
    if bytes.length ≤ sent.written then (.written, sent)
    else if sent.written = 0 then (.failedClean envelope, sent)
    else (.failedPartial sent.written, sent)

/-! ## The loop -/

/-- Which writes are made of a line from `offset` on, when some were made before. -/
structure Writes (socket : Socket) (line : List UInt8) (before offset : ℕ) (ws : List Write) : Prop where
  /-- Each offers the line from where those before it came to, and the socket answers it. -/
  offers : ∀ i w, ws[i]? = some w →
    w = socket.write (before + i) (line.drop (offset + Write.total (ws.take i)))
  /-- None is made when the line is out. -/
  unfinished : ∀ i w, ws[i]? = some w → offset + Write.total (ws.take i) < line.length
  /-- None is made after one that the socket accepted nothing of. -/
  goesOn : ∀ i w, ws[i]? = some w → i + 1 < ws.length → ¬ w.Stops
  /-- Only then they end. -/
  ends : offset + Write.total ws = line.length ∨ ∃ w, ws.getLast? = some w ∧ w.Stops

section Loop

variable {socket : Socket} {line : List UInt8} {before offset : ℕ} {w : Write} {ws : List Write}

@[simp] theorem total_nil : Write.total [] = 0 := rfl

@[simp] theorem total_cons (w : Write) (ws : List Write) :
    Write.total (w :: ws) = w.count + Write.total ws := rfl

/-- The last write is one that stops the loop. -/
theorem Writes.stop (hlt : offset < line.length) (hw : (socket.write before (line.drop offset)).Stops) :
    Writes socket line before offset [socket.write before (line.drop offset)] where
  offers i w hi := by
    obtain ⟨rfl, rfl⟩ : i = 0 ∧ socket.write before (line.drop offset) = w := by
      cases i <;> simp_all
    rfl
  unfinished i w hi := by
    obtain rfl : i = 0 := by
      cases i <;> simp_all
    exact hlt
  goesOn i w hi hlen := by
    simp at hlen
  ends := Or.inr ⟨_, rfl, hw⟩

/-- A write that gets something accepted, before others. -/
theorem Writes.more (hlt : offset < line.length)
    (hw : ¬ (socket.write before (line.drop offset)).Stops)
    (h : Writes socket line (before + 1)
      (offset + (socket.write before (line.drop offset)).count) ws) :
    Writes socket line before offset (socket.write before (line.drop offset) :: ws) where
  offers i w hi := by
    cases i with
    | zero => exact (Option.some.inj hi).symm
    | succ i =>
      rw [h.offers i w hi, List.take_succ_cons, total_cons, ← Nat.add_assoc, Nat.add_right_comm before,
        Nat.add_assoc before, Nat.add_assoc offset]
  unfinished i w hi := by
    cases i with
    | zero => exact hlt
    | succ i =>
      rw [List.take_succ_cons, total_cons, ← Nat.add_assoc]
      exact h.unfinished i w hi
  goesOn i w hi hlen := by
    cases i with
    | zero => exact Option.some.inj hi ▸ hw
    | succ i => exact h.goesOn i w hi (Nat.lt_of_succ_lt_succ hlen)
  ends := by
    rw [total_cons, ← Nat.add_assoc]
    refine h.ends.imp_right fun ⟨w, hlast, hstops⟩ => ⟨w, ?_, hstops⟩
    rw [List.getLast?_cons, hlast, Option.getD_some]

variable (socket line)

/-- The loop makes the writes that the socket's answers call for. -/
theorem writes_writeLoop (before offset : ℕ) (h : offset ≤ line.length) :
    Writes socket line before offset (writeLoop socket line before offset).writes := by
  fun_induction writeLoop socket line before offset with
  | case1 before offset hlt offered e hanswer =>
    have hw : socket.write before (line.drop offset) = ⟨offered, .error e⟩ := by
      rw [Socket.write, hanswer]
    exact hw ▸ .stop hlt (hw ▸ Or.inr ⟨e, rfl⟩)
  | case2 before offset hlt offered n hanswer hn =>
    have hw : socket.write before (line.drop offset) = ⟨offered, .ok n⟩ := by
      rw [Socket.write, hanswer]
    exact hw ▸ .stop hlt (hw ▸ Or.inl (congrArg _ (Fin.ext hn)))
  | case3 before offset hlt offered n hanswer hn sent ih =>
    have hw : socket.write before (line.drop offset) = ⟨offered, .ok n⟩ := by
      rw [Socket.write, hanswer]
    have hlen : offered.length = line.length - offset := List.length_drop
    have hn' := n.isLt
    have hgoes : ¬ (socket.write before (line.drop offset)).Stops := by
      rw [hw]
      rintro (hzero | ⟨e, herror⟩)
      · exact hn (congrArg Fin.val (Except.ok.inj hzero))
      · cases herror
    have hrest : Writes socket line before offset
        (socket.write before (line.drop offset) :: sent.writes) :=
      .more hlt hgoes (by rw [hw]; exact ih (by omega))
    rwa [hw] at hrest
  | case4 before offset hge =>
    exact ⟨fun _ _ hi => (by cases hi), fun _ _ hi => (by cases hi), fun _ _ hi => (by cases hi),
      Or.inl (h.antisymm (not_lt.1 hge))⟩

/-- Its counter is what they come to, and they take the line from where it stands. -/
theorem writeLoop_spec (before offset : ℕ) (h : offset ≤ line.length) :
    (writeLoop socket line before offset).written =
        offset + Write.total (writeLoop socket line before offset).writes ∧
      offset + Write.total (writeLoop socket line before offset).writes ≤ line.length ∧
      Write.accepted (writeLoop socket line before offset).writes =
        (line.drop offset).take (Write.total (writeLoop socket line before offset).writes) ∧
      (writeLoop socket line before offset).writes.length ≤ line.length - offset := by
  fun_induction writeLoop socket line before offset with
  | case1 before offset hlt offered e _ =>
    refine ⟨rfl, h, by simp [Write.accepted, Write.taken, Write.count], ?_⟩
    rw [List.length_singleton]
    omega
  | case2 before offset hlt offered n _ hn =>
    refine ⟨by simp [Write.count, hn], by simpa [Write.count, hn] using h,
      by simp [Write.accepted, Write.taken, Write.count, hn], ?_⟩
    rw [List.length_singleton]
    omega
  | case3 before offset hlt offered n _ hn sent ih =>
    have hlen : offered.length = line.length - offset := List.length_drop
    have hn' := n.isLt
    obtain ⟨hwritten, hbound, haccepted, hwrites⟩ := ih (by omega)
    have htotal : Write.total (⟨offered, .ok n⟩ :: sent.writes) = n + Write.total sent.writes := rfl
    refine ⟨?_, ?_, ?_, ?_⟩
    · rw [htotal, ← Nat.add_assoc]
      exact hwritten
    · rw [htotal, ← Nat.add_assoc]
      exact hbound
    · rw [htotal, Write.accepted, List.flatMap_cons, ← Write.accepted, haccepted, List.take_add,
        ← List.drop_drop]
      rfl
    · have hmade : sent.writes.length ≤ line.length - (offset + n) := hwrites
      rw [List.length_cons]
      omega
  | case4 before offset hge => exact ⟨rfl, h, by simp [Write.accepted], Nat.zero_le _⟩

/-- The rounds that a task of the hub makes on some answers, one after the other. -/
def writeRounds (len : ℕ) : ℕ → List WriteResult → Option EnvelopeWrite
  | _, [] => none
  | written, r :: rs =>
    match writeRound len written r with
    | some (.more written') => writeRounds len written' rs
    | some (.done outcome) => if rs = [] then some outcome else none
    | none => none

/-- A task of the hub goes on as long as the loop does, and comes to the same outcome. -/
theorem writeRounds_writeLoop (before offset : ℕ) (h : offset < line.length) :
    writeRounds line.length offset ((writeLoop socket line before offset).writes.map Write.result) =
      some (classifyWrite line.length (writeLoop socket line before offset).written) := by
  fun_induction writeLoop socket line before offset with
  | case1 before offset hlt offered e _ => rfl
  | case2 before offset hlt offered n _ hn =>
    have hresult : (Write.mk offered (.ok n)).result = .ok 0 := congrArg WriteResult.ok hn
    simp only [List.map_cons, List.map_nil, hresult]
    rfl
  | case3 before offset hlt offered n _ hn sent ih =>
    have hlen : offered.length = line.length - offset := List.length_drop
    have hn' := n.isLt
    have hresult : (Write.mk offered (.ok n)).result = .ok n := rfl
    have hround : writeRound line.length offset (.ok n) =
        if offset + n < line.length then some (.more (offset + n))
        else some (.done (classifyWrite line.length (offset + n))) := by
      rw [writeRound, if_neg (by omega)]
      exact hn
    rw [List.map_cons, hresult, writeRounds, hround]
    by_cases hmore : offset + n < line.length
    · rw [if_pos hmore]
      exact ih hmore
    · have hsent : sent = ⟨[], offset + n⟩ := by
        show writeLoop _ _ _ _ = _
        rw [writeLoop, if_neg hmore]
      rw [if_neg hmore, hsent]
      rfl
  | case4 before offset hge => exact absurd h hge

end Loop

/-! ## The classification -/

theorem asBytes_toJsonl_pos {α : Type} {toString : α → Except String String} {value : α}
    {jsonl : String} (h : toJsonl toString value = .ok jsonl) : 0 < (asBytes jsonl).length := by
  unfold toJsonl at h
  split at h
  · rename_i line _
    obtain rfl := Except.ok.inj h
    rw [asBytes, toUTF8_toList, String.toList_append, utf8Bytes_append, List.length_append]
    exact Nat.lt_add_left _ (by decide)
  · cases h

/-- The outcome is that of the bytes that were accepted. -/
theorem outcome_writeEnvelopeLine {toString : ServerLine → Except String String} {e : Envelope}
    {jsonl : String} (h : toJsonl toString (.envelope e) = .ok jsonl) (socket : Socket) :
    (writeEnvelopeLine toString socket e).1.outcome = classifyWrite (asBytes jsonl).length
      (writeLoop socket (asBytes jsonl) 0 0).written := by
  unfold writeEnvelopeLine classifyWrite
  rw [h]
  dsimp only
  split_ifs <;> rfl

/-- The outcome of a write is exact, whatever the socket does. Of the line those writes are made
that the socket's answers call for, at most as many as it has bytes, and what the socket accepts
in them is a beginning of the line, as long as the counts it returned come to. All of it is
`Written`, nothing of it gives the envelope back, and anything between reports the count. A task of
the hub on these answers comes to the same outcome. An envelope that does not serialize comes back
without a write. -/
theorem writeEnvelopeLine_classifies (toString : ServerLine → Except String String)
    (socket : Socket) (e : Envelope) :
    (∀ error, toJsonl toString (.envelope e) = .error error →
      writeEnvelopeLine toString socket e = (.failedClean e, ⟨[], 0⟩)) ∧
    ∀ jsonl, toJsonl toString (.envelope e) = .ok jsonl →
      ∃ ws w, (writeEnvelopeLine toString socket e).2.writes = ws ∧ Write.total ws = w ∧
        Writes socket (asBytes jsonl) 0 0 ws ∧ ws.length ≤ (asBytes jsonl).length ∧
        w ≤ (asBytes jsonl).length ∧ Write.accepted ws = (asBytes jsonl).take w ∧
        ((writeEnvelopeLine toString socket e).1 = .written ↔ w = (asBytes jsonl).length) ∧
        ((writeEnvelopeLine toString socket e).1 = .failedClean e ↔ w = 0) ∧
        (∀ e', (writeEnvelopeLine toString socket e).1 = .failedClean e' → e' = e) ∧
        (∀ n, (writeEnvelopeLine toString socket e).1 = .failedPartial n ↔
          n = w ∧ 0 < w ∧ w < (asBytes jsonl).length) ∧
        writeRounds (asBytes jsonl).length 0 (ws.map Write.result) =
          some (writeEnvelopeLine toString socket e).1.outcome := by
  refine ⟨fun error h => by rw [writeEnvelopeLine, h], fun jsonl h => ?_⟩
  obtain ⟨hwritten, hle, haccepted, hwrites⟩ :=
    writeLoop_spec socket (asBytes jsonl) 0 0 (Nat.zero_le _)
  have hpos := asBytes_toJsonl_pos h
  have hcalls := writes_writeLoop socket (asBytes jsonl) 0 0 (Nat.zero_le _)
  have hrounds := writeRounds_writeLoop socket (asBytes jsonl) 0 0 hpos
  rw [← outcome_writeEnvelopeLine h socket] at hrounds
  rw [Nat.zero_add] at hwritten hle
  rw [List.drop_zero] at haccepted
  rw [Nat.sub_zero] at hwrites
  have hsent : (writeEnvelopeLine toString socket e).2 = writeLoop socket (asBytes jsonl) 0 0 := by
    rw [writeEnvelopeLine, h]
    dsimp only
    split_ifs <;> rfl
  refine ⟨_, _, congrArg Sent.writes hsent, rfl, hcalls, hwrites, hle, haccepted, ?_⟩
  rw [← and_assoc, ← and_assoc, ← and_assoc]
  refine ⟨?_, hrounds⟩
  clear hrounds hsent hcalls
  unfold writeEnvelopeLine
  rw [h]
  dsimp only
  rw [hwritten]
  generalize Write.total (writeLoop socket (asBytes jsonl) 0 0).writes = w at hle
  split_ifs with hall hzero
  · exact ⟨⟨⟨by simpa using hle.antisymm hall, by simpa using by omega⟩, by simp⟩,
      fun n => by simpa using fun _ _ => hall⟩
  · exact ⟨⟨⟨by simpa using by omega, by simpa using hzero⟩, by simp⟩,
      fun n => by simpa using fun _ hw => absurd hzero hw.ne'⟩
  · refine ⟨⟨⟨by simpa using by omega, by simpa using hzero⟩, by simp⟩, fun n => ?_⟩
    rw [Reclaiming.failedPartial.injEq]
    omega

end AgentHub
