import AgentHub.Audit
import AgentHub.Lib.Split

/-!
# Reading and writing one line

`read_line_bounded` as a step on what one `fill_buf` returns : the buffered bytes, where
no bytes is end-of-file, or a read error. The step either asks for more, with the line
read so far, or ends with a result and the bytes it leaves in the buffer.

`write_envelope_line` as a step on what one socket write returns. The loop goes on past a
short write, leaves on an error or on a write that accepts nothing, and is then classified
by the number of bytes accepted.
-/

namespace AgentHub

/-- Hard cap on one protocol line read from a peer. -/
def maxLineBytes : ℕ :=
  1024 * 1024

/-- Why reading one protocol line from a peer failed. No variant holds line content. -/
inductive ReadLineError
  | io (source : String)
  | truncatedLine (received : ℕ)
  | tooLong
  | notUtf8
  deriving DecidableEq, Repr

def ReadLineError.display : ReadLineError → String
  | .io source => "socket read failed: " ++ source
  | .truncatedLine received =>
    "connection closed mid-line after " ++ toString received ++ " bytes"
  | .tooLong => "line exceeds " ++ toString maxLineBytes ++ " byte limit"
  | .notUtf8 => "line is not valid UTF-8"

/-- One round of the reading loop. -/
inductive ReadStep
  /-- The buffer is used up without a newline; `line` is read so far. -/
  | more (line : List UInt8)
  /-- The call returns; `rest` stays in the buffer. -/
  | done (result : Except ReadLineError (Option String)) (rest : List UInt8)

/-- The newline byte. -/
def newline : UInt8 :=
  10

/-- One round of `read_line_bounded` with `line` read so far, on what `fill_buf` returns. -/
def readLineStep (line : List UInt8) : Except String (List UInt8) → ReadStep
  | .error source => .done (.error (.io source)) []
  | .ok buf =>
    if buf = [] then
      if line = [] then .done (.ok none) []
      else .done (.error (.truncatedLine line.length)) []
    else match buf.findFinIdx? (· = newline) with
      | some i =>
        let line := line ++ buf.take i
        let rest := buf.drop (i + 1)
        if line.length > maxLineBytes then .done (.error .tooLong) rest
        else match fromUtf8 line with
          | some text => .done (.ok (some text)) rest
          | none => .done (.error .notUtf8) rest
      | none =>
        let line := line ++ buf
        if line.length > maxLineBytes then .done (.error .tooLong) []
        else .more line

/-- Reading goes on only past bytes that hold no newline. -/
theorem readLineStep_eq_more {line line' : List UInt8} {r : Except String (List UInt8)}
    (h : readLineStep line r = .more line') :
    ∃ buf, r = .ok buf ∧ line' = line ++ buf ∧ newline ∉ buf := by
  unfold readLineStep at h
  split at h
  · cases h
  rename_i buf
  split_ifs at h with hbuf hline
  split at h
  · dsimp only at h
    split_ifs at h with hlong
    split at h <;> cases h
  · rename_i hnl
    dsimp only at h
    split_ifs at h with hlong
    refine ⟨buf, rfl, by cases h; rfl, fun hmem => ?_⟩
    have := List.findFinIdx?_eq_none_iff.1 hnl _ hmem
    simp at this

/-- A line ends at the first newline : what was read before it is the line's text, what
stands behind it stays in the buffer. -/
theorem readLineStep_eq_line {line rest : List UInt8} {r : Except String (List UInt8)}
    {text : String} (h : readLineStep line r = .done (.ok (some text)) rest) :
    ∃ pre, r = .ok (pre ++ newline :: rest) ∧ newline ∉ pre ∧
      (line ++ pre).length ≤ maxLineBytes ∧ fromUtf8 (line ++ pre) = some text := by
  unfold readLineStep at h
  split at h
  · simp at h
  rename_i buf
  split_ifs at h with hbuf hline
  · simp at h
  · simp at h
  split at h
  · rename_i i hi
    obtain ⟨hl, -, hp, hpre⟩ := findFinIdx?_split hi
    dsimp only at h
    split_ifs at h with hlong
    · simp at h
    split at h
    · rename_i text' htext
      simp only [ReadStep.done.injEq, Except.ok.injEq, Option.some.injEq] at h
      obtain ⟨rfl, rfl⟩ := h
      have hget : buf.get i = newline := by simpa using hp
      refine ⟨buf.take i, by rw [← hget, ← hl], fun hmem => ?_, by simpa using hlong, htext⟩
      simpa using hpre _ hmem
    · simp at h
  · dsimp only at h
    split_ifs at h with hlong
    simp at h

/-- What becomes of a line that a newline ended. -/
def endOfLine (line : List UInt8) : Except ReadLineError (Option String) :=
  if maxLineBytes < line.length then .error .tooLong
  else match fromUtf8 line with
    | some text => .ok (some text)
    | none => .error .notUtf8

/-- A buffer with a newline ends the line at the first one. -/
theorem readLineStep_of_newline {line pre : List UInt8} (hpre : newline ∉ pre)
    (rest : List UInt8) : readLineStep line (.ok (pre ++ newline :: rest)) =
      .done (endOfLine (line ++ pre)) rest := by
  have hne : pre ++ newline :: rest ≠ [] := by simp
  unfold readLineStep endOfLine
  dsimp only
  rw [if_neg hne]
  cases hfind : (pre ++ newline :: rest).findFinIdx? (· = newline) with
  | none =>
    have := List.findFinIdx?_eq_none_iff.1 hfind newline (by simp)
    simp at this
  | some i =>
    obtain ⟨hl, -, hp, hbefore⟩ := findFinIdx?_split hfind
    have hget : (pre ++ newline :: rest).get i = newline := by simpa using hp
    rw [hget] at hl
    have htake : pre = (pre ++ newline :: rest).take i ∧
        rest = (pre ++ newline :: rest).drop (i + 1) := by
      refine split_at_first hl hpre fun hmem => ?_
      simpa using hbefore _ hmem
    dsimp only
    rw [← htake.1, ← htake.2]
    split_ifs with hlong
    · rfl
    · cases fromUtf8 (line ++ pre) <;> rfl

/-- Every line of valid UTF-8 within the cap is read. -/
theorem readLineStep_of_line {line rest : List UInt8} {text : String} (hnl : newline ∉ line)
    (hlen : line.length ≤ maxLineBytes) (htext : fromUtf8 line = some text) :
    readLineStep [] (.ok (line ++ newline :: rest)) = .done (.ok (some text)) rest := by
  rw [readLineStep_of_newline hnl, List.nil_append, endOfLine, if_neg hlen.not_gt, htext]

/-! ## Writing an envelope line -/

/-- How a byte-tracked envelope write ended. -/
inductive EnvelopeWrite
  | written
  | failedClean
  | failedPartial (written : ℕ)
  deriving DecidableEq, Repr

/-- One round of the writing loop. -/
inductive WriteStep
  /-- `written` bytes are accepted, and some are left. -/
  | more (written : ℕ)
  | done (outcome : EnvelopeWrite)
  deriving DecidableEq, Repr

/-- What `write_envelope_line` returns after its loop, for a line of `len` bytes. -/
def classifyWrite (len written : ℕ) : EnvelopeWrite :=
  if len ≤ written then .written
  else if written = 0 then .failedClean
  else .failedPartial written

/-- One round of the loop over a line of `len` bytes, `written` of them accepted so far. A
socket accepts no more than it is offered. -/
def writeRound (len written : ℕ) : WriteResult → Option WriteStep
  | .ok 0 => some (.done (classifyWrite len written))
  | .ok n =>
    if len < written + n then none
    else if written + n < len then some (.more (written + n))
    else some (.done (classifyWrite len (written + n)))
  | .err _ => some (.done (classifyWrite len written))

/-- A round goes on after a short write, and is classified after any other. -/
theorem writeRound_cases {len written : ℕ} {r : WriteResult} {step : WriteStep}
    (h : writeRound len written r = some step) :
    (∃ n, 0 < n ∧ r = .ok n ∧ written + n ≤ len ∧
      step = if written + n < len then .more (written + n) else .done .written) ∨
      ((r = .ok 0 ∨ ∃ e, r = .err e) ∧ step = .done (classifyWrite len written)) := by
  unfold writeRound at h
  split at h
  · exact Or.inr ⟨Or.inl rfl, (Option.some.inj h).symm⟩
  · rename_i n hn
    split_ifs at h with hlen hlt
    · refine Or.inl ⟨n, Nat.pos_of_ne_zero hn, rfl, hlt.le, ?_⟩
      rw [if_pos hlt, Option.some.inj h]
    · refine Or.inl ⟨n, Nat.pos_of_ne_zero hn, rfl, by omega, ?_⟩
      rw [if_neg hlt, ← Option.some.inj h, classifyWrite, if_pos (by omega)]
  · rename_i e
    exact Or.inr ⟨Or.inr ⟨e, rfl⟩, (Option.some.inj h).symm⟩

end AgentHub
