import AgentHub.LineIo

/-!
# Reading a line, however it arrives

The whole of `read_line_bounded` : the rounds of its loop over what `fill_buf` returns, one
after the other (`readLine`). The buffer of the reader bounds each chunk. The result depends on
the bytes alone and not on where the chunks end (`lineOf`), a line that is read leaves the
bytes behind its newline, and the line accumulated on the way stays within the cap and one
buffer.
-/

namespace AgentHub

/-- A buffered reader over a socket : the bytes in the buffer, the chunks that are still to
arrive, and the read error after them, where none is end-of-file. No chunk is empty, and
each fits the buffer. -/
structure Reader (capacity : ℕ) where
  buf : List UInt8
  arrivals : List (List UInt8)
  failure : Option String
  length_buf_le : buf.length ≤ capacity
  ne_nil : ∀ c ∈ arrivals, c ≠ []
  length_le : ∀ c ∈ arrivals, c.length ≤ capacity

/-- What `fill_buf` returns when the chunks are used up. -/
def atEnd : Option String → Except String (List UInt8)
  | none => .ok []
  | some source => .error source

/-- The loop of `read_line_bounded` over the buffers that `fill_buf` returns, with `line` read
so far. It returns the result, what stays in the buffer, and the chunks it left alone. -/
def readLineLoop (failure : Option String) (line : List UInt8) :
    List (List UInt8) → Except ReadLineError (Option String) × List UInt8 × List (List UInt8)
  | [] =>
    match readLineStep line (atEnd failure) with
    | .more _ => (.ok none, [], [])
    | .done result rest => (result, rest, [])
  | c :: arrivals =>
    match readLineStep line (.ok c) with
    | .more line => readLineLoop failure line arrivals
    | .done result rest => (result, rest, arrivals)

/-- The values that the accumulated line takes over the loop. -/
def accumulated (line : List UInt8) : List (List UInt8) → List (List UInt8)
  | [] => [line]
  | c :: arrivals =>
    line :: match readLineStep line (.ok c) with
      | .more line => accumulated line arrivals
      | .done _ _ => [line ++ c.takeWhile (· ≠ newline)]

/-! ## The chunk-free reference -/

/-- What becomes of a stream that ends without a newline. -/
def endOfStream (failure : Option String) (stream : List UInt8) :
    Except ReadLineError (Option String) :=
  match failure with
  | some source => .error (.io source)
  | none => if stream.length = 0 then .ok none else .error (.truncatedLine stream.length)

/-- The result for a stream of bytes. With a first newline it is decided by the bytes before
it, and otherwise by the number of bytes and by how the stream ends. -/
def lineOf (failure : Option String) (stream : List UInt8) :
    Except ReadLineError (Option String) :=
  if newline ∈ stream then endOfLine (stream.take (stream.idxOf newline))
  else if maxLineBytes < stream.length then .error .tooLong
  else endOfStream failure stream

section Reference

variable (failure : Option String) {l : List UInt8}

theorem idxOf_newline (hl : newline ∉ l) (t : List UInt8) :
    (l ++ newline :: t).idxOf newline = l.length := by
  rw [List.idxOf_append_of_notMem hl, List.idxOf_cons_self, Nat.add_zero]

theorem lineOf_append_newline (hl : newline ∉ l) (t : List UInt8) :
    lineOf failure (l ++ newline :: t) = endOfLine l := by
  have hmem : newline ∈ l ++ newline :: t := by simp
  rw [lineOf, if_pos hmem, idxOf_newline hl, List.take_left]

/-- Past the cap without a newline, nothing that follows can save the line. -/
theorem lineOf_of_long (hl : newline ∉ l) (hlong : maxLineBytes < l.length) (t : List UInt8) :
    lineOf failure (l ++ t) = .error .tooLong := by
  unfold lineOf
  split_ifs with hmem hlen
  · have ht : newline ∈ t := (List.mem_append.1 hmem).resolve_left hl
    have hidx : maxLineBytes < (l ++ t).idxOf newline := by
      rw [List.idxOf_append_of_notMem hl]
      omega
    have hlt := List.idxOf_lt_length_iff.2 hmem
    have htake : maxLineBytes < ((l ++ t).take ((l ++ t).idxOf newline)).length := by
      rw [List.length_take]
      omega
    rw [endOfLine, if_pos htake]
  · rfl
  · rw [List.length_append] at hlen
    omega

end Reference

/-! ## One round -/

section Round

variable {line c : List UInt8}

/-- A buffer without one is taken whole, and the cap is checked. -/
theorem readLineStep_of_notMem (hne : c ≠ []) (hc : newline ∉ c) :
    readLineStep line (.ok c) = if maxLineBytes < (line ++ c).length
      then .done (.error .tooLong) [] else .more (line ++ c) := by
  have hfind : c.findFinIdx? (· = newline) = none :=
    List.findFinIdx?_eq_none_iff.2 fun b hb => by
      simpa using fun h : b = newline => hc (h ▸ hb)
  unfold readLineStep
  simp only [if_neg hne, hfind]

/-- The loop never goes on at the end, and leaves the buffer empty. -/
theorem readLineStep_atEnd_eq_done (line : List UInt8) (failure : Option String) :
    ∃ result, readLineStep line (atEnd failure) = .done result [] := by
  cases failure with
  | none =>
    by_cases hnil : line = []
    · exact ⟨.ok none, by simp [readLineStep, atEnd, hnil]⟩
    · exact ⟨.error (.truncatedLine line.length), by simp [readLineStep, atEnd, hnil]⟩
  | some source => exact ⟨.error (.io source), rfl⟩

theorem readLineStep_atEnd (failure : Option String) (hline : newline ∉ line)
    (hlen : line.length ≤ maxLineBytes) :
    readLineStep line (atEnd failure) = .done (lineOf failure line) [] := by
  cases failure with
  | none =>
    by_cases hnil : line = []
    · simp [readLineStep, atEnd, lineOf, endOfStream, hnil]
    · simp [readLineStep, atEnd, lineOf, endOfStream, hline, hlen, hnil]
  | some source => simp [readLineStep, atEnd, lineOf, endOfStream, hline, hlen]

/-- A round on a chunk ends the line, finds it too long, or takes the chunk in. -/
theorem readLineStep_cases (line : List UInt8) (hne : c ≠ []) :
    (∃ pre rest, c = pre ++ newline :: rest ∧ newline ∉ pre ∧
        readLineStep line (.ok c) = .done (endOfLine (line ++ pre)) rest) ∨
      (newline ∉ c ∧ maxLineBytes < (line ++ c).length ∧
        readLineStep line (.ok c) = .done (.error .tooLong) []) ∨
      (newline ∉ c ∧ (line ++ c).length ≤ maxLineBytes ∧
        readLineStep line (.ok c) = .more (line ++ c)) := by
  by_cases hc : newline ∈ c
  · obtain ⟨pre, rest, rfl, hpre⟩ := List.eq_append_cons_of_mem hc
    exact Or.inl ⟨pre, rest, rfl, hpre, readLineStep_of_newline hpre rest⟩
  · rw [readLineStep_of_notMem hne hc]
    split_ifs with hlong
    · exact Or.inr (Or.inl ⟨hc, hlong, rfl⟩)
    · exact Or.inr (Or.inr ⟨hc, not_lt.1 hlong, rfl⟩)

end Round

/-! ## The loop -/

section Loop

variable (failure : Option String)

/-- The loop returns what the reference says of the bytes read so far and the ones to come. -/
theorem readLineLoop_fst : ∀ {line : List UInt8} {arrivals : List (List UInt8)},
    newline ∉ line → line.length ≤ maxLineBytes → (∀ c ∈ arrivals, c ≠ []) →
    (readLineLoop failure line arrivals).1 = lineOf failure (line ++ arrivals.flatten)
  | line, [], hline, hlen, _ => by
    simp [readLineLoop, readLineStep_atEnd failure hline hlen]
  | line, c :: arrivals, hline, hlen, hne => by
    rw [readLineLoop, List.flatten_cons, ← List.append_assoc]
    rcases readLineStep_cases line (hne c List.mem_cons_self) with
      ⟨pre, rest, rfl, hpre, hstep⟩ | ⟨hc, hlong, hstep⟩ | ⟨hc, hshort, hstep⟩
    · have hnl : newline ∉ line ++ pre := by simp [hline, hpre]
      have := lineOf_append_newline failure hnl (rest ++ arrivals.flatten)
      simp only [hstep]
      simpa using this.symm
    · have hnl : newline ∉ line ++ c := by simp [hline, hc]
      simp only [hstep]
      exact (lineOf_of_long failure hnl hlong arrivals.flatten).symm
    · have hnl : newline ∉ line ++ c := by simp [hline, hc]
      simp only [hstep]
      exact readLineLoop_fst hnl hshort fun d hd => hne d (List.mem_cons_of_mem c hd)

/-- A line within the cap takes its bytes and the newline, and nothing more. -/
theorem readLineLoop_rest : ∀ {line : List UInt8} {arrivals : List (List UInt8)},
    newline ∉ line → (∀ c ∈ arrivals, c ≠ []) → newline ∈ arrivals.flatten →
    (line ++ arrivals.flatten).idxOf newline ≤ maxLineBytes →
    (readLineLoop failure line arrivals).2.1 ++ (readLineLoop failure line arrivals).2.2.flatten =
      (line ++ arrivals.flatten).drop ((line ++ arrivals.flatten).idxOf newline + 1)
  | line, [], _, _, hmem, _ => absurd hmem List.not_mem_nil
  | line, c :: arrivals, hline, hne, hmem, hcap => by
    rw [readLineLoop]
    rw [List.flatten_cons, ← List.append_assoc] at hcap ⊢
    rcases readLineStep_cases line (hne c List.mem_cons_self) with
      ⟨pre, rest, rfl, hpre, hstep⟩ | ⟨hc, hlong, hstep⟩ | ⟨hc, hshort, hstep⟩
    · have hnl : newline ∉ line ++ pre := by simp [hline, hpre]
      have hstream : line ++ (pre ++ newline :: rest) ++ arrivals.flatten =
          line ++ pre ++ newline :: (rest ++ arrivals.flatten) := by simp
      simp only [hstep]
      rw [hstream, idxOf_newline hnl, ← List.drop_drop, List.drop_left, List.drop_one,
        List.tail_cons]
    · have hnl : newline ∉ line ++ c := by simp [hline, hc]
      rw [List.idxOf_append_of_notMem hnl] at hcap
      exact absurd (hcap.trans' (Nat.le_add_right _ _)) hlong.not_ge
    · have hnl : newline ∉ line ++ c := by simp [hline, hc]
      have hrest : newline ∈ arrivals.flatten := by
        rw [List.flatten_cons, List.mem_append] at hmem
        exact hmem.resolve_left hc
      simp only [hstep]
      exact readLineLoop_rest hnl (fun d hd => hne d (List.mem_cons_of_mem c hd)) hrest hcap

/-- What stays in the buffer fits it, and the chunks left alone are the last ones. -/
theorem readLineLoop_left {capacity : ℕ} : ∀ {line : List UInt8} {arrivals : List (List UInt8)},
    (∀ c ∈ arrivals, c ≠ []) → (∀ c ∈ arrivals, c.length ≤ capacity) →
    (readLineLoop failure line arrivals).2.1.length ≤ capacity ∧
      (readLineLoop failure line arrivals).2.2 <:+ arrivals
  | line, [], _, _ => by
    obtain ⟨result, hstep⟩ := readLineStep_atEnd_eq_done line failure
    rw [readLineLoop, hstep]
    exact ⟨Nat.zero_le capacity, List.suffix_rfl⟩
  | line, c :: arrivals, hne, hfits => by
    rw [readLineLoop]
    rcases readLineStep_cases line (hne c List.mem_cons_self) with
      ⟨pre, rest, rfl, hpre, hstep⟩ | ⟨hc, hlong, hstep⟩ | ⟨hc, hshort, hstep⟩
    · have hlen := hfits _ List.mem_cons_self
      rw [List.length_append, List.length_cons] at hlen
      simp only [hstep]
      exact ⟨by omega, List.suffix_cons _ _⟩
    · simp only [hstep]
      exact ⟨Nat.zero_le capacity, List.suffix_cons _ _⟩
    · obtain ⟨hrest, hleft⟩ := @readLineLoop_left capacity (line ++ c) arrivals
        (fun d hd => hne d (List.mem_cons_of_mem c hd))
        (fun d hd => hfits d (List.mem_cons_of_mem c hd))
      simp only [hstep]
      exact ⟨hrest, hleft.trans (List.suffix_cons _ _)⟩

end Loop

/-- The accumulated line stays within the cap and one chunk. -/
theorem length_le_of_mem_accumulated {capacity : ℕ} :
    ∀ {line : List UInt8} {arrivals : List (List UInt8)}, line.length ≤ maxLineBytes →
    (∀ c ∈ arrivals, c ≠ []) → (∀ c ∈ arrivals, c.length ≤ capacity) →
    ∀ l ∈ accumulated line arrivals, l.length ≤ maxLineBytes + capacity
  | line, [], hlen, _, _ => fun l hl => by
    rw [List.mem_singleton.1 hl]
    omega
  | line, c :: arrivals, hlen, hne, hfits => fun l hl => by
    have hcap := hfits c List.mem_cons_self
    have htaken := (List.takeWhile_prefix (l := c) (· ≠ newline)).length_le
    rw [accumulated] at hl
    rcases List.mem_cons.1 hl with rfl | hl
    · omega
    rcases readLineStep_cases line (hne c List.mem_cons_self) with
      ⟨pre, rest, -, -, hstep⟩ | ⟨-, -, hstep⟩ | ⟨-, hshort, hstep⟩
    all_goals simp only [hstep] at hl
    · rw [List.mem_singleton.1 hl, List.length_append]
      omega
    · rw [List.mem_singleton.1 hl, List.length_append]
      omega
    · exact length_le_of_mem_accumulated hshort (fun d hd => hne d (List.mem_cons_of_mem c hd))
        (fun d hd => hfits d (List.mem_cons_of_mem c hd)) l hl

/-- The call returns on chunks without a newline, whatever is behind them : each one brings
it nearer to the cap. -/
theorem readLineLoop_endless {arrive : ℕ → List UInt8}
    {line : List UInt8} (hne : ∀ i, arrive i ≠ []) (hnl : ∀ i, newline ∉ arrive i)
    (hlen : line.length ≤ maxLineBytes) :
    ∃ n ≤ maxLineBytes - line.length + 1, ∀ failure arrivals,
      readLineLoop failure line ((List.range n).map arrive ++ arrivals) =
        (.error .tooLong, [], arrivals) := by
  induction hk : maxLineBytes - line.length using Nat.strong_induction_on
    generalizing line arrive with
  | _ k ih =>
    have hpos := List.length_pos_iff.2 (hne 0)
    by_cases hlong : maxLineBytes < (line ++ arrive 0).length
    · refine ⟨1, by omega, fun failure arrivals => ?_⟩
      have hstep : readLineStep line (.ok (arrive 0)) = .done (.error .tooLong) [] := by
        rw [readLineStep_of_notMem (hne 0) (hnl 0), if_pos hlong]
      simp [readLineLoop, hstep]
    · have hstep : readLineStep line (.ok (arrive 0)) = .more (line ++ arrive 0) := by
        rw [readLineStep_of_notMem (hne 0) (hnl 0), if_neg hlong]
      rw [List.length_append] at hlong
      have hk' : maxLineBytes - (line ++ arrive 0).length < k := by
        rw [List.length_append]
        omega
      obtain ⟨n, hn, hloop⟩ := @ih _ hk' (fun i => arrive (i + 1)) (line ++ arrive 0)
        (fun i => hne (i + 1)) (fun i => hnl (i + 1)) (by rw [List.length_append]; omega) rfl
      refine ⟨n + 1, by omega, fun failure arrivals => ?_⟩
      rw [List.range_succ_eq_map, List.map_cons, List.map_map, List.cons_append, readLineLoop]
      simp only [hstep]
      exact hloop failure arrivals

/-! ## The call -/

variable {capacity : ℕ}

/-- The buffers that `fill_buf` returns : what is left in the buffer goes first. -/
def Reader.fills (r : Reader capacity) : List (List UInt8) :=
  if r.buf = [] then r.arrivals else r.buf :: r.arrivals

/-- The bytes the reader will still see. -/
def Reader.stream (r : Reader capacity) : List UInt8 :=
  r.buf ++ r.arrivals.flatten

theorem Reader.flatten_fills (r : Reader capacity) : r.fills.flatten = r.stream := by
  unfold Reader.fills Reader.stream
  split_ifs with h <;> simp [h]

theorem Reader.ne_nil_of_mem_fills (r : Reader capacity) : ∀ c ∈ r.fills, c ≠ [] := by
  unfold Reader.fills
  split_ifs with h
  · exact r.ne_nil
  · exact List.forall_mem_cons.2 ⟨h, r.ne_nil⟩

theorem Reader.length_le_of_mem_fills (r : Reader capacity) :
    ∀ c ∈ r.fills, c.length ≤ capacity := by
  unfold Reader.fills
  split_ifs with h
  · exact r.length_le
  · exact List.forall_mem_cons.2 ⟨r.length_buf_le, r.length_le⟩

/-- Reads one newline-terminated line with a hard byte cap. -/
def readLineBounded (r : Reader capacity) :
    Except ReadLineError (Option String) × Reader capacity :=
  let out := readLineLoop r.failure [] r.fills
  have hleft := readLineLoop_left r.failure r.ne_nil_of_mem_fills r.length_le_of_mem_fills
  (out.1,
    { buf := out.2.1
      arrivals := out.2.2
      failure := r.failure
      length_buf_le := hleft.1
      ne_nil := fun c hc => r.ne_nil_of_mem_fills c (hleft.2.subset hc)
      length_le := fun c hc => r.length_le_of_mem_fills c (hleft.2.subset hc) })

theorem readLineBounded_fst (r : Reader capacity) :
    (readLineBounded r).1 = lineOf r.failure r.stream := by
  have := readLineLoop_fst r.failure List.not_mem_nil (Nat.zero_le _) r.ne_nil_of_mem_fills
  rwa [List.nil_append, r.flatten_fills] at this

theorem stream_readLineBounded {r : Reader capacity} (hmem : newline ∈ r.stream)
    (hcap : r.stream.idxOf newline ≤ maxLineBytes) :
    (readLineBounded r).2.stream = r.stream.drop (r.stream.idxOf newline + 1) := by
  have := @readLineLoop_rest r.failure [] r.fills List.not_mem_nil r.ne_nil_of_mem_fills
  rw [List.nil_append, r.flatten_fills] at this
  exact this hmem hcap

/-- Bounded line reading is independent of chunking. The result is a function of the stream, a
line within the cap takes its bytes and its newline so that the next call reads the line
behind it, the accumulated line stays within the cap and one buffer, and chunks without a
newline end the call however many follow. -/
theorem readLineBounded_chunkFree (capacity : ℕ) :
    (∀ r : Reader capacity,
      (readLineBounded r).1 = lineOf r.failure r.stream ∧
      (newline ∈ r.stream → r.stream.idxOf newline ≤ maxLineBytes →
        (readLineBounded r).2.stream = r.stream.drop (r.stream.idxOf newline + 1) ∧
        (readLineBounded (readLineBounded r).2).1 =
          lineOf r.failure (r.stream.drop (r.stream.idxOf newline + 1))) ∧
      ∀ line ∈ accumulated [] r.fills, line.length ≤ maxLineBytes + capacity) ∧
    ∀ arrive : ℕ → List UInt8, (∀ i, arrive i ≠ [] ∧ newline ∉ arrive i) →
      ∃ n ≤ maxLineBytes + 1, ∀ failure arrivals,
        readLineLoop failure [] ((List.range n).map arrive ++ arrivals) =
          (.error .tooLong, [], arrivals) := by
  refine ⟨fun r => ⟨readLineBounded_fst r, fun hmem hcap => ?_, ?_⟩, fun arrive harrive => ?_⟩
  · have hstream := stream_readLineBounded hmem hcap
    have hnext := readLineBounded_fst (readLineBounded r).2
    rw [hstream] at hnext
    exact ⟨hstream, hnext⟩
  · exact length_le_of_mem_accumulated (Nat.zero_le _) r.ne_nil_of_mem_fills
      r.length_le_of_mem_fills
  · exact @readLineLoop_endless arrive [] (fun i => (harrive i).1) (fun i => (harrive i).2)
      (Nat.zero_le _)

end AgentHub
