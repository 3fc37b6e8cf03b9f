import AgentHub.Dialogue
import AgentHub.Watcher

/-!
# What a connection hears

A task that reads its second line has all bytes behind the first one in hand (`Conn.Heard`), so
the verb it dispatches is the second line of the byte stream (`Hub.secondLine_of_verb`).
-/

namespace AgentHub

/-- The second line of the bytes decodes to `line`. -/
def SecondLine (L : Libs) (received : List UInt8) (line : ClientLine) : Prop :=
  ∃ first second rest text, received = first ++ newline :: (second ++ newline :: rest) ∧
    newline ∉ first ∧ newline ∉ second ∧ fromUtf8 second = some text ∧
    L.clientLineFromStr text = .ok line

/-- What a task has of its second line, while it has not read it. -/
def Pc.secondLine : Pc → Option (List UInt8)
  | .replying _ (.readVerb _) => some []
  | .readVerb _ line => some line
  | _ => none

/-- Until the second newline all bytes behind the first line are in hand, and a verb goes by the
second line. -/
structure Conn.Heard (L : Libs) (c : ConnId) (k : Conn) (t : List Obs) : Prop where
  reading : ∀ line, k.pc.secondLine = some line → ∃ first, newline ∉ first ∧ newline ∉ line ∧
    k.received = first ++ newline :: (line ++ k.buf)
  verb : ∀ name line, .verb c name line ∈ t → SecondLine L k.received line

section Task

variable {L : Libs} {roster : Roster} {now : DateTime} {c : ConnId} {k k' : Conn} {t t' obs : List Obs}

theorem SecondLine.mono {received received' : List UInt8} {line : ClientLine}
    (h : SecondLine L received line) (hpre : received <+: received') : SecondLine L received' line := by
  obtain ⟨first, second, rest, text, hreceived, h⟩ := h
  obtain ⟨more, rfl⟩ := hpre
  exact ⟨first, second, rest ++ more, text, by simp [hreceived], h⟩

/-- Two lines have come. -/
theorem SecondLine.two_le_count {received : List UInt8} {line : ClientLine}
    (h : SecondLine L received line) : 2 ≤ received.count newline := by
  obtain ⟨first, second, rest, text, rfl, -⟩ := h
  simp only [List.count_append, List.count_cons_self]
  omega

theorem Conn.Heard.secondLine_of_decodes {r : Except String (List UInt8)} {received : List UInt8}
    {line : ClientLine} (h : k.Heard L c t) (hdecodes : k.decodes L r = some line)
    (hfill : k.Fill r received) : SecondLine L received line := by
  unfold Conn.decodes at hdecodes
  split at hdecodes
  · rename_i name bytes hpc
    split at hdecodes
    · rename_i text rest hline
      obtain ⟨pre, rfl, hpre, -, htext⟩ := readLineStep_eq_line hline
      obtain ⟨first, hfirst, hbytes, hreceived⟩ := h.reading bytes (by rw [hpc]; rfl)
      have hdecode : L.clientLineFromStr text = .ok line := by
        unfold fromJsonl at hdecodes
        split at hdecodes
        · rename_i hline
          simpa [Except.toOption, hline] using hdecodes
        · cases hdecodes
      have hnl : newline ∉ bytes ++ pre := by
        rw [List.mem_append]
        exact fun hm => hm.elim hbytes hpre
      refine ⟨first, bytes ++ pre, rest, text, ?_, hfirst, hnl, htext, hdecode⟩
      generalize hr : (Except.ok (pre ++ newline :: rest) : Except String (List UInt8)) = r at hfill
      cases hfill with
      | bytes hbuf =>
        cases hr
        rw [hreceived, hbuf]
        simp
      | error => cases hr
      | buffered =>
        rw [hreceived, ← Except.ok.inj hr]
        simp
    · cases hdecodes
  · cases hdecodes

/-- A step that reads a verb line reads it off what `fill_buf` returns. -/
theorem fill_of_reads {i : Input} {line : ClientLine} (hreads : k.reads L i = some line)
    (h : k.step L roster now c i = some (k', obs)) :
    ∃ r, k.decodes L r = some line ∧ k.Fill r k'.received := by
  cases i with
  | recv r =>
    simp only [Conn.step] at h
    split_ifs at h with hbuf
    obtain ⟨buf, pc, rfl⟩ := frame_of_readRound h
    refine ⟨r, hreads, ?_⟩
    cases r with
    | ok bytes => exact .bytes hbuf
    | error e => exact .error hbuf
  | refill =>
    simp only [Conn.step] at h
    split_ifs at h with hbuf
    obtain ⟨buf, pc, rfl⟩ := frame_of_readRound h
    exact ⟨.ok k.buf, hreads, .buffered hbuf⟩
  | _ => cases hreads

/-- What a task has of its second line after a step on its own. -/
theorem Conn.Heard.reading_of_localStep (h : k.Heard L c t) (hfirst : k.HelloFirst L roster t')
    (hstep : k.LocalStep L roster now c k' obs) (line : List UInt8) (hline : k'.pc.secondLine = some line) :
    ∃ first, newline ∉ first ∧ newline ∉ line ∧ k'.received = first ++ newline :: (line ++ k'.buf) := by
  cases hstep with
  | helloAccepted hpc hfill hread =>
    obtain rfl := Option.some.inj hline
    obtain ⟨pre, hr, hpre, -⟩ := readLineStep_eq_line hread
    obtain ⟨hreceived, hnl⟩ := hfirst.received_of_fill hpc hfill hr
    refine ⟨_ ++ pre, ?_, by simp, by rw [hreceived, List.append_assoc]; rfl⟩
    rw [List.mem_append]
    exact fun hm => hm.elim hnl hpre
  | @repliedVerb line name out hpc =>
    exact h.reading _ (by rw [hpc]; exact hline)
  | verbMore hpc hfill hread =>
    obtain rfl := Option.some.inj hline
    obtain ⟨bytes, rfl, rfl, hnl'⟩ := readLineStep_eq_more hread
    obtain ⟨first, hnl, hnlLine, hreceived⟩ := h.reading _ (by rw [hpc]; rfl)
    refine ⟨first, hnl, ?_, ?_⟩
    · rw [List.mem_append]
      exact fun hm => hm.elim hnlLine hnl'
    · generalize hr : (Except.ok bytes : Except String (List UInt8)) = r at hfill
      cases hfill with
      | bytes hbuf =>
        cases hr
        rw [hreceived, hbuf]
        simp
      | error => cases hr
      | buffered =>
        rw [hreceived, ← Except.ok.inj hr]
        simp
  | helloRefused hpc hfill hrefuse | verbRefused hpc hfill hrefuse => cases hrefuse <;> cases hline
  | peerClosed => exact h.reading line hline
  | _ => cases hline

theorem secondLine_of_sharedStep {i : Input} (h : k.SharedStep now c i k' obs) : k'.pc.secondLine = none := by
  cases h with
  | unlocked hpc =>
    unfold Conn.afterUnlock at hpc
    split at hpc
    · rename_i next _
      obtain rfl := Option.some.inj hpc
      cases next <;> rfl
    · obtain rfl := Option.some.inj hpc
      rfl
    · obtain rfl := Option.some.inj hpc
      rfl
    · obtain rfl := Option.some.inj hpc
      rfl
    · obtain rfl := Option.some.inj hpc
      rfl
    · cases hpc
  | _ => rfl

theorem Conn.Heard.step {i : Input} (h : k.Heard L c t) (hfirst : k.HelloFirst L roster t')
    (hstep : k.step L roster now c i = some (k', obs)) : k'.Heard L c (t ++ obs) := by
  by_cases hi : i.isLocal = true
  · have hlocal := localStep_of_step hi hstep
    refine ⟨h.reading_of_localStep hfirst hlocal, fun name line hverb => ?_⟩
    rcases List.mem_append.1 hverb with hverb | hverb
    · exact (h.verb name line hverb).mono (received_prefix_of_localStep hlocal)
    · obtain ⟨r, hdecodes, hfill⟩ := fill_of_reads (reads_of_verb hi hstep hverb) hstep
      exact h.secondLine_of_decodes hdecodes hfill
  · have hshared := sharedStep_of_step (by simpa using hi) hstep
    refine ⟨fun line hline => ?_, fun name line hverb => ?_⟩
    · rw [secondLine_of_sharedStep hshared] at hline
      cases hline
    · rw [received_eq_of_sharedStep hshared]
      exact h.verb name line ((List.mem_append.1 hverb).resolve_right (not_verb_of_sharedStep hshared))

end Task

namespace Hub

variable {L : Libs} {roster : Roster} {audit : AuditLog} {s s' : Hub} {c : ConnId}

theorem heard_of_reach (h : Reach L roster audit s) {k : Conn} (hk : s.conns c = some k) :
    k.Heard L c s.trace := by
  refine Machine.ReachVia.invariant (P := fun s => ∀ k, s.conns c = some k → k.Heard L c s.trace) h
    (fun k hk => by cases hk) (fun s a s' hr hP _ hs k' hk' => ?_) k hk
  cases effect_of_step hs hk' with
  | frame hk htrace chan =>
    exact ⟨(hP _ hk).reading, fun name line hverb => (hP _ hk).verb name line (htrace _ hverb rfl)⟩
  | accepted ha hnew htrace =>
    refine ⟨(fun line hline => by cases hline), fun name line hverb => ?_⟩
    obtain ⟨k, hk⟩ := exists_conn_of_mem hr (htrace ▸ hverb)
    cases hnew.symm.trans hk
  | step hk hstep htrace hi chan =>
    have hheard := (hP _ hk).step (helloFirst_of_run (run_of_reach hr hk)) hstep
    rw [htrace]
    exact ⟨hheard.reading, hheard.verb⟩

/-- The verb that the hub dispatches for a connection is the second line of its bytes. -/
theorem secondLine_of_verb (h : Reach L roster audit s) {k : Conn} (hk : s.conns c = some k)
    {name : String} {line : ClientLine} (hverb : .verb c name line ∈ s.trace) :
    SecondLine L k.received line :=
  (heard_of_reach h hk).verb name line hverb

end Hub

end AgentHub
