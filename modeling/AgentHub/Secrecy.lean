import AgentHub.ServiceFile
import AgentHub.Veil

/-!
# What the roster's tokens decide

Of the roster a start writes the names into the service log, and then the hub uses its verdicts on
the hellos that it reads, and nothing else : under another roster with the same names and the same
verdicts on them a run is the same run (`run_of_agree`). The verdicts stand in the service log, too,
so another roster leaves the file as it is only if it gives the same verdicts on every hello of
the run (`agree_of_said_eq`).
-/

namespace AgentHub

/-! ## The hellos of a run -/

/-- The name and the token of the hello that a step reads. -/
def Hub.presents (L : Libs) (s : Hub) (a : DateTime × Action) : Option (String × String) :=
  match s.outcome L a with
  | some (.lineRead c (.ok (some (.ok (.hello name token))))) =>
    match s.pc c with
    | some (.readHello _) => some (name, token)
    | _ => none
  | _ => none

/-- The two rosters say the same of a name with a token. -/
def Roster.AgreeOn (roster roster' : Roster) (p : String × String) : Prop :=
  roster.verify p.1 p.2 = roster'.verify p.1 p.2

instance (roster roster' : Roster) (p : String × String) : Decidable (roster.AgreeOn roster' p) :=
  inferInstanceAs (Decidable (_ = _))

namespace Process

/-- The name and the token of the hello that an event reads. -/
def presents (L : Libs) (s : Process) : ProcessEvent → Option (String × String)
  | .turn t => s.hub.presents L (t.now, t.action)
  | _ => none

/-- The names and tokens of all hellos that a run reads. -/
def presented (L : Libs) (T : LogTexts) (roster : Roster) (s : Process) :
    List ProcessEvent → List (String × String)
  | [] => []
  | e :: es => (s.presents L e).toList ++
      (step L T roster s e).elim [] fun s' => presented L T roster s' es

end Process

/-! ## One step under two rosters -/

section Task

variable {L : Libs} {roster roster' : Roster} {now : DateTime} {c : ConnId} {k : Conn} {peer : String}

/-- A hello is handled by the roster's verdict. -/
theorem handleHello_eq (name token : String) : handleHello L roster now c peer name token =
    (roster.verify name token).elim (.replying .ok (.readVerb name), [.authenticated c name])
      fun reason => (.auditing .waiting (.authFailure now peer name reason)
        (.refuse ("authentication failed for " ++ L.debugStr name ++ ": " ++ reason.display)), []) := by
  unfold handleHello Roster.verify
  cases roster.get name with
  | none => rfl
  | some expected =>
    dsimp only
    split_ifs <;> rfl

/-- The result of reading a line is a hello with this name and token. -/
def LineRead.hello? : LineRead → Option (String × String)
  | .ok (some (.ok (.hello name token))) => some (name, token)
  | _ => none

theorem onHelloLine_congr {r : Except ReadLineError (Option String)}
    (h : ∀ p, LineRead.hello? (L.lineRead r) = some p → roster.AgreeOn roster' p) :
    onHelloLine L roster now c peer r = onHelloLine L roster' now c peer r := by
  unfold onHelloLine
  split
  · rfl
  · rfl
  · rename_i line
    cases hline : L.clientLineFromStr line with
    | error e => simp only [fromJsonl, hline]
    | ok verb =>
      cases verb with
      | hello name token =>
        have hverdict : roster.verify name token = roster'.verify name token :=
          h (name, token) (by rw [Libs.lineRead, Except.map, Option.map_some, hline, LineRead.hello?])
        simp only [fromJsonl, hline, handleHello_eq, hverdict]
      | _ => simp only [fromJsonl, hline]

theorem helloRecords_congr {r : LineRead} (h : ∀ p, r.hello? = some p → roster.AgreeOn roster' p) :
    helloRecords roster peer r = helloRecords roster' peer r := by
  unfold helloRecords
  split
  · rfl
  · rfl
  · rfl
  · rename_i name token
    rw [show roster.verify name token = roster'.verify name token from h (name, token) rfl]
  · rfl

/-- A round of reading under two rosters that agree on the hello that it ends with. -/
theorem Conn.readRound_congr {r : Except String (List UInt8)}
    (h : ∀ line result rest p, k.pc = .readHello line → readLineStep line r = .done result rest →
      (L.lineRead result).hello? = some p → roster.AgreeOn roster' p) :
    k.readRound L roster now c r = k.readRound L roster' now c r := by
  unfold Conn.readRound
  split
  · rename_i line hpc
    split
    · rfl
    · rename_i result rest hline
      rw [onHelloLine_congr fun p hp => h line result rest p hpc hline hp]
  · rfl
  · rfl

/-- Only what ends a first line meets the roster. -/
theorem Conn.step_roster {i : Input} (hi : i.reads = false) :
    k.step L roster now c i = k.step L roster' now c i := by
  cases i with
  | recv | refill => cases hi
  | _ => rfl

end Task

namespace Hub

variable {L : Libs} {T : LogTexts} {roster roster' : Roster} {s s' : Hub} {now : DateTime} {c : ConnId}
  {k : Conn}

/-- What is presented when a line ends. -/
theorem presents_of_line (hk : s.conns c = some k) {line : List UInt8} (hpc : k.pc = .readHello line)
    {i : Input} {r : LineRead} (hout : k.outcome L c i = some (.lineRead c r)) :
    s.presents L (now, .task c i) = r.hello? := by
  have hs : s.outcome L (now, .task c i) = some (.lineRead c r) := by
    rw [Hub.outcome, hk, Option.bind_some, hout]
  have hpc' : s.pc c = some (.readHello line) := by rw [Hub.pc, hk, Option.map_some, hpc]
  unfold presents
  rw [hs]
  rcases r with e | (_ | (e | verb))
  · rfl
  · rfl
  · rfl
  · cases verb with
    | hello name token =>
      dsimp only
      rw [hpc']
      rfl
    | _ => rfl

/-- What a task does under a lock does not meet the roster. -/
theorem taskStep_roster {i : Input} (hi : i.reads = false) :
    s.taskStep L roster now c i = s.taskStep L roster' now c i := by
  unfold taskStep
  cases s.conns c with
  | none => rfl
  | some k =>
    have hstep : k.step L roster now c i = k.step L roster' now c i := Conn.step_roster hi
    simp only [hstep]

/-- A step under two rosters that agree on what it presents. -/
theorem step_congr {a : DateTime × Action} (h : ∀ p, s.presents L a = some p → roster.AgreeOn roster' p) :
    s.step L roster a = s.step L roster' a := by
  obtain ⟨now, a⟩ := a
  have htask : ∀ c {i : Input}, i.reads = false →
      s.taskStep L roster now c i = s.taskStep L roster' now c i := fun c i hi => taskStep_roster hi
  cases a with
  | task c i =>
    simp only [step]
    refine if_congr Iff.rfl ?_ rfl
    unfold taskStep
    cases hk : s.conns c with
    | none => rfl
    | some k =>
      have hread : k.step L roster now c i = k.step L roster' now c i := by
        have hround : ∀ {k' : Conn} {r : Except String (List UInt8)}, k'.pc = k.pc →
            (∀ line, k.pc = .readHello line → k.outcome L c i = (readLineStep line r).outcome L c) →
            k'.readRound L roster now c r = k'.readRound L roster' now c r := by
          intro k' r hpc hout
          refine Conn.readRound_congr fun line result rest p hpc' hline hp => ?_
          rw [hpc] at hpc'
          refine h p ((presents_of_line hk hpc' (r := L.lineRead result) ?_).trans hp)
          rw [hout line hpc', hline, ReadStep.outcome]
        cases i with
        | recv r =>
          refine if_congr Iff.rfl (hround rfl fun line hpc => ?_) rfl
          rw [Conn.outcome, hpc, Pc.lineSoFar, Option.bind_some]
        | refill =>
          refine if_congr Iff.rfl rfl (hround rfl fun line hpc => ?_)
          rw [Conn.outcome, hpc, Pc.lineSoFar, Option.bind_some]
        | _ => exact Conn.step_roster rfl
      simp only [hread]
  | accept => rfl
  | lockAudit c => simp only [step, htask c (i := .locked) rfl]
  | unlockAudit c => simp only [step, htask c (i := .unlocked) rfl]
  | append c os =>
    have happended : ∀ r, s.taskStep L roster now c (.appended r) =
        s.taskStep L roster' now c (.appended r) := fun r => htask c rfl
    simp only [step, happended]
  | route c =>
    have hrouted : ∀ o, s.taskStep L roster now c (.routed o) = s.taskStep L roster' now c (.routed o) :=
      fun o => htask c rfl
    simp only [step, hrouted]
  | await c =>
    have htook : ∀ x, s.taskStep L roster now c (.took x) = s.taskStep L roster' now c (.took x) :=
      fun x => htask c rfl
    have hparked : ∀ w, s.taskStep L roster now c (.parked w) = s.taskStep L roster' now c (.parked w) :=
      fun w => htask c rfl
    simp only [step, htook, hparked]
  | deregister c =>
    have hremoved : ∀ b, s.taskStep L roster now c (.deregistered b) =
        s.taskStep L roster' now c (.deregistered b) := fun b => htask c rfl
    simp only [step, hremoved]
  | requeue c =>
    have hrequeued : ∀ o, s.taskStep L roster now c (.requeued o) =
        s.taskStep L roster' now c (.requeued o) := fun o => htask c rfl
    simp only [step, hrequeued]

/-- A step under two such rosters logs the same. -/
theorem records_congr {a : DateTime × Action} {o : Outcome} {cause : String}
    (ho : s.outcome L a = some o) (h : ∀ p, s.presents L a = some p → roster.AgreeOn roster' p) :
    s.records L T roster s' a.1 o cause = s.records L T roster' s' a.1 o cause := by
  unfold records
  cases hk : s.conns o.conn with
  | none => rfl
  | some k =>
    cases o with
    | lineRead c r =>
      have hpc : s.pc c = some k.pc := by
        rw [Hub.pc, show s.conns c = some k from hk, Option.map_some]
      have hline : lineRecords L T roster k r = lineRecords L T roster' k r := by
        unfold lineRecords
        split
        · rename_i line hread
          refine helloRecords_congr fun p hp => h p ?_
          unfold presents
          rw [ho]
          rcases r with e | (_ | (e | verb))
          · cases hp
          · cases hp
          · cases hp
          · cases verb with
            | hello name token =>
              dsimp only
              rw [hpc, hread]
              exact hp
            | _ => cases hp
        · rfl
        · rfl
      simp only [Conn.records, hline]
    | _ => rfl

/-- The connection on which a hello is presented, at its first line. -/
theorem exists_of_presents {a : DateTime × Action} {p : String × String} (h : s.presents L a = some p) :
    ∃ c k line, s.conns c = some k ∧ k.pc = .readHello line ∧
      s.outcome L a = some (.lineRead c (.ok (some (.ok (.hello p.1 p.2))))) := by
  unfold presents at h
  split at h
  · rename_i c name token hout
    split at h
    · rename_i line hpc
      obtain rfl := Option.some.inj h
      obtain ⟨k, hk, hpc⟩ := pc_eq_some.1 hpc
      exact ⟨c, k, line, hk, hpc, hout⟩
    · cases h
  · cases h

end Hub

/-- The record of a verdict. -/
def verdictRecord (peer name : String) : Option AuthFailureReason → Record
  | some reason => .warn "authentication failed"
      [("peer", .text peer), ("name", .text name), ("reason", .text reason.display)]
  | none => .info "authenticated" [("peer", .text peer), ("name", .text name)]

theorem helloRecords_hello (roster : Roster) (peer name token : String) :
    helloRecords roster peer (.ok (some (.ok (.hello name token)))) =
      [verdictRecord peer name (roster.verify name token)] := by
  unfold helloRecords
  cases hv : roster.verify name token <;> simp only [hv, verdictRecord]

theorem inFile_verdictRecord (peer name : String) (v : Option AuthFailureReason) :
    (verdictRecord peer name v).inFile = true := by
  cases v <;> rfl

/-- A verdict can be read off its record. -/
theorem verdictRecord_inj {peer name : String} {v v' : Option AuthFailureReason}
    (h : verdictRecord peer name v = verdictRecord peer name v') : v = v' := by
  have hfields := congrArg Record.fields h
  rcases v with _ | (_ | _) <;> rcases v' with _ | (_ | _)
  all_goals first
    | rfl
    | simp [verdictRecord, Record.warn, Record.info, AuthFailureReason.display] at hfields

namespace LoggedHub

variable {L : Libs} {T : LogTexts} {roster roster' : Roster} {s s' : LoggedHub} {t : Turn}

/-- A step that reads a hello hands its verdict to the file layer. -/
theorem file_of_presents {p : String × String} (h : s.step L T roster t = some s')
    {c : ConnId} {k : Conn} {line : List UInt8} (hk : s.hub.conns c = some k) (hpc : k.pc = .readHello line)
    (hout : s.hub.outcome L (t.now, t.action) = some (.lineRead c (.ok (some (.ok (.hello p.1 p.2)))))) :
    s.file ++ [verdictRecord k.peer p.1 (roster.verify p.1 p.2)] <+: s'.file := by
  obtain ⟨hub, -, rfl⟩ := Option.map_eq_some_iff.1 h
  have hrecords : s.hub.records L T roster hub t.now
      (.lineRead c (.ok (some (.ok (.hello p.1 p.2))))) t.cause =
        verdictRecord k.peer p.1 (roster.verify p.1 p.2) :: closingRecords k (hub.pc c) := by
    simp only [Hub.records, Outcome.conn, hk, Conn.records, lineRecords, hpc, helloRecords_hello,
      List.singleton_append]
  simp only [file, hout, Option.toList_some, List.flatMap_singleton, hrecords, List.filter_append,
    List.filter_cons_of_pos (inFile_verdictRecord _ _ _)]
  exact ⟨(closingRecords k (hub.pc c)).filter Record.inFile, by simp⟩

/-- A turn under two rosters that agree on what it presents. -/
theorem step_congr (h : ∀ p, s.hub.presents L (t.now, t.action) = some p → roster.AgreeOn roster' p) :
    s.step L T roster t = s.step L T roster' t := by
  have hstep : s.hub.step L roster (t.now, t.action) = s.hub.step L roster' (t.now, t.action) :=
    Hub.step_congr h
  unfold step
  rw [hstep]
  cases s.hub.step L roster' (t.now, t.action) with
  | none => rfl
  | some hub =>
    cases ho : s.hub.outcome L (t.now, t.action) with
    | none => rfl
    | some o =>
      have hrecords := @Hub.records_congr L T roster roster' s.hub hub (t.now, t.action) o t.cause ho h
      simp only [Option.map_some, Option.toList_some, List.flatMap_singleton, hrecords]

end LoggedHub

namespace Process

variable {L : Libs} {T : LogTexts} {roster roster' : Roster} {s s' : Process} {e : ProcessEvent}

/-- An event under two rosters that agree on what it presents. -/
theorem step_congr (h : ∀ p, s.presents L e = some p → roster.AgreeOn roster' p) :
    step L T roster s e = step L T roster' s e := by
  cases e with
  | turn t =>
    have hstep : LoggedHub.step L T roster ⟨s.hub, []⟩ t = LoggedHub.step L T roster' ⟨s.hub, []⟩ t :=
      LoggedHub.step_congr h
    simp only [step, hstep]
  | log | acceptFails => rfl

/-- What is said stays where it stands. -/
theorem said_prefix_of_step (hkept : e.kept = true) (h : step L T roster s e = some s') (c : ConnId) :
    s.said c <+: s'.said c := by
  cases e with
  | turn t =>
    obtain ⟨after, -, -, -, -, hsaid⟩ := turn_cases h
    rw [hsaid c]
    exact List.prefix_append _ _
  | log d written =>
    obtain rfl : written = true := hkept
    obtain ⟨r, -, -, -, hsaid⟩ := log_cases h
    rw [hsaid c]
  | acceptFails error written =>
    obtain rfl : written = true := hkept
    rw [(acceptFails_cases h).2.2.2 c]

theorem said_prefix_of_run {es : List ProcessEvent} (hkept : ∀ e ∈ es, e.kept = true)
    (h : Machine.run (step L T roster) s es = some s') (c : ConnId) : s.said c <+: s'.said c := by
  refine Machine.ReachVia.invariant (P := fun s' => s.said c <+: s'.said c)
    (Machine.reachVia_of_run (Q := fun _ e => e.kept = true) h fun _ => hkept) List.prefix_rfl
    fun s₁ e s₂ _ hP hQ hs => hP.trans (said_prefix_of_step hQ hs c)

/-- A hello that is read has its connection say the verdict. -/
theorem said_of_presents {p : String × String} (hp : s.presents L e = some p) : ∃ c peer,
    ∀ roster s', step L T roster s e = some s' →
      s.said c ++ [verdictRecord peer p.1 (roster.verify p.1 p.2)] <+: s'.said c := by
  cases e with
  | turn t =>
    obtain ⟨c, k, line, hk, hpc, hout⟩ := Hub.exists_of_presents hp
    obtain rfl : c = t.action.conn := Hub.conn_of_outcome hout
    refine ⟨t.action.conn, k.peer, fun roster s' hs => ?_⟩
    obtain ⟨after, hafter, -, -, -, hsaid⟩ := turn_cases hs
    have hfile := LoggedHub.file_of_presents hafter hk hpc hout
    rw [LoggedHub.file, List.filter_nil, List.nil_append] at hfile
    rw [hsaid, if_pos rfl]
    exact (List.prefix_append_right_inj _).2 hfile
  | log | acceptFails => cases hp

/-! ## Whole runs -/

/-- Under another roster that gives the same verdicts on the hellos of a run, the run is the same. -/
theorem run_of_agree : ∀ {es : List ProcessEvent} {s : Process},
    (∀ p ∈ presented L T roster s es, roster.AgreeOn roster' p) →
      Machine.run (step L T roster) s es = Machine.run (step L T roster') s es
  | [], _, _ => rfl
  | e :: es, s, h => by
    rw [presented, List.forall_mem_append] at h
    obtain ⟨hnow, hlater⟩ := h
    have hstep : step L T roster s e = step L T roster' s e :=
      step_congr fun p hp => hnow p (by rw [hp]; exact List.mem_singleton_self p)
    unfold Machine.run
    rw [← hstep]
    cases hs : step L T roster s e with
    | none => rfl
    | some s₁ =>
      rw [hs, Option.elim_some] at hlater
      exact run_of_agree hlater

/-- A run under another roster in which the connections say the same gives the same verdicts. -/
theorem agree_of_said_eq : ∀ {es : List ProcessEvent} {s s₁ s₂ : Process},
    (∀ e ∈ es, e.kept = true) → Machine.run (step L T roster) s es = some s₁ →
      Machine.run (step L T roster') s es = some s₂ → (∀ c, s₁.said c = s₂.said c) →
        ∀ p ∈ presented L T roster s es, roster.AgreeOn roster' p
  | [], _, _, _, _, _, _, _ => fun p hp => by cases hp
  | e :: es, s, s₁, s₂, hkept, h₁, h₂, hsaid => by
    obtain ⟨u₁, hstep₁, hrun₁⟩ := Option.bind_eq_some_iff.1 h₁
    obtain ⟨u₂, hstep₂, hrun₂⟩ := Option.bind_eq_some_iff.1 h₂
    have hrest := List.forall_mem_of_forall_mem_cons hkept
    have hnow : ∀ p, s.presents L e = some p → roster.AgreeOn roster' p := by
      intro p hp
      obtain ⟨c, peer, hverdict⟩ := said_of_presents (T := T) hp
      have hpre₁ := (hverdict roster u₁ hstep₁).trans (said_prefix_of_run hrest hrun₁ c)
      have hpre₂ := (hverdict roster' u₂ hstep₂).trans (said_prefix_of_run hrest hrun₂ c)
      rw [hsaid c] at hpre₁
      have heq := List.append_cancel_left
        ((List.prefix_of_prefix_length_le hpre₁ hpre₂ (by simp)).eq_of_length (by simp))
      exact verdictRecord_inj (List.singleton_inj.1 heq)
    rw [presented, List.forall_mem_append]
    refine ⟨fun p hp => hnow p (by simpa using hp), ?_⟩
    rw [hstep₁, Option.elim_some]
    have hsame : u₁ = u₂ := Option.some.inj (hstep₁.symm.trans ((step_congr hnow).trans hstep₂))
    exact agree_of_said_eq hrest hrun₁ (hsame ▸ hrun₂) hsaid

/-! ## By the file -/

/-- Who writes, at an event. -/
def writer : ProcessEvent → Option (Option ConnId)
  | .turn _ => none
  | .log c _ => some (some c)
  | .acceptFails _ _ => some none

/-- Whose records follow each other in the file is a matter of the events alone. -/
theorem writers_of_run : ∀ {es : List ProcessEvent} {s s' : Process}, (∀ e ∈ es, e.kept = true) →
    Machine.run (step L T roster) s es = some s' →
      s'.entries.map Prod.fst = s.entries.map Prod.fst ++ es.filterMap writer
  | [], s, s', _, h => by
    obtain rfl := Option.some.inj h
    exact (List.append_nil _).symm
  | e :: es, s, s', hkept, h => by
    obtain ⟨s₁, hs, hrun⟩ := Option.bind_eq_some_iff.1 h
    obtain ⟨hnow, hrest⟩ := List.forall_mem_cons.1 hkept
    rw [writers_of_run hrest hrun]
    cases e with
    | turn t =>
      obtain ⟨after, -, -, -, hentries, -⟩ := turn_cases hs
      rw [hentries, List.filterMap_cons_none rfl]
    | log c written =>
      obtain rfl : written = true := hnow
      obtain ⟨r, -, -, hentries, -⟩ := log_cases hs
      rw [hentries, List.map_append, List.append_assoc]
      rfl
    | acceptFails error written =>
      obtain rfl : written = true := hnow
      rw [(acceptFails_cases hs).2.2.1, List.map_append, List.append_assoc]
      rfl

/-- Two runs through the same events that leave the same file, and the same records to write, found
the same, and in both each connection says the same. -/
theorem said_eq_of_file_eq {es : List ProcessEvent} {s₀ s₀' : Process} (hkept : ∀ e ∈ es, e.kept = true)
    (h : Machine.run (step L T roster) s₀ es = some s)
    (h' : Machine.run (step L T roster') s₀' es = some s') (hnew : s₀'.entries = s₀.entries)
    (hlength : s₀'.found.length = s₀.found.length) (hfile : s'.file = s.file) (hdue : s'.due = s.due) :
    s₀'.found = s₀.found ∧ ∀ c, s.said c = s'.said c := by
  have hfound := found_of_reach (Machine.reachVia_of_run h fun _ => hkept)
  have hfound' := found_of_reach (Machine.reachVia_of_run h' fun _ => hkept)
  unfold file at hfile
  rw [hfound, hfound'] at hfile
  obtain ⟨hsame, hrecords⟩ := List.append_inj hfile hlength
  have hwriters : s'.entries.map Prod.fst = s.entries.map Prod.fst := by
    rw [writers_of_run hkept h, writers_of_run hkept h', hnew]
  have hentries : s'.entries = s.entries :=
    (List.zip_of_prod hwriters hrecords).trans (List.zip_of_prod rfl rfl).symm
  exact ⟨hsame, fun c => by rw [said, said, of, of, hentries, hdue]⟩

/-- The names of a roster are written in their order. -/
theorem rosterRecord_of_perm {sys : System} {names names' : List String} (h : names'.Perm names) :
    rosterRecord sys names' = rosterRecord sys names := by
  have hsort : (names'.mergeSort fun a b => decide (a ≤ b)) = names.mergeSort fun a b => decide (a ≤ b) := by
    refine List.Perm.eq_of_pairwise' (List.pairwise_mergeSort' (· ≤ ·) names') (List.pairwise_mergeSort' (· ≤ ·) names) ?_
    exact ((List.mergeSort_perm names' _).trans h).trans (List.mergeSort_perm names _).symm
  rw [rosterRecord, rosterRecord, h.length_eq, hsort]

variable {sys : System} {disk : Disk} {configPath : String} {before : List Record} {s₀ s₀' : Process}
  {readToString : String → Except String String} {es : List ProcessEvent}

/-- Two starts that differ in the file of the roster only. The process of the one can be told from
that of the other by what it has written and has still to write exactly if the records of the start
differ, which they do not if the two rosters have the same names, or if the rosters judge some hello of
the run differently. If neither is so, nothing at all differs. -/
theorem tokens_seen_by_verdicts (hstart : (main sys disk configPath).process before = some (roster, s₀))
    (hstart' : (main { sys with readToString } disk configPath).process before = some (roster', s₀'))
    (hconfig : Config.load readToString sys.configFromStr configPath =
      Config.load sys.readToString sys.configFromStr configPath)
    (hkept : ∀ e ∈ es, e.kept = true) (h : Machine.run (step L T roster) s₀ es = some s) :
    ((∃ s', Machine.run (step L T roster') s₀' es = some s' ∧ s'.file = s.file ∧ s'.due = s.due) ↔
      s₀'.found = s₀.found ∧ ∀ p ∈ presented L T roster s₀ es, roster.AgreeOn roster' p) ∧
    ((∃ s', Machine.run (step L T roster') s₀' es = some s' ∧ s'.file = s.file ∧ s'.due = s.due) ↔
      Machine.run (step L T roster') s₀' es = some s) ∧
    ((roster'.agents.map Prod.fst).Perm (roster.agents.map Prod.fst) → s₀'.found = s₀.found) := by
  obtain ⟨config, audit, hload, hopen, hs₀⟩ := process_of_main hstart
  obtain ⟨config', audit', hload', hopen', hs₀'⟩ := process_of_main hstart'
  obtain rfl : config' = config := Except.ok.inj (hload'.symm.trans (hconfig.trans hload))
  obtain rfl : audit' = audit := Except.ok.inj (hopen'.symm.trans hopen)
  have hsame : s₀'.found = s₀.found → s₀' = s₀ := by
    intro hfound
    rw [hs₀, hs₀'] at hfound ⊢
    exact congrArg (init · _) hfound
  have hagree : (∃ s', Machine.run (step L T roster') s₀' es = some s' ∧ s'.file = s.file ∧
      s'.due = s.due) → s₀'.found = s₀.found ∧ ∀ p ∈ presented L T roster s₀ es, roster.AgreeOn roster' p := by
    rintro ⟨s', hs', hfile, hdue⟩
    obtain ⟨hfound, hsaid⟩ := said_eq_of_file_eq hkept h hs' (by rw [hs₀, hs₀']; rfl)
      (by rw [hs₀, hs₀']; simp [init, startupRecords]) hfile hdue
    exact ⟨hfound, agree_of_said_eq hkept h (hsame hfound ▸ hs') hsaid⟩
  have hrun : (s₀'.found = s₀.found ∧ ∀ p ∈ presented L T roster s₀ es, roster.AgreeOn roster' p) →
      Machine.run (step L T roster') s₀' es = some s :=
    fun ⟨hfound, hp⟩ => hsame hfound ▸ (run_of_agree hp).symm.trans h
  refine ⟨⟨hagree, fun hp => ⟨s, hrun hp, rfl, rfl⟩⟩,
    ⟨fun hs => hrun (hagree hs), fun hs => ⟨s, hs, rfl, rfl⟩⟩, fun hperm => ?_⟩
  rw [hs₀, hs₀']
  simp only [init, startupRecords, rosterRecord_of_perm hperm]
  rfl

/-! ## A new token -/

/-- The roster after `bob` got a new token. -/
def rekeyed : Roster where
  agents := [("alice", "a-token"), ("bob", "c-token")]
  nodup := by decide

def rekeyedFile : String :=
  "[agents]\nalice = \"a-token\"\nbob = \"c-token\"\n"

/-- The sample system, whose TOML parser also knows what is in the new file. -/
def rekeyable : System :=
  { Host.sampleSystem with
    rosterFromStr := fun text => if text = rekeyedFile then .ok rekeyed else sampleFromStr text }

/-- The files, with the new roster. -/
def afterRekeying (path : String) : Except String String :=
  if path = "config.toml" then .ok "config" else .ok rekeyedFile

/-- `alice` authenticates and awaits. -/
def aliceAwaits : List Turn :=
  (opening 0 aliceHello.bytes awaitAny.bytes).map fun a => ⟨0, a, ""⟩

/-- `bob` then says hello with his old token. -/
def bobGreets : List Turn :=
  aliceAwaits ++ (opening 1 bobHello.bytes []).dropLast.dropLast.map fun a => ⟨0, a, ""⟩

/-- Both files start the hub with the same names. In the run of `alice` no verdict differs, and in that
of `bob` one does. -/
def toldApart (p p' : Roster × Process) : Bool :=
  let alice := promptly sampleLibs bodyTexts p.1 p.2 aliceAwaits
  let bob := promptly sampleLibs bodyTexts p.1 p.2 bobGreets
  decide (p'.1.agents.map Prod.fst = p.1.agents.map Prod.fst) &&
    (alice.all ProcessEvent.kept && bob.all ProcessEvent.kept) &&
    ((Machine.run (step sampleLibs bodyTexts p.1) p.2 alice).isSome &&
      (Machine.run (step sampleLibs bodyTexts p.1) p.2 bob).isSome) &&
    ((presented sampleLibs bodyTexts p.1 p.2 alice).all (fun q => decide (p.1.AgreeOn p'.1 q)) &&
      !(presented sampleLibs bodyTexts p.1 p.2 bob).all fun q => decide (p.1.AgreeOn p'.1 q))

/-- What `alice` does says nothing about the token of `bob`, and his hello with the old one tells
the two rosters apart. -/
theorem tokens_seen_by_verdicts_rekeyed : ∃ p p' es₁ es₂ s₁ s₂,
    (main rekeyable (fun _ => none) "config.toml").process [] = some p ∧
    (main { rekeyable with readToString := afterRekeying } (fun _ => none) "config.toml").process [] =
      some p' ∧ p'.2.found = p.2.found ∧
    Machine.run (step sampleLibs bodyTexts p.1) p.2 es₁ = some s₁ ∧
    Machine.run (step sampleLibs bodyTexts p'.1) p'.2 es₁ = some s₁ ∧
    Machine.run (step sampleLibs bodyTexts p.1) p.2 es₂ = some s₂ ∧
    ¬ ∃ s, Machine.run (step sampleLibs bodyTexts p'.1) p'.2 es₂ = some s ∧ s.file = s₂.file ∧
      s.due = s₂.due := by
  have hends : ((main rekeyable (fun _ => none) "config.toml").process []).any (fun p =>
      ((main { rekeyable with readToString := afterRekeying } (fun _ => none) "config.toml").process
        []).any (toldApart p)) = true := by
    decide +kernel
  obtain ⟨⟨roster, s₀⟩, hstart, hends⟩ := (Option.any_eq_true _ _).1 hends
  obtain ⟨⟨roster', s₀'⟩, hstart', hends⟩ := (Option.any_eq_true _ _).1 hends
  simp only [toldApart, Bool.and_eq_true, decide_eq_true_eq, Bool.not_eq_true', Option.isSome_iff_exists]
    at hends
  obtain ⟨⟨⟨hnames, hkept₁, hkept₂⟩, ⟨s₁, h₁⟩, s₂, h₂⟩, hone, htwo⟩ := hends
  obtain ⟨hverdicts₁, hrun₁, hfound⟩ := tokens_seen_by_verdicts hstart hstart' rfl
    (List.all_eq_true.1 hkept₁) h₁
  obtain ⟨hverdicts₂, -, -⟩ := tokens_seen_by_verdicts hstart hstart' rfl (List.all_eq_true.1 hkept₂) h₂
  have hsame := hfound (hnames ▸ List.Perm.refl _)
  refine ⟨(roster, s₀), (roster', s₀'), _, _, s₁, s₂, hstart, hstart', hsame, h₁, ?_, h₂, fun hs => ?_⟩
  · exact hrun₁.1 (hverdicts₁.2 ⟨hsame, fun q hq => of_decide_eq_true (List.all_eq_true.1 hone q hq)⟩)
  · rw [List.all_eq_false] at htwo
    obtain ⟨q, hq, hne⟩ := htwo
    exact hne (decide_eq_true ((hverdicts₂.1 hs).2 q hq))

end Process

end AgentHub
