import AgentHub.Journal
import AgentHub.Lifetimes
import Mathlib.Data.List.Sort
import Mathlib.Data.String.Basic

/-!
# The service-log file

How the records get into the file (`Process`). What a step gives a task to log, the task writes
record by record before it takes its next step, while the others go on, so that a record follows
what it is about. The monitor of a task that died reports it some time later. The file is opened
for append : what earlier processes left in it comes first, then the records of the start
(`Launch.process`).

`tracing` and its appender are third-party code, and of a write that fails no one is told.
The results are about processes whose appender writes each record it is given
(`ProcessEvent.kept`), to a file to which no one else appends meanwhile. What such a process has
in the file and has still to write is the journal of its hub (`Behind`).

A process that is started on a host and runs is the server of that host (`server_of_process`).
-/

namespace AgentHub

open Function

/-! ## The process and its file -/

/-- The hub of a process, and its service-log file. -/
structure Process where
  hub : Hub
  /-- What the task of a connection, or its monitor, is about to write. -/
  due : ConnId → List Record
  /-- What the file held when the accept loop began. -/
  found : List Record
  /-- What was written since, and by which task. `none` is the accept loop. -/
  entries : List (Option ConnId × Record)

inductive ProcessEvent
  /-- A step of the hub. -/
  | turn (t : Turn)
  /-- The next record of `c` is given to the appender. -/
  | log (c : ConnId) (written : Bool)
  /-- `accept` returns an error. -/
  | acceptFails (error : String) (written : Bool)

/-- The appender writes what it is given. -/
def ProcessEvent.kept : ProcessEvent → Bool
  | .turn _ => true
  | .log _ written | .acceptFails _ written => written

/-- The peer closes its connection, and no task has a part in that. -/
def Action.closesPeer : Action → Bool
  | .task _ .peerClosed => true
  | _ => false

def acceptRecord (error : String) : Record :=
  .warn "accept failed" [("error", .text error)]

namespace Process

variable (L : Libs) (T : LogTexts) (roster : Roster)

/-- The accept loop begins. -/
def init (found : List Record) (hub : Hub) : Process where
  hub := hub
  due _ := []
  found := found
  entries := []

def step (s : Process) : ProcessEvent → Option Process
  | .turn t =>
    -- the task has written what its last step gave it to log
    if s.due t.action.conn = [] ∨ t.action.closesPeer = true then
      (LoggedHub.step L T roster ⟨s.hub, []⟩ t).map fun after => { s with
        hub := after.hub
        due := update s.due t.action.conn (s.due t.action.conn ++ after.file) }
    else none
  | .log c written =>
    match s.due c with
    | [] => none
    | r :: rest => some { s with
        due := update s.due c rest
        entries := if written then s.entries ++ [(some c, r)] else s.entries }
  | .acceptFails error written => some { s with
      entries := if written then s.entries ++ [(none, acceptRecord error)] else s.entries }

/-- The service-log file. -/
def file (s : Process) : List Record :=
  s.found ++ s.entries.map Prod.snd

/-- What is in the file of the task of `c` and its monitor. -/
def of (s : Process) (c : ConnId) : List Record :=
  (s.entries.filter fun e => e.1 = some c).map Prod.snd

/-- With what they are about to write. -/
def said (s : Process) (c : ConnId) : List Record :=
  s.of c ++ s.due c

/-- All is written. -/
def Settled (s : Process) : Prop :=
  ∀ c, s.due c = []

end Process

/-- The process of a start that came through. `before` is what earlier processes left in the file. -/
def Launch.process (before : List Record) (launch : Launch) : Option (Roster × Process) :=
  launch.server.map fun p => (p.1, .init (before ++ launch.records) p.2)

/-! ## What a start writes -/

section Start

variable {sys : System} {disk : Disk} {configPath : String} {before : List Record} {roster : Roster}
  {s : Process}

/-- The records of a start that came through. -/
def startupRecords (sys : System) (configPath : String) (config : Config) (roster : Roster) : List Record :=
  [configRecord configPath config, rosterRecord sys (roster.agents.map Prod.fst), auditRecord config,
    bindingRecord config, readyRecord config]

theorem process_of_main (h : (main sys disk configPath).process before = some (roster, s)) :
    ∃ config audit, Config.load sys.readToString sys.configFromStr configPath = .ok config ∧
      AuditLog.open sys.openAppend disk config.auditLogPath = .ok audit ∧
      s = .init (before ++ startupRecords sys configPath config roster) (.init audit) := by
  unfold Launch.process at h
  obtain ⟨p, hserver, hp⟩ := Option.map_eq_some_iff.1 h
  obtain ⟨rfl, rfl⟩ := Prod.mk.inj hp
  unfold main at hserver ⊢
  cases hconfig : Config.load sys.readToString sys.configFromStr configPath with
  | error e =>
    rw [hconfig] at hserver
    cases hserver
  | ok config =>
    rw [hconfig] at hserver
    dsimp only at hserver ⊢
    cases hinit : ServiceLog.init sys config.serviceLogPath with
    | error e =>
      rw [hinit] at hserver
      cases hserver
    | ok _ =>
      rw [hinit] at hserver
      dsimp only at hserver ⊢
      cases hload : Roster.load sys.readToString sys.rosterFromStr config.rosterPath with
      | error e =>
        rw [hload] at hserver
        cases hserver
      | ok roster =>
        rw [hload] at hserver
        dsimp only at hserver ⊢
        cases hopen : AuditLog.open sys.openAppend disk config.auditLogPath with
        | error e =>
          rw [hopen] at hserver
          cases hserver
        | ok audit =>
          rw [hopen] at hserver
          dsimp only at hserver ⊢
          cases hbind : sys.bind config.port with
          | error e =>
            rw [hbind] at hserver
            cases hserver
          | ok _ =>
            rw [hbind] at hserver
            obtain rfl := Option.some.inj hserver
            exact ⟨config, audit, rfl, hopen, rfl⟩

end Start

/-! ## What an event does -/

namespace Process

variable {L : Libs} {T : LogTexts} {roster : Roster} {s s' : Process}

/-- A step of the hub hands its task some records. -/
theorem turn_cases {t : Turn} (h : step L T roster s (.turn t) = some s') :
    ∃ after, LoggedHub.step L T roster ⟨s.hub, []⟩ t = some after ∧ s'.hub = after.hub ∧
      s'.found = s.found ∧ s'.entries = s.entries ∧
      ∀ c, s'.said c = s.said c ++ if t.action.conn = c then after.file else [] := by
  simp only [step] at h
  split_ifs at h
  obtain ⟨after, hafter, rfl⟩ := Option.map_eq_some_iff.1 h
  refine ⟨after, hafter, rfl, rfl, rfl, fun c => ?_⟩
  by_cases hc : t.action.conn = c
  · subst hc
    simp only [said, of, update_self, if_true, List.append_assoc]
  · simp only [said, of, update_of_ne (Ne.symm hc), if_neg hc, List.append_nil]

/-- A record goes from its task into the file. -/
theorem log_cases {c : ConnId} (h : step L T roster s (.log c true) = some s') :
    ∃ r, s'.hub = s.hub ∧ s'.found = s.found ∧ s'.entries = s.entries ++ [(some c, r)] ∧
      ∀ d, s'.said d = s.said d := by
  simp only [step, if_true] at h
  split at h
  · cases h
  · rename_i r rest hdue
    obtain rfl := Option.some.inj h
    refine ⟨r, rfl, rfl, rfl, fun d => ?_⟩
    by_cases hd : d = c
    · subst hd
      simp [said, of, hdue, List.filter_append]
    · simp [said, of, List.filter_append, hd, Ne.symm hd]

theorem acceptFails_cases {error : String} (h : step L T roster s (.acceptFails error true) = some s') :
    s'.hub = s.hub ∧ s'.found = s.found ∧ s'.entries = s.entries ++ [(none, acceptRecord error)] ∧
      ∀ c, s'.said c = s.said c := by
  obtain rfl := Option.some.inj h
  refine ⟨rfl, rfl, rfl, fun c => ?_⟩
  simp [said, of, List.filter_append]

end Process

/-! ## The journal of a process -/

/-- What `s` has in its file and has still to write is what the journal `j` holds. -/
structure Behind (s : Process) (j : Journal) : Prop where
  hub : j.hub = s.hub
  said : ∀ c, s.said c = j.file c
  /-- The accept loop writes of its own failures only. -/
  loop : ∀ e ∈ s.entries, e.1 = none → ∃ error, e.2 = acceptRecord error

namespace Process

variable {L : Libs} {T : LogTexts} {roster : Roster} {s s' : Process} {j : Journal} {e : ProcessEvent}

/-- A step of the hub hands its task the records of the journal. -/
theorem behind_of_turn {t : Turn} (h : Behind s j) (hs : step L T roster s (.turn t) = some s') :
    ∃ j', j.step L T roster t = some j' ∧ Behind s' j' := by
  obtain ⟨after, hafter, hhub, -, hentries, hsaid⟩ := turn_cases hs
  obtain ⟨u, hu, rfl⟩ := Option.map_eq_some_iff.1 hafter
  have hstep : j.hub.step L roster (t.now, t.action) = some u := by rw [h.hub, hu]
  obtain ⟨j', hj'⟩ : ∃ j', j.step L T roster t = some j' := by
    rw [Journal.step, hstep]
    exact ⟨_, rfl⟩
  have hub : j'.hub = u := Option.some.inj ((Journal.hub_of_step hj').symm.trans hstep)
  refine ⟨j', hj', hub.trans hhub.symm, fun c => ?_, hentries ▸ h.loop⟩
  rw [hsaid c, h.said c, Journal.file, Journal.file, Journal.of_step hj' c, List.filter_append, hub, h.hub]
  split_ifs <;> rfl

theorem behind_of_log {c : ConnId} (h : Behind s j) (hs : step L T roster s (.log c true) = some s') :
    Behind s' j := by
  obtain ⟨r, hhub, -, hentries, hsaid⟩ := log_cases hs
  refine ⟨h.hub.trans hhub.symm, fun d => (hsaid d).trans (h.said d), ?_⟩
  rw [hentries]
  exact List.forall_mem_append.2 ⟨h.loop, List.forall_mem_singleton.2 fun hnone => by cases hnone⟩

theorem behind_of_acceptFails {error : String} (h : Behind s j)
    (hs : step L T roster s (.acceptFails error true) = some s') : Behind s' j := by
  obtain ⟨hhub, -, hentries, hsaid⟩ := acceptFails_cases hs
  refine ⟨h.hub.trans hhub.symm, fun c => (hsaid c).trans (h.said c), ?_⟩
  rw [hentries]
  exact List.forall_mem_append.2 ⟨h.loop, List.forall_mem_singleton.2 fun _ => ⟨error, rfl⟩⟩

theorem exists_journal {audit : AuditLog} {found : List Record}
    (h : Machine.ReachVia (step L T roster) (fun _ e => e.kept = true) (init found (.init audit)) s) :
    ∃ j, Machine.Reach (Journal.step L T roster) (Journal.init audit) j ∧ Behind s j := by
  induction h with
  | init => exact ⟨.init audit, .init, rfl, fun c => rfl, List.forall_mem_nil _⟩
  | @next s s' e _ hkept hs ih =>
    obtain ⟨j, hj, hbehind⟩ := ih
    cases e with
    | turn t =>
      obtain ⟨j', hj', hbehind'⟩ := behind_of_turn hbehind hs
      exact ⟨j', .next hj trivial hj', hbehind'⟩
    | log c written =>
      obtain rfl : written = true := hkept
      exact ⟨j, hj, behind_of_log hbehind hs⟩
    | acceptFails error written =>
      obtain rfl : written = true := hkept
      exact ⟨j, hj, behind_of_acceptFails hbehind hs⟩

/-- What was there stays. -/
theorem found_of_reach {s₀ : Process}
    (h : Machine.ReachVia (step L T roster) (fun _ e => e.kept = true) s₀ s) : s.found = s₀.found := by
  refine Machine.ReachVia.invariant (P := fun s => s.found = s₀.found) h rfl
    fun s e s' _ hP hkept hs => ?_
  cases e with
  | turn t =>
    obtain ⟨after, -, -, hfound, -⟩ := turn_cases hs
    exact hfound.trans hP
  | log c written =>
    obtain rfl : written = true := hkept
    obtain ⟨r, -, hfound, -⟩ := log_cases hs
    exact hfound.trans hP
  | acceptFails error written =>
    obtain rfl : written = true := hkept
    exact (acceptFails_cases hs).2.1.trans hP

/-! ## On the host -/

end Process

/-- What the host takes an event for. It does not see when a record gets into the file. -/
def ProcessEvent.onHost : ProcessEvent → Option HostEvent
  | .turn t => some (.turn t)
  | .log _ _ => none
  | .acceptFails error _ => some (.acceptFails error)

namespace Process

variable {host : Host}

/-- The server of the host goes along with the process. -/
theorem onHost_of_step (hserver : host.server = some (roster, s.hub))
    (h : step L T roster s e = some s') :
    ∃ host', Machine.run (Host.step L T) host e.onHost.toList = some host' ∧
      host'.server = some (roster, s'.hub) := by
  cases e with
  | turn t =>
    obtain ⟨after, hafter, hhub, -⟩ := turn_cases h
    have hstep := LoggedHub.hub_of_step hafter
    -- what was logged before does not matter to the hub
    obtain ⟨log, hlog⟩ : ∃ log, LoggedHub.step L T roster ⟨s.hub, host.log⟩ t = some ⟨s'.hub, log⟩ :=
      ⟨_, by rw [LoggedHub.step, hstep, ← hhub, Option.map_some]⟩
    refine ⟨{ host with disk := Host.save host.disk s'.hub.audit, log, server := some (roster, s'.hub) },
      ?_, rfl⟩
    simp only [ProcessEvent.onHost, Option.toList_some, Machine.run, Host.step, hserver, hlog,
      Option.map_some, Option.bind_some]
  | log c written =>
    have hhub : s'.hub = s.hub := by
      simp only [step] at h
      split at h
      · cases h
      · obtain rfl := Option.some.inj h
        rfl
    exact ⟨host, rfl, hserver.trans (by rw [hhub])⟩
  | acceptFails error written =>
    obtain rfl := Option.some.inj h
    refine ⟨{ host with log := host.log ++ [acceptRecord error] }, ?_, hserver⟩
    simp only [ProcessEvent.onHost, Option.toList_some, Machine.run, Host.step, hserver, Option.bind_some]
    rfl

theorem onHost_of_run : ∀ {es : List ProcessEvent} {s s' : Process} {host : Host},
    host.server = some (roster, s.hub) → Machine.run (step L T roster) s es = some s' →
      ∃ host', Machine.run (Host.step L T) host (es.filterMap ProcessEvent.onHost) = some host' ∧
        host'.server = some (roster, s'.hub)
  | [], s, s', host, hserver, h => by
    obtain rfl := Option.some.inj h
    exact ⟨host, rfl, hserver⟩
  | e :: es, s, s', host, hserver, h => by
    obtain ⟨s₁, h₁, h₂⟩ := Option.bind_eq_some_iff.1 h
    obtain ⟨host₁, hhost₁, hserver₁⟩ := onHost_of_step hserver h₁
    obtain ⟨host', hhost', hserver'⟩ := onHost_of_run hserver₁ h₂
    refine ⟨host', ?_, hserver'⟩
    have hes : (e :: es).filterMap ProcessEvent.onHost =
        e.onHost.toList ++ es.filterMap ProcessEvent.onHost := by
      cases he : e.onHost <;> simp [he]
    rw [hes, Machine.run_append, hhost₁, Option.bind_some, hhost']

/-- A process that is started on a host and runs is the server of the host. -/
theorem server_of_process {sys : System} {configPath : String} {before : List Record} {s₀ : Process}
    {es : List ProcessEvent} (hidle : host.server = none)
    (hstart : (main sys host.disk configPath).process before = some (roster, s₀))
    (h : Machine.run (step L T roster) s₀ es = some s) :
    ∃ host', Machine.run (Host.step L T) host
        (.start sys configPath :: es.filterMap ProcessEvent.onHost) = some host' ∧
      host'.server = some (roster, s.hub) := by
  obtain ⟨p, hserver, hp⟩ := Option.map_eq_some_iff.1 hstart
  obtain ⟨rfl, rfl⟩ := Prod.mk.inj hp
  simp only [Machine.run, Host.step, hidle, Option.bind_some]
  exact onHost_of_run hserver h

/-! ## The records of one process -/

variable {sys : System} {disk : Disk} {configPath : String} {before : List Record} {s₀ : Process}

/-- What the service-log file holds of a connection, with what is still to be written of it, begins
with its acceptance, ends with its close or its death once its task is over, and says once how it
ended. -/
theorem told_of_reach (hstart : (main sys disk configPath).process before = some (roster, s₀))
    (h : Machine.ReachVia (step L T roster) (fun _ e => e.kept = true) s₀ s) (c : ConnId) :
    (s.hub.conns c = none → s.said c = []) ∧
      ∀ k, s.hub.conns c = some k → Told k.peer k.pc (s.said c) := by
  obtain ⟨config, audit, -, -, rfl⟩ := process_of_main hstart
  obtain ⟨j, hj, hbehind⟩ := exists_journal h
  rw [hbehind.said c, ← hbehind.hub]
  exact ⟨Journal.file_of_new hj, fun k hk => Journal.told_file hj hk⟩

/-- The run in which every task writes its records at once. -/
def promptly (L : Libs) (T : LogTexts) (roster : Roster) (s : Process) : List Turn → List ProcessEvent
  | [] => []
  | t :: ts =>
    let logs := (step L T roster s (.turn t)).elim [] fun s' =>
      (s'.due t.action.conn).map fun _ => .log t.action.conn true
    .turn t :: logs ++ (Machine.run (step L T roster) s (.turn t :: logs)).elim [] fun s' =>
      promptly L T roster s' ts

/-! ## A sample process -/

/-- The sample hub is started. -/
def started (before : List Record) : Option (Roster × Process) :=
  (main Host.sampleSystem (fun _ => none) "config.toml").process before

/-- `P` holds after `n` events of the run in which every task writes its records at once. -/
def comesTo (ts : List Turn) (n : ℕ) (P : Process → Bool) (p : Roster × Process) : Bool :=
  ((promptly sampleLibs bodyTexts p.1 p.2 ts).take n).all ProcessEvent.kept &&
    (Machine.run (step sampleLibs bodyTexts p.1) p.2
      ((promptly sampleLibs bodyTexts p.1 p.2 ts).take n)).any P

theorem turn_of_promptly {t : Turn} : ∀ {ts : List Turn} {s : Process},
    .turn t ∈ promptly L T roster s ts → t ∈ ts
  | [], _, h => by cases h
  | t' :: ts, s, h => by
    unfold promptly at h
    dsimp only at h
    rcases List.mem_append.1 h with hnow | hlater
    · rcases List.mem_cons.1 hnow with heq | hlog
      · obtain rfl := ProcessEvent.turn.inj heq
        exact List.mem_cons_self
      · cases hs : step L T roster s (.turn t') with
        | none =>
          rw [hs] at hlog
          cases hlog
        | some s' =>
          rw [hs] at hlog
          obtain ⟨r, -, heq⟩ := List.mem_map.1 hlog
          cases heq
    · generalize Machine.run (step L T roster) s _ = o at hlater
      cases o with
      | none => cases hlater
      | some s' => exact List.mem_cons_of_mem _ (turn_of_promptly hlater)

theorem exists_of_comesTo {ts : List Turn} {n : ℕ} {P : Process → Bool} {p : Roster × Process}
    (h : comesTo ts n P p = true) : ∃ s, P s = true ∧
      Machine.ReachVia (step sampleLibs bodyTexts p.1)
        (fun _ e => e.kept = true ∧ ∀ t, e = .turn t → t ∈ ts) p.2 s := by
  obtain ⟨hkept, hrun⟩ := Bool.and_eq_true_iff.1 h
  obtain ⟨s, hrun, hs⟩ := (Option.any_eq_true _ _).1 hrun
  refine ⟨s, hs, Machine.reachVia_of_run hrun fun _ e he => ⟨List.all_eq_true.1 hkept e he, ?_⟩⟩
  rintro t rfl
  exact turn_of_promptly (List.mem_of_mem_take he)

/-- `alice` awaits in vain. -/
def awaitsInVain : List Turn :=
  (opening 0 aliceHello.bytes awaitAny.bytes ++ [Action.await 0, .task 0 .timer, .deregister 0,
    .task 0 (.replied (.ok ()))]).map fun a => ⟨0, a, ""⟩

/-- The task of `alice` has returned, and has not yet come to write that her connection is closed. -/
theorem told_of_reach_timeout : ∃ p s k, started [] = some p ∧
    Machine.ReachVia (step sampleLibs bodyTexts p.1) (fun _ e => e.kept = true) p.2 s ∧
    s.hub.conns 0 = some k ∧ (s.of 0).map Record.message = ["connection accepted", "authenticated",
      "await accepted", "await parked; no queued match", "await timed out; nothing consumed"] ∧
    (s.due 0).map Record.message = ["connection closed"] ∧ Told k.peer .finished (s.said 0) := by
  have hends : (started []).any (comesTo awaitsInVain 16 fun s => (s.hub.pc 0).any Pc.returned &&
      decide ((s.of 0).map Record.message = ["connection accepted", "authenticated", "await accepted",
        "await parked; no queued match", "await timed out; nothing consumed"]) &&
      decide ((s.due 0).map Record.message = ["connection closed"])) = true := by
    decide +kernel
  obtain ⟨⟨roster, s₀⟩, hstart, hends⟩ := (Option.any_eq_true _ _).1 hends
  obtain ⟨s, hs, hreach⟩ := exists_of_comesTo hends
  simp only [Bool.and_eq_true, decide_eq_true_eq] at hs
  obtain ⟨⟨hreturned, hfile⟩, hdue⟩ := hs
  obtain ⟨pc, hpc, hat⟩ := (Option.any_eq_true _ _).1 hreturned
  obtain ⟨k, hk, rfl⟩ := Hub.pc_eq_some.1 hpc
  have hfinished : k.pc = .finished := by
    generalize k.pc = pc at hat
    cases pc <;> first | rfl | cases hat
  have hkept := hreach.mono fun _ _ => And.left
  have htold := (told_of_reach hstart hkept 0).2 k hk
  exact ⟨(roster, s₀), s, k, hstart, hkept, hk, hfile, hdue, hfinished ▸ htold⟩

end Process

end AgentHub
