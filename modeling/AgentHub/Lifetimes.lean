import AgentHub.Identity
import AgentHub.Noninterference
import AgentHub.Replies
import AgentHub.Startup

/-!
# The hub over its lifetimes

A host on which the server is started, runs, and is killed at any moment, again and again
(`Host.step`). What a process knew is gone with it, and what it had put into its audit log stays,
though it be the half of a line. The next start appends to the same file.

So what a client was told is accepted stands in the audit log for good, whatever writes failed
before or after, and however often the hub was killed (`accepted_is_durable`). If no write failed
in the middle, the file is made of the records of the processes that had it open, one process after
the other, each with what it had written of a line when it was killed (`audit_of_lifetimes`).

Both are on condition that the service log is another file than any audit log, as the configuration
documents the two, that a path names one file, and that only the hub writes to the audit files.
-/

namespace AgentHub

open Function

/-- A process that ran, or runs. -/
structure Lifetime where
  roster : Roster
  /-- The path of its audit log. -/
  path : String
  trace : List Obs
  /-- What it had written of a line when it was killed. -/
  broken : List UInt8

/-- The files of the host, what its service log is handed, and the server while it runs. The service
log is none of the files, and what is written to one path is read at no other. -/
structure Host where
  disk : Disk
  log : List Record
  stderr : List String
  server : Option (Roster × Hub)
  /-- The processes that are gone. -/
  past : List Lifetime

inductive HostEvent
  | start (sys : System) (configPath : String)
  /-- The running server takes a step. -/
  | turn (t : Turn)
  /-- `accept` returns an error. -/
  | acceptFails (error : String)
  /-- The server is killed, and the blocking job of `job`, if there is one, has put this many bytes
  of its line into the file. -/
  | kill (now : DateTime) (job : Option (ConnId × ℕ))

/-- The server of a start that came through. -/
def Launch.server (launch : Launch) : Option (Roster × Hub) :=
  launch.roster.bind fun roster => launch.audit.map fun audit => (roster, .init audit)

/-- The process of a running server. -/
def lifetime (p : Roster × Hub) : Lifetime where
  roster := p.1
  path := p.2.audit.path
  trace := p.2.trace
  broken := []

namespace Host

variable (L : Libs) (T : LogTexts)

/-- The file of an audit log is what its writer has made of it. -/
def save (disk : Disk) (audit : AuditLog) : Disk :=
  update disk audit.path (some audit.file)

/-- What a blocking job that does not come to its end has written of its line. -/
def cut (hub : Hub) (now : DateTime) : Option (ConnId × ℕ) → Option (List UInt8)
  | none => some []
  | some (c, n) =>
    if hub.auditLock = some c then
      match (hub.pc c).bind (Hub.pendingEvent now) with
      | none => none
      | some event => (L.auditEventToString event).toOption.map fun text => (jsonl text).take n
    else none

def step (s : Host) : HostEvent → Option Host
  | .start sys configPath =>
    match s.server with
    | some _ => none
    | none =>
      let launch := main sys s.disk configPath
      some { s with
        disk := launch.audit.elim s.disk (save s.disk)
        log := s.log ++ launch.records
        stderr := s.stderr ++ launch.stderr
        server := launch.server }
  | .turn t =>
    match s.server with
    | none => none
    | some (roster, hub) =>
      (LoggedHub.step L T roster ⟨hub, s.log⟩ t).map fun after => { s with
        disk := save s.disk after.hub.audit
        log := after.log
        server := some (roster, after.hub) }
  | .acceptFails error =>
    match s.server with
    | none => none
    | some _ => some { s with log := s.log ++ [.warn "accept failed" [("error", .text error)]] }
  | .kill now job =>
    match s.server with
    | none => none
    | some (roster, hub) =>
      (cut L hub now job).map fun broken => { s with
        disk := save s.disk { hub.audit with file := hub.audit.file ++ broken }
        server := none
        past := s.past ++ [{ lifetime (roster, hub) with broken }] }

/-- A host with these files, on which no server has run. -/
def init (disk : Disk) : Host where
  disk := disk
  log := []
  stderr := []
  server := none
  past := []

/-- All processes, in the order in which they were started. -/
def lifetimes (s : Host) : List Lifetime :=
  s.past ++ s.server.toList.map lifetime

end Host

/-! ## What a start leaves -/

section Main

variable {sys : System} {disk : Disk} {configPath : String}

/-- A start that fails says so on stderr, and in the service log if there is one. One that does not
has a roster that was checked, and an audit log that holds what the file held. -/
theorem main_cases : (∃ stage error, main sys disk configPath = fatalPreLogger configPath stage error) ∨
    (∃ records audit stage error, main sys disk configPath = fatal configPath records audit stage error ∧
      ∀ a ∈ audit, a.file = (disk a.path).getD []) ∨
    ∃ roster audit, Roster.Accepted roster ∧ audit.file = (disk audit.path).getD [] ∧
      (main sys disk configPath).roster = some roster ∧ (main sys disk configPath).audit = some audit ∧
      (main sys disk configPath).stderr = [] := by
  unfold main
  split
  · exact Or.inl ⟨_, _, rfl⟩
  split
  · exact Or.inl ⟨_, _, rfl⟩
  split
  · exact Or.inr (Or.inl ⟨_, none, _, _, rfl, by simp⟩)
  rename_i roster hload
  split
  · exact Or.inr (Or.inl ⟨_, none, _, _, rfl, by simp⟩)
  rename_i audit hopen
  have hfile : audit.file = (disk audit.path).getD [] := by
    unfold AuditLog.open at hopen
    split at hopen
    · cases hopen
    · rw [← Except.ok.inj hopen]
  split
  · refine Or.inr (Or.inl ⟨_, some audit, _, _, rfl, fun a ha => ?_⟩)
    obtain rfl := Option.mem_some.1 ha
    exact hfile
  · exact Or.inr (Or.inr ⟨roster, audit, Roster.accepted_of_load hload, hfile, rfl, rfl, rfl⟩)

/-- The audit log of a start holds what the file held. -/
theorem file_of_main {audit : AuditLog} (h : (main sys disk configPath).audit = some audit) :
    audit.file = (disk audit.path).getD [] := by
  rcases @main_cases sys disk configPath with
    ⟨_, _, hm⟩ | ⟨_, _, _, _, hm, hfile⟩ | ⟨_, _, _, hfile, _, hm, _⟩
  · rw [hm] at h
    cases h
  · rw [hm] at h
    exact hfile audit h
  · rw [hm] at h
    obtain rfl := Option.some.inj h
    exact hfile

/-- The server of a start is new, on the audit log that was opened. -/
theorem server_of_main {p : Roster × Hub} (h : (main sys disk configPath).server = some p) :
    p.1.Accepted ∧ ∃ audit, (main sys disk configPath).audit = some audit ∧ p.2 = .init audit := by
  rcases @main_cases sys disk configPath with ⟨_, _, hm⟩ | ⟨_, _, _, _, hm, -⟩ |
    ⟨roster, audit, haccepted, -, hroster, haudit, -⟩
  · rw [hm] at h
    cases h
  · rw [hm] at h
    cases h
  · rw [Launch.server, hroster, haudit, Option.bind_some, Option.map_some] at h
    obtain rfl := Option.some.inj h
    exact ⟨haccepted, audit, haudit, rfl⟩

end Main

/-! ## The audit log of one process -/

section Log

variable {toString : AuditEvent → Except String String} {log log' : AuditLog} {event : AuditEvent}
  {os : List WriteResult} {r : Except AuditError Unit}

theorem AuditLog.path_of_write (h : log.write toString event os = some (log', r)) :
    log'.path = log.path := by
  unfold AuditLog.write at h
  split at h
  · cases h
    rfl
  · split at h
    · cases h
    · cases h
      rfl
    · cases h
      rfl

theorem AuditLog.prefix_of_write (h : log.write toString event os = some (log', r)) :
    log.file <+: log'.file := by
  unfold AuditLog.write at h
  split at h
  · cases h
    exact List.prefix_rfl
  · split at h
    · cases h
    all_goals
      rename_i hwrite
      cases h
      exact (writeAll_spec hwrite).1 ▸ List.prefix_append _ _

/-- A call that returns `Ok` has put the whole line of its event into the file. -/
theorem AuditLog.infix_of_write (h : log.write toString event os = some (log', .ok ())) :
    ∃ text, toString event = .ok text ∧ jsonl text <:+: log'.file := by
  rcases file_of_write h with ⟨-, hfile⟩ | ⟨htorn, hnone, -⟩
  · unfold AuditLog.write at h
    split at h
    · cases h
    · rename_i text htext
      refine ⟨text, htext, ?_⟩
      rw [hfile, AuditLog.record, htext]
      exact (List.suffix_append _ _).isInfix
  · obtain ⟨text, htext, hpos, hlt⟩ := htorn
    simp only [AuditLog.record, htext] at hnone
    rw [hnone, List.length_nil] at hlt
    omega

end Log

namespace Hub

variable {L : Libs} {roster : Roster} {audit : AuditLog} {s s' : Hub} {a : DateTime × Action}

/-- A step makes at most one call to `AuditLog::write`, of the event of the blocking job. -/
theorem audit_of_step (h : Step L roster s a s') : s'.audit = s.audit ∧
      (∃ obs, s'.trace = s.trace ++ obs ∧ recordsOf obs = []) ∨
    ∃ c os event r obs, a.2 = .append c os ∧ (s.pc c).bind (pendingEvent a.1) = some event ∧
      s.audit.write L.auditEventToString event os = some (s'.audit, r) ∧ s'.trace = s.trace ++ obs ∧
      recordsOf obs = if r.isOk then [event] else [] := by
  cases h with
  | accept | unlockAudit | loseRace => exact Or.inl ⟨rfl, [], rfl, rfl⟩
  | task hk hstep => exact Or.inl ⟨rfl, _, rfl, recordsOf_localStep hstep⟩
  | lockAudit hfree hk hstep => exact Or.inl ⟨rfl, _, rfl, recordsOf_sharedStep hstep (by simp)⟩
  | route hk hpc | requeue hk hpc =>
    exact Or.inl ⟨routing_audit _ _ _ _ _ _, _, routing_trace _ _ _ _ _ _, rfl⟩
  | take | park => exact Or.inl ⟨rfl, _, rfl, rfl⟩
  | deregister => exact Or.inl ⟨onChan_audit _ _ _, _, onChan_trace _ _ _, rfl⟩
  | @append now c os k k' obs event audit' r hlock hk hevent hwrite hstep =>
    refine Or.inr ⟨c, os, event, r, obs, rfl, ?_, hwrite, rfl, ?_⟩
    · rw [Hub.pc, hk, Option.map_some, Option.bind_some, hevent]
    · rw [recordsOf_appended hstep hevent]
      cases r <;> rfl

/-- The file of a hub only grows. -/
theorem audit_grows (h : Step L roster s a s') :
    s'.audit.path = s.audit.path ∧ s.audit.file <+: s'.audit.file := by
  rcases audit_of_step h with ⟨hsame, -⟩ | ⟨c, os, event, r, obs, -, -, hwrite, -⟩
  · rw [hsame]
    exact ⟨rfl, List.prefix_rfl⟩
  · exact ⟨AuditLog.path_of_write hwrite, AuditLog.prefix_of_write hwrite⟩

/-- What a trace records has its whole line in the file. -/
theorem infix_of_recorded (h : Reach L roster audit s) {event : AuditEvent}
    (he : event ∈ recordsOf s.trace) :
    ∃ text, L.auditEventToString event = .ok text ∧ jsonl text <:+: s.audit.file := by
  refine Machine.Reach.invariant (P := fun s => ∀ event ∈ recordsOf s.trace,
    ∃ text, L.auditEventToString event = .ok text ∧ jsonl text <:+: s.audit.file) h
    (fun event he => by cases he) (fun s a s' hP hs event he => ?_) event he
  have hold : event ∈ recordsOf s.trace → ∃ text, L.auditEventToString event = .ok text ∧
      jsonl text <:+: s'.audit.file := by
    intro hmem
    obtain ⟨text, htext, hin⟩ := hP event hmem
    exact ⟨text, htext, hin.trans (audit_grows (step_cases hs)).2.isInfix⟩
  rcases audit_of_step (step_cases hs) with ⟨-, obs, htrace, hobs⟩ |
      ⟨c, os, event', r, obs, -, -, hwrite, htrace, hobs⟩
  · rw [htrace, recordsOf_append, hobs, List.append_nil] at he
    exact hold he
  · rw [htrace, recordsOf_append, hobs] at he
    rcases List.mem_append.1 he with hmem | hmem
    · exact hold hmem
    · cases r with
      | error e => cases hmem
      | ok u =>
        obtain rfl := List.mem_singleton.1 hmem
        exact AuditLog.infix_of_write hwrite

end Hub

namespace Host

variable {L : Libs} {T : LogTexts} {disk disk' : Disk} {s s' : Host} {e : HostEvent}

/-! ## Nothing is taken out of a file -/

/-- Each file is still there, and holds what it held. -/
def Grows (disk disk' : Disk) : Prop :=
  ∀ path bytes, disk path = some bytes → ∃ bytes', disk' path = some bytes' ∧ bytes <+: bytes'

theorem Grows.refl (disk : Disk) : Grows disk disk :=
  fun _ bytes h => ⟨bytes, h, List.prefix_rfl⟩

theorem grows_save {audit : AuditLog} (h : ∀ bytes, disk audit.path = some bytes → bytes <+: audit.file) :
    Grows disk (save disk audit) := by
  intro path bytes hpath
  by_cases heq : path = audit.path
  · subst heq
    exact ⟨audit.file, update_self _ _ _, h bytes hpath⟩
  · exact ⟨bytes, by rw [save, update_of_ne heq, hpath], List.prefix_rfl⟩

/-- The beginning of a line. -/
def Fragment (L : Libs) (bytes : List UInt8) : Prop :=
  bytes = [] ∨ ∃ event text, L.auditEventToString event = .ok text ∧ bytes <+: jsonl text

theorem fragment_of_cut {hub : Hub} {now : DateTime} {job : Option (ConnId × ℕ)} {broken : List UInt8}
    (h : cut L hub now job = some broken) : Fragment L broken := by
  unfold cut at h
  split at h
  · exact Or.inl (Option.some.inj h).symm
  split at h
  · split at h
    · cases h
    · rename_i event hevent
      obtain ⟨text, htext, rfl⟩ := Option.map_eq_some_iff.1 h
      refine Or.inr ⟨event, text, ?_, List.take_prefix _ _⟩
      cases hs : L.auditEventToString event with
      | error e => simp [hs, Except.toOption] at htext
      | ok text' => simpa [hs, Except.toOption] using htext
  · cases h

/-- A process ran with a checked roster, and what its hub wrote still begins the file or is all of it. -/
def Lived (L : Libs) (disk : Disk) (l : Lifetime) : Prop :=
  l.roster.Accepted ∧ Fragment L l.broken ∧
    ∃ audit hub bytes, Hub.Reach L l.roster audit hub ∧ hub.trace = l.trace ∧
    hub.audit.path = l.path ∧ disk l.path = some bytes ∧ hub.audit.file <+: bytes

theorem Lived.grow {l : Lifetime} (h : Lived L disk l) (hdisk : Grows disk disk') : Lived L disk' l := by
  obtain ⟨haccepted, hbroken, audit, hub, bytes, hreach, htrace, hpath, hbytes, hpre⟩ := h
  obtain ⟨bytes', hbytes', hpre'⟩ := hdisk _ _ hbytes
  exact ⟨haccepted, hbroken, audit, hub, bytes', hreach, htrace, hpath, hbytes', hpre.trans hpre'⟩

/-- The running server has its file as it is, and the files of the others are kept. -/
structure Sound (L : Libs) (s : Host) : Prop where
  running : ∀ p, s.server = some p → p.1.Accepted ∧ (∃ audit, Hub.Reach L p.1 audit p.2) ∧
    s.disk p.2.audit.path = some p.2.audit.file
  past : ∀ l ∈ s.past, Lived L s.disk l

theorem Sound.lived (h : s.Sound L) {l : Lifetime} (hl : l ∈ s.lifetimes) : Lived L s.disk l := by
  rcases List.mem_append.1 hl with hpast | hnow
  · exact h.past l hpast
  · obtain ⟨p, hp, rfl⟩ := List.mem_map.1 hnow
    obtain ⟨haccepted, ⟨audit, hreach⟩, hfile⟩ := h.running p (Option.mem_toList.1 hp)
    exact ⟨haccepted, Or.inl rfl, audit, p.2, _, hreach, rfl, rfl, hfile, List.prefix_rfl⟩

/-- A start leaves the files as they are, but that it may create the audit log. -/
theorem grows_of_main (sys : System) (configPath : String) :
    Grows disk ((main sys disk configPath).audit.elim disk (save disk)) := by
  cases haudit : (main sys disk configPath).audit with
  | none => exact .refl disk
  | some audit =>
    refine grows_save fun bytes hbytes => ?_
    rw [file_of_main haudit, hbytes]
    exact List.prefix_rfl

theorem grows_of_step (hs : s.Sound L) (h : s.step L T e = some s') : Grows s.disk s'.disk := by
  cases e with
  | start sys configPath =>
    simp only [step] at h
    split at h
    · cases h
    · obtain rfl := Option.some.inj h
      exact grows_of_main sys configPath
  | turn t =>
    simp only [step] at h
    split at h
    · cases h
    · rename_i roster hub hserver
      obtain ⟨after, hafter, rfl⟩ := Option.map_eq_some_iff.1 h
      obtain ⟨hpath, hpre⟩ := Hub.audit_grows (Hub.step_cases (LoggedHub.hub_of_step hafter))
      refine grows_save fun bytes hbytes => ?_
      obtain ⟨-, -, hfile⟩ := hs.running (roster, hub) hserver
      rw [hpath, hfile] at hbytes
      exact Option.some.inj hbytes ▸ hpre
  | acceptFails error =>
    simp only [step] at h
    split at h
    · cases h
    · obtain rfl := Option.some.inj h
      exact .refl _
  | kill now job =>
    simp only [step] at h
    split at h
    · cases h
    · rename_i roster hub hserver
      obtain ⟨broken, -, rfl⟩ := Option.map_eq_some_iff.1 h
      refine grows_save fun bytes hbytes => ?_
      obtain ⟨-, -, hfile⟩ := hs.running (roster, hub) hserver
      rw [hfile] at hbytes
      exact Option.some.inj hbytes ▸ List.prefix_append _ _

theorem sound_of_step (hs : s.Sound L) (h : s.step L T e = some s') : s'.Sound L := by
  have hgrows := grows_of_step hs h
  cases e with
  | start sys configPath =>
    simp only [step] at h
    split at h
    · cases h
    obtain rfl := Option.some.inj h
    refine ⟨fun p hp => ?_, fun l hl => (hs.past l hl).grow hgrows⟩
    obtain ⟨haccepted, audit, haudit, hinit⟩ := server_of_main hp
    rw [hinit]
    refine ⟨haccepted, ⟨audit, .init⟩, ?_⟩
    rw [haudit, Option.elim_some]
    exact update_self _ _ _
  | turn t =>
    simp only [step] at h
    split at h
    · cases h
    rename_i roster hub hserver
    obtain ⟨after, hafter, rfl⟩ := Option.map_eq_some_iff.1 h
    refine ⟨fun p hp => ?_, fun l hl => (hs.past l hl).grow hgrows⟩
    obtain rfl := Option.some.inj hp
    obtain ⟨haccepted, ⟨audit, hreach⟩, -⟩ := hs.running (roster, hub) hserver
    exact ⟨haccepted, ⟨audit, .next hreach trivial (LoggedHub.hub_of_step hafter)⟩, update_self _ _ _⟩
  | acceptFails error =>
    simp only [step] at h
    split at h
    · cases h
    · rename_i hserver
      obtain rfl := Option.some.inj h
      exact ⟨fun p hp => hs.running p hp, hs.past⟩
  | kill now job =>
    simp only [step] at h
    split at h
    · cases h
    rename_i roster hub hserver
    obtain ⟨broken, hcut, rfl⟩ := Option.map_eq_some_iff.1 h
    refine ⟨fun p hp => (by cases hp), fun l hl => ?_⟩
    rcases List.mem_append.1 hl with hpast | hnow
    · exact (hs.past l hpast).grow hgrows
    · obtain rfl := List.mem_singleton.1 hnow
      obtain ⟨haccepted, ⟨audit, hreach⟩, -⟩ := hs.running (roster, hub) hserver
      exact ⟨haccepted, fragment_of_cut hcut, audit, hub, _, hreach, rfl, rfl, update_self _ _ _,
        List.prefix_append _ _⟩

theorem sound_of_reach (h : Machine.Reach (step L T) (init disk) s) : s.Sound L :=
  Machine.Reach.invariant (P := Sound L) h ⟨fun p hp => (by cases hp), fun l hl => (by cases hl)⟩
    fun _ _ _ hP hs => sound_of_step hP hs

/-- What a process told a client that it accepted : the envelope came from an agent of its roster, on
a connection authenticated as that agent, and its record stands whole in the audit log for good. -/
theorem accepted_is_durable (h : Machine.Reach (step L T) (init disk) s) {l : Lifetime}
    (hl : l ∈ s.lifetimes)
    {c : ConnId} {id : String} (hanswer : .answered c (.accepted id) ∈ l.trace) :
    ∃ ts e name token text bytes, e.id = id ∧ e.from = name ∧ name ≠ hubName ∧
      l.roster.get name = some token ∧ .authenticated c name ∈ l.trace ∧
      L.auditEventToString (.accepted ts e) = .ok text ∧ s.disk l.path = some bytes ∧
        jsonl text <:+: bytes := by
  obtain ⟨haccepted, -, audit, hub, bytes, hreach, htrace, -, hbytes, hpre⟩ := (sound_of_reach h).lived hl
  rw [← htrace] at hanswer ⊢
  obtain ⟨pre, hpre', name, ts, x, outcome, hx, -, hid⟩ := Hub.exists_grounded hreach hanswer
  obtain ⟨e₀, -, hverb, he⟩ := Hub.role_of_accepted hreach (hpre' hx)
  obtain ⟨token, htoken⟩ := (Hub.hello_of_verb hreach hverb).get
  obtain ⟨pre₂, hpre₂, hauth⟩ := Hub.exists_grounded hreach hverb
  have hrecorded : .accepted ts x.envelope ∈ recordsOf hub.trace :=
    List.mem_filterMap.2 ⟨_, hpre' hx, rfl⟩
  obtain ⟨text, htext, hin⟩ := Hub.infix_of_recorded hreach hrecorded
  exact ⟨ts, x.envelope, name, token, text, bytes, hid, by rw [he], haccepted.ne_hubName htoken, htoken,
    hpre₂ hauth, htext, hbytes, hin.trans hpre.isInfix⟩

/-! ## The files as the processes wrote them -/

/-- No call to `AuditLog::write` fails in the middle of its line. -/
def Untorn (L : Libs) (s : Host) (e : HostEvent) : Prop :=
  ∀ t c os roster hub event, e = .turn t → t.action = .append c os → s.server = some (roster, hub) →
    (hub.pc c).bind (Hub.pendingEvent t.now) = some event →
      ¬ AuditLog.Torn L.auditEventToString (event, os)

/-- What a process put into its audit log. -/
def written (L : Libs) (path : String) (l : Lifetime) : List UInt8 :=
  if l.path = path then (recordsOf l.trace).flatMap (Hub.lineOf L) ++ l.broken else []

/-- A file holds what it held at first and what the processes put into it, one after the other. -/
def Written (L : Libs) (disk : Disk) (s : Host) : Prop :=
  ∀ path, (s.disk path).getD [] = (disk path).getD [] ++ s.lifetimes.flatMap (written L path)

/-- A step that tears no line adds the line of its event, if the call returns `Ok`. -/
theorem file_of_untorn {roster : Roster} {hub hub' : Hub} {a : DateTime × Action}
    (h : Hub.Step L roster hub a hub')
    (hwhole : ∀ c os event, a.2 = .append c os → (hub.pc c).bind (Hub.pendingEvent a.1) = some event →
      ¬ AuditLog.Torn L.auditEventToString (event, os)) :
    hub'.audit.path = hub.audit.path ∧ ∃ obs, hub'.trace = hub.trace ++ obs ∧
      hub'.audit.file = hub.audit.file ++ (recordsOf obs).flatMap (Hub.lineOf L) := by
  refine ⟨(Hub.audit_grows h).1, ?_⟩
  rcases Hub.audit_of_step h with ⟨hsame, obs, htrace, hobs⟩ |
      ⟨c, os, event, r, obs, ha, hevent, hwrite, htrace, hobs⟩
  · exact ⟨obs, htrace, by rw [hsame, hobs, List.flatMap_nil, List.append_nil]⟩
  · refine ⟨obs, htrace, ?_⟩
    rcases AuditLog.file_of_write hwrite with ⟨-, hfile⟩ | ⟨htorn, -⟩
    · rw [hfile, hobs]
      cases r with
      | error e => simp [AuditLog.record, Except.isOk, Except.toBool]
      | ok u => simp [Except.isOk, Except.toBool, Hub.lineOf]
    · exact absurd htorn (hwhole c os event ha hevent)

/-- A start puts nothing into a file. -/
theorem getD_of_main (sys : System) (configPath path : String) :
    ((main sys disk configPath).audit.elim disk (save disk) path).getD [] = (disk path).getD [] := by
  cases haudit : (main sys disk configPath).audit with
  | none => rfl
  | some audit =>
    rw [Option.elim_some, save]
    by_cases hpath : path = audit.path
    · rw [hpath, update_self, Option.getD_some, file_of_main haudit]
    · rw [update_of_ne hpath]

theorem written_of_main (sys : System) (configPath path : String) :
    ((main sys disk configPath).server.toList.map lifetime).flatMap (written L path) = [] := by
  cases hserver : (main sys disk configPath).server with
  | none => rfl
  | some p =>
    obtain ⟨-, audit, -, hinit⟩ := server_of_main hserver
    simp [written, lifetime, hinit, Hub.init, recordsOf]

theorem written_of_step {disk₀ : Disk} (hs : s.Sound L) (hw : s.Written L disk₀) (hu : Untorn L s e)
    (h : s.step L T e = some s') : s'.Written L disk₀ := by
  intro path
  cases e with
  | start sys configPath =>
    simp only [step] at h
    split at h
    · cases h
    rename_i hserver
    obtain rfl := Option.some.inj h
    have hold : s.lifetimes = s.past := by simp [lifetimes, hserver]
    rw [lifetimes, List.flatMap_append, written_of_main, List.append_nil, ← hold, ← hw path]
    exact getD_of_main sys configPath path
  | turn t =>
    simp only [step] at h
    split at h
    · cases h
    rename_i roster hub hserver
    obtain ⟨after, hafter, rfl⟩ := Option.map_eq_some_iff.1 h
    obtain ⟨-, -, hfile⟩ := hs.running (roster, hub) hserver
    obtain ⟨hsame, obs, htrace, hadded⟩ := file_of_untorn (Hub.step_cases (LoggedHub.hub_of_step hafter))
      fun c os event ha hevent => hu t c os roster hub event rfl ha hserver hevent
    have hbefore := hw path
    simp only [lifetimes, hserver, Option.toList_some, List.map_cons, List.map_nil, List.flatMap_append,
      List.flatMap_singleton] at hbefore ⊢
    by_cases hpath : path = hub.audit.path
    · subst hpath
      rw [hfile, Option.getD_some] at hbefore
      have hsaved : save s.disk after.hub.audit hub.audit.path = some after.hub.audit.file := by
        rw [save, hsame, update_self]
      rw [hsaved, Option.getD_some, hadded, hbefore]
      simp only [written, lifetime, hsame, if_pos, htrace, recordsOf_append, List.flatMap_append,
        List.append_assoc, List.append_nil]
    · have hsaved : save s.disk after.hub.audit path = s.disk path := by
        rw [save, hsame, update_of_ne hpath]
      have hother : ¬ hub.audit.path = path := Ne.symm hpath
      rw [hsaved, hbefore]
      simp only [written, lifetime, hsame, hother, if_false]
  | acceptFails error =>
    simp only [step] at h
    split at h
    · cases h
    · rename_i hserver
      obtain rfl := Option.some.inj h
      exact hw path
  | kill now job =>
    simp only [step] at h
    split at h
    · cases h
    rename_i roster hub hserver
    obtain ⟨broken, -, rfl⟩ := Option.map_eq_some_iff.1 h
    obtain ⟨-, -, hfile⟩ := hs.running (roster, hub) hserver
    have hbefore := hw path
    simp only [lifetimes, hserver, Option.toList_some, Option.toList_none, List.map_cons, List.map_nil,
      List.flatMap_append, List.flatMap_singleton, List.append_nil] at hbefore ⊢
    by_cases hpath : path = hub.audit.path
    · subst hpath
      rw [hfile, Option.getD_some] at hbefore
      have hsaved : save s.disk { hub.audit with file := hub.audit.file ++ broken } hub.audit.path =
          some (hub.audit.file ++ broken) :=
        update_self _ _ _
      rw [hsaved, Option.getD_some, hbefore]
      simp only [written, lifetime, if_pos, List.append_assoc, List.append_nil]
    · have hsaved : save s.disk { hub.audit with file := hub.audit.file ++ broken } path = s.disk path :=
        update_of_ne hpath _ _
      have hother : ¬ hub.audit.path = path := Ne.symm hpath
      rw [hsaved, hbefore]
      simp only [written, lifetime, hother, if_false]

/-- As long as no write fails in the middle each file is what it was at first, and then the lines of the
events whose append returned `Ok`, process by process and in the order of each one's trace, each with the
beginning of one line more if it was killed while it wrote it. -/
theorem audit_of_lifetimes {disk₀ : Disk}
    (h : Machine.ReachVia (step L T) (Untorn L) (init disk₀) s) (path : String) :
    (s.disk path).getD [] = (disk₀ path).getD [] ++ s.lifetimes.flatMap (written L path) ∧
      ∀ l ∈ s.lifetimes, Fragment L l.broken := by
  refine ⟨?_, fun l hl => ((sound_of_reach h.reach).lived hl).2.1⟩
  refine Machine.ReachVia.invariant (P := Written L disk₀) h (fun path => ?_)
    (fun s e s' hreach hP hQ hs => ?_)
    path
  · exact (List.append_nil _).symm
  · exact written_of_step (sound_of_reach hreach.reach) hP hQ hs

/-! ## A history -/

def sampleConfig : Config where
  port := 46110
  auditLogPath := "audit.jsonl"
  serviceLogPath := "service.log"
  rosterPath := "roster.toml"

/-- Where the sample hub can be started. -/
def sampleSystem : System where
  readToString path := if path = "config.toml" then .ok "config" else .ok sampleRosterFile
  configFromStr _ := .ok sampleConfig
  rosterFromStr := sampleFromStr
  build _ _ := .ok ()
  tryInit := .ok ()
  openAppend _ := .ok ()
  bind _ := .ok ()
  debugStr := quote

/-- `bob` sends a task and is told that it is accepted, and the hub is killed and started again.
`alice` connects, and the hub is killed in the middle of the line that says so and started once more. -/
def killedAndStarted : List HostEvent :=
  .start sampleSystem "config.toml" ::
    (opening 1 bobHello.bytes sendTask.bytes ++ committing 1 (sampleEnvelope "m1" "task") ++
      [Action.task 1 (.replied (.ok ()))]).map (fun a => .turn ⟨0, a, ""⟩) ++
    [.kill 0 none, .start sampleSystem "config.toml"] ++
    ((opening 0 [] []).take 2).map (fun a => .turn ⟨0, a, ""⟩) ++
    [.kill 0 (some (0, 5)), .start sampleSystem "config.toml"]

def runHost : Option Host :=
  Machine.run (step sampleLibs bodyTexts) (init fun _ => none) killedAndStarted

/-- The id that a client is told is accepted. -/
def acceptedId : Obs → Option (ConnId × String)
  | .answered c (.accepted id) => some (c, id)
  | _ => none

theorem mem_of_acceptedId {t : List Obs} {c : ConnId} {id : String}
    (h : (c, id) ∈ t.filterMap acceptedId) : .answered c (.accepted id) ∈ t := by
  obtain ⟨o, ho, heq⟩ := List.mem_filterMap.1 h
  unfold acceptedId at heq
  split at heq
  · obtain ⟨rfl, rfl⟩ := Prod.mk.inj (Option.some.inj heq)
    exact ho
  · cases heq

theorem runHost_ends : runHost.any (fun s => s.lifetimes.length = 3 &&
    s.server.any (fun p => (p.2.state.queue "alice").isEmpty) &&
      s.lifetimes.head?.any fun l => l.path = "audit.jsonl" && l.trace.filterMap acceptedId = [(1, "m1")]) =
        true := by
  decide +kernel

/-- The task is not in the queue of the last process, and its record is in the file. -/
theorem accepted_is_durable_killed : ∃ s bytes ts e text,
    Machine.Reach (step sampleLibs bodyTexts) (init fun _ => none) s ∧ s.lifetimes.length = 3 ∧
      s.server.any (fun p => (p.2.state.queue "alice").isEmpty) = true ∧
      s.disk "audit.jsonl" = some bytes ∧ e.id = "m1" ∧
        sampleLibs.auditEventToString (.accepted ts e) = .ok text ∧ jsonl text <:+: bytes := by
  obtain ⟨s, hrun, hends⟩ := Option.any_eq_true _ _ |>.1 runHost_ends
  simp only [Bool.and_eq_true_iff] at hends
  obtain ⟨⟨hlength, hqueue⟩, hhead⟩ := hends
  obtain ⟨l, hl, hl'⟩ := Option.any_eq_true _ _ |>.1 hhead
  obtain ⟨hpath, hanswers⟩ := Bool.and_eq_true_iff.1 hl'
  have hanswer : .answered 1 (.accepted "m1") ∈ l.trace :=
    mem_of_acceptedId (of_decide_eq_true hanswers ▸ List.mem_singleton_self _)
  have hreach := Machine.reach_of_run hrun
  obtain ⟨ts, e, -, -, text, bytes, hid, -, -, -, -, htext, hbytes, hin⟩ :=
    accepted_is_durable hreach (List.mem_of_mem_head? hl) hanswer
  exact ⟨s, bytes, ts, e, text, hreach, of_decide_eq_true hlength, hqueue, of_decide_eq_true hpath ▸ hbytes,
    hid, htext, hin⟩

/-- Whether the step tears no line. -/
def untorn (L : Libs) (s : Host) : HostEvent → Bool
  | .turn ⟨now, .append c os, _⟩ =>
    (s.server.bind fun p => (p.2.pc c).bind (Hub.pendingEvent now)).all fun event =>
      (L.auditEventToString event).toOption.all fun text =>
        acceptedBytes (jsonl text).length os = 0 ||
          (jsonl text).length ≤ acceptedBytes (jsonl text).length os
  | _ => true

theorem untorn_of_check (s : Host) (e : HostEvent) (h : untorn L s e = true) : Untorn L s e := by
  rintro ⟨now, a, cause⟩ c os roster hub event rfl rfl hserver hevent ⟨text, htext, hpos, hlt⟩
  dsimp only at hevent hpos hlt
  simp only [untorn, hserver, Option.bind_some, hevent, Option.all_some, htext, Except.toOption,
    Bool.or_eq_true, decide_eq_true_eq] at h
  omega

/-- The file is what the processes wrote : two events, the half of a line, and nothing yet. -/
theorem audit_of_lifetimes_killed : ∃ s,
    Machine.ReachVia (step sampleLibs bodyTexts) (Untorn sampleLibs) (init fun _ => none) s ∧
      s.lifetimes.map (fun l => ((recordsOf l.trace).length, l.broken.length)) = [(2, 0), (0, 5), (0, 0)] ∧
      (s.disk "audit.jsonl").getD [] = s.lifetimes.flatMap (written sampleLibs "audit.jsonl") := by
  have hchecks : Machine.checks (step sampleLibs bodyTexts) (untorn sampleLibs) (init fun _ => none)
      killedAndStarted = true := by
    decide +kernel
  have hrecords : runHost.any (fun s => s.lifetimes.map
      (fun l => ((recordsOf l.trace).length, l.broken.length)) = [(2, 0), (0, 5), (0, 0)]) = true := by
    decide +kernel
  obtain ⟨s, hrun, hlengths⟩ := Option.any_eq_true _ _ |>.1 hrecords
  have hreach := Machine.reachVia_of_checks untorn_of_check hrun hchecks
  exact ⟨s, hreach, of_decide_eq_true hlengths, (audit_of_lifetimes hreach "audit.jsonl").1⟩

end Host

end AgentHub
