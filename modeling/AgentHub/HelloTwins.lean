import AgentHub.Conversation
import AgentHub.HelloDiagnostics
import AgentHub.Identity
import AgentHub.LineReading
import AgentHub.RoundTrip
import AgentHub.Sample
import AgentHub.SessionRuns
import AgentHub.Veil

/-!
# Two hellos that fail alike

Two first lines that differ in their token, neither of which authenticates. One half is about
bytes : two runs on lines of one length with one answer stay apart only in what is veiled, so
the service log, the audit log and the replies agree. The other half is about text : the two
lines have one answer unless `serde_json` gets as far as the token and quotes it.
-/

namespace AgentHub

open Function

/-! ## Lines of one length -/

section Lines

variable {line line' chunk chunk' bytes bytes' rest rest' : List UInt8}

/-- What comes next of a line and what stands behind it : a part of the line, or its end. -/
theorem cut_line (hline : newline ∉ line) (h : line ++ chunk <+: bytes ++ newline :: rest) :
    line ++ chunk <+: bytes ∨ ∃ pre rest', bytes = line ++ pre ∧ chunk = pre ++ newline :: rest' := by
  obtain ⟨more, hmore⟩ := h
  rcases List.append_eq_append_iff.1 hmore with ⟨cs, hbytes, -⟩ | ⟨cs, hcut, hrest⟩
  · exact Or.inl ⟨cs, hbytes.symm⟩
  · cases cs with
    | nil => exact Or.inl ⟨[], by simpa using hcut⟩
    | cons c cs =>
      obtain ⟨rfl, -⟩ := List.cons.inj hrest
      rcases List.append_eq_append_iff.1 hcut with ⟨pre, hbytes, hchunk⟩ | ⟨pre, hbytes, hchunk⟩
      · exact Or.inr ⟨pre, cs, hbytes, hchunk⟩
      · cases pre with
        | nil => exact Or.inr ⟨[], cs, by simpa using hbytes.symm, by simpa using hchunk.symm⟩
        | cons b pre =>
          obtain ⟨rfl, -⟩ := List.cons.inj hchunk
          exact absurd (hbytes ▸ List.mem_append_right _ List.mem_cons_self) hline

theorem readLineStep_nil (line : List UInt8) : readLineStep line (.ok []) =
    .done (if line.length = 0 then .ok none else .error (.truncatedLine line.length)) [] := by
  cases line <;> rfl

end Lines

/-- The task of a connection does and says the same on two results of reading its first line. -/
structure SameAnswer (L : Libs) (roster : Roster) (r r' : Except ReadLineError (Option String)) : Prop where
  next : ∀ now c peer, onHelloLine L roster now c peer r = onHelloLine L roster now c peer r'
  records : ∀ peer, helloRecords roster peer (L.lineRead r) = helloRecords roster peer (L.lineRead r')

theorem SameAnswer.refl (L : Libs) (roster : Roster) (r : Except ReadLineError (Option String)) :
    SameAnswer L roster r r :=
  ⟨fun _ _ _ => rfl, fun _ => rfl⟩

section Lines

variable {L : Libs} {roster : Roster} {line line' chunk chunk' bytes bytes' rest rest' : List UInt8}

/-- Two lines of one length are read in step, and end alike if they are answered alike. -/
theorem readLineStep_twins (hline : newline ∉ line) (hline' : newline ∉ line')
    (hbytes : newline ∉ bytes) (hbytes' : newline ∉ bytes')
    (hlineLength : line.length = line'.length) (hchunkLength : chunk.length = chunk'.length)
    (hlength : bytes.length = bytes'.length) (h : line ++ chunk <+: bytes ++ newline :: rest)
    (h' : line' ++ chunk' <+: bytes' ++ newline :: rest')
    (hsame : SameAnswer L roster (endOfLine bytes) (endOfLine bytes')) :
    (∃ l l', readLineStep line (.ok chunk) = .more l ∧ readLineStep line' (.ok chunk') = .more l') ∨
      ∃ r r' left left', readLineStep line (.ok chunk) = .done r left ∧
        readLineStep line' (.ok chunk') = .done r' left' ∧ SameAnswer L roster r r' := by
  have hpart : ∀ {line chunk bytes : List UInt8}, newline ∉ bytes → line ++ chunk <+: bytes →
      newline ∉ chunk := fun hbytes hpre hmem => hbytes (hpre.subset (List.mem_append_right _ hmem))
  rcases cut_line hline h with hpre | ⟨pre, left, rfl, rfl⟩
  · rcases cut_line hline' h' with hpre' | ⟨pre', left', rfl, rfl⟩
    · by_cases hne : chunk = []
      · subst hne
        obtain rfl : chunk' = [] := List.eq_nil_of_length_eq_zero hchunkLength.symm
        refine Or.inr ⟨_, _, _, _, readLineStep_nil line, readLineStep_nil line', ?_⟩
        rw [hlineLength]
        exact .refl L roster _
      · have hne' : chunk' ≠ [] := fun h =>
          hne (List.eq_nil_of_length_eq_zero (by rw [hchunkLength, h]; rfl))
        have htotal : (line' ++ chunk').length = (line ++ chunk).length := by
          simp only [List.length_append, hlineLength, hchunkLength]
        rw [readLineStep_of_notMem hne (hpart hbytes hpre),
          readLineStep_of_notMem hne' (hpart hbytes' hpre'),
          htotal]
        split_ifs
        · exact Or.inr ⟨_, _, _, _, rfl, rfl, .refl L roster _⟩
        · exact Or.inl ⟨_, _, rfl, rfl⟩
    · have hle := hpre.length_le
      simp only [List.length_append, List.length_cons] at hle hchunkLength hlength
      omega
  · rcases cut_line hline' h' with hpre' | ⟨pre', left', rfl, rfl⟩
    · have hle := hpre'.length_le
      simp only [List.length_append, List.length_cons] at hle hchunkLength hlength
      omega
    · have hnl : newline ∉ pre := fun hmem => hbytes (List.mem_append_right _ hmem)
      have hnl' : newline ∉ pre' := fun hmem => hbytes' (List.mem_append_right _ hmem)
      exact Or.inr ⟨_, _, _, _, readLineStep_of_newline hnl left, readLineStep_of_newline hnl' left', hsame⟩

end Lines

/-! ## The bytes of a connection -/

/-- The text is a hello that the roster admits. -/
def Authenticates (L : Libs) (roster : Roster) (text : String) : Prop :=
  ∃ name token, L.clientLineFromStr text = .ok (.hello name token) ∧ roster.get name = some token

namespace Hub

/-- All bytes that have come on `c`. -/
def received (s : Hub) (c : ConnId) : List UInt8 :=
  (s.conns c).elim [] Conn.received

/-- All that has come on `c` begins its first line, `text`, or begins with it. -/
def FirstLine (s : Hub) (c : ConnId) (text : String) : Prop :=
  ∃ rest, s.received c <+: asBytes text ++ newline :: rest

section

variable {L : Libs} {roster : Roster} {audit : AuditLog} {s s' : Hub} {c : ConnId}

theorem received_eq {k : Conn} (hk : s.conns c = some k) : s.received c = k.received := by
  rw [received, hk, Option.elim_some]

theorem received_onChan (s : Hub) (tx : ConnId) (f : Oneshot Stamped → Oneshot Stamped) :
    (s.onChan tx f).received c = s.received c := by
  rw [received, onChan_conns, received]
  cases s.conns c with
  | none => rfl
  | some k =>
    simp only [Option.map_some, Option.elim_some]
    split_ifs <;> rfl

theorem received_handOff (s : Hub) (x : Stamped) (o : SendOutcome) :
    (s.handOff x o).received c = s.received c := by
  cases o with
  | queued depth => rfl
  | handedOff tx => exact received_onChan s tx _

/-- No byte that has come is forgotten. -/
theorem received_prefix_of_step {a : DateTime × Action} (h : Step L roster s a s') :
    s.received c <+: s'.received c := by
  have hput : ∀ {s' : Hub} {d : ConnId} {k k' : Conn}, s.conns d = some k →
      s'.conns = update s.conns d (some k') → k.received <+: k'.received →
        s.received c <+: s'.received c := by
    intro s' d k k' hk hconns hpre
    rw [received, received, hconns]
    by_cases hc : c = d
    · subst hc
      rw [update_self, hk]
      exact hpre
    · simp [update_of_ne hc]
  cases h with
  | @accept now d peer hnew =>
    rw [received, received]
    by_cases hc : c = d
    · rw [hc, hnew]
      exact List.nil_prefix
    · simp [put_conns, hc]
  | task hk hstep => exact hput hk rfl (received_prefix_of_localStep hstep)
  | lockAudit _ hk hstep | append _ hk _ _ hstep =>
    exact hput hk rfl (received_eq_of_sharedStep hstep ▸ List.prefix_rfl)
  | unlockAudit _ hk | take hk | park hk | loseRace hk => exact hput hk rfl List.prefix_rfl
  | @deregister now d k name waiterId w state hk hpc hremove =>
    rw [received_onChan]
    exact @hput (s.put d { k with pc := .replying .timeout .finish, chan := k.chan.dropRx } []) _ _ _
      hk rfl List.prefix_rfl
  | @route now d k x role e hk hpc =>
    rw [routing, received_handOff]
    exact @hput (s.put d { k with pc := .committing (.routed x) role e } []) _ _ _ hk rfl
      List.prefix_rfl
  | @requeue now d k name source x hk hpc =>
    rw [routing, received_handOff]
    exact @hput (s.put d { k with pc := .finished } []) _ _ _ hk rfl List.prefix_rfl

theorem received_prefix_of_reach (h : Machine.Reach (step L roster) s s') :
    s.received c <+: s'.received c :=
  Machine.Reach.invariant (P := fun s' => s.received c <+: s'.received c) h List.prefix_rfl
    fun _ _ _ hP hs => hP.trans (received_prefix_of_step (step_cases hs))

/-- While it reads, a connection whose first line does not authenticate has all its bytes in hand. -/
theorem reading_of_firstLine (h : Reach L roster audit s) {text : String} (hline : s.FirstLine c text)
    (hrefused : ¬ Authenticates L roster text) (hnl : newline ∉ asBytes text) {k : Conn}
    (hk : s.conns c = some k) :
    (∀ name line, k.pc ≠ .readVerb name line) ∧
      ∀ line, k.pc = .readHello line → k.received = line ∧ newline ∉ line ∧ k.buf = [] := by
  have hrun := run_of_reach h hk
  refine ⟨fun name line hpc => hrefused ?_, fun line hpc => ?_⟩
  · have hknown := (known_of_run hrun).1
    rw [hpc] at hknown
    obtain ⟨first, rest, text', token, hreceived, hfirst, htext, hdecode, hroster⟩ :=
      (helloFirst_of_run hrun).hello c name hknown
    obtain ⟨rest', more, hmore⟩ := hline
    rw [received_eq hk, hreceived, List.append_assoc, List.cons_append] at hmore
    obtain ⟨rfl, -⟩ := split_at_first hmore hfirst hnl
    obtain rfl := Option.some.inj ((fromUtf8_asBytes text).symm.trans htext)
    exact ⟨name, token, hdecode, hroster⟩
  · exact (helloFirst_of_run hrun).reading line (by rw [hpc]; rfl)

/-! ## A read of the first line -/

section Read

variable {now : DateTime} {k : Conn} {line l left : List UInt8} {r : Except ReadLineError (Option String)}

/-- The round goes on. -/
theorem step_readMore (hk : s.conns c = some k) (hpc : k.pc = .readHello line) (hbuf : k.buf = [])
    {bytes : List UInt8} (hline : readLineStep line (.ok bytes) = .more l) :
    s.step L roster (now, .task c (.recv (.ok bytes))) =
      some (s.put c { k with received := k.received ++ bytes, buf := [], pc := .readHello l } []) := by
  refine step_task hk rfl ?_
  simp only [Conn.step, hbuf, if_true, Conn.readRound, hpc, hline]

/-- The line is read, or it never will be. -/
theorem step_readDone (hk : s.conns c = some k) (hpc : k.pc = .readHello line) (hbuf : k.buf = [])
    {result : Except String (List UInt8)} (hline : readLineStep line result = .done r left) :
    s.step L roster (now, .task c (.recv result)) = some (s.put c
      { k with
        received := k.received ++ result.toOption.getD [], buf := left
        pc := (onHelloLine L roster now c k.peer r).1 }
      (onHelloLine L roster now c k.peer r).2) := by
  refine step_task hk rfl ?_
  cases result with
  | ok bytes => simp only [Conn.step, hbuf, if_true, Conn.readRound, hpc, hline]; rfl
  | error e =>
    simp only [Conn.step, hbuf, if_true, Conn.readRound, hpc, hline]
    simp [Except.toOption]

end Read

end

end Hub

/-- Two first lines of one length, neither of which authenticates, that are answered alike. -/
structure FailAlike (L : Libs) (roster : Roster) (text text' : String) : Prop where
  length : (asBytes text).length = (asBytes text').length
  newline_notMem : newline ∉ asBytes text
  newline_notMem' : newline ∉ asBytes text'
  refused : ¬ Authenticates L roster text
  refused' : ¬ Authenticates L roster text'
  answer : SameAnswer L roster (endOfLine (asBytes text)) (endOfLine (asBytes text'))

/-! ## Two runs -/

/-- The same turn, but for what comes on `c` : as many bytes, and perhaps others. -/
inductive SameTurn (c : ConnId) : Turn → Turn → Prop
  | same (t : Turn) : SameTurn c t t
  | bytes {bytes bytes' : List UInt8} (now : DateTime) (cause : String)
      (hlength : bytes.length = bytes'.length) :
      SameTurn c ⟨now, .task c (.recv (.ok bytes)), cause⟩ ⟨now, .task c (.recv (.ok bytes')), cause⟩

namespace LoggedHub

/-- The hubs differ in what has come on `c` at most, and have logged the same. -/
structure Twin (c : ConnId) (s t : LoggedHub) : Prop where
  hub : s.hub.veil c = t.hub.veil c
  log : s.log = t.log

namespace Twin

variable {L : Libs} {T : LogTexts} {roster : Roster} {c : ConnId} {s t s' t' : LoggedHub}

/-- Twins take a turn that does not read at `c` alike. -/
theorem quiet (h : Twin c s t) {a : Turn} (ha : a.action.readsAt c = false)
    (hs : s.step L T roster a = some s') (ht : t.step L T roster a = some t') : Twin c s' t' := by
  obtain ⟨u, hu, rfl⟩ := Option.map_eq_some_iff.1 hs
  obtain ⟨v, hv, rfl⟩ := Option.map_eq_some_iff.1 ht
  have hhub : u.veil c = v.veil c := by
    have hu' := Hub.step_veil ha hu
    rw [h.hub, Hub.step_veil ha hv] at hu'
    exact (Option.some.inj hu').symm
  refine ⟨hhub, ?_⟩
  have houtcome : s.hub.outcome L (a.now, a.action) = t.hub.outcome L (a.now, a.action) := by
    rw [← Hub.outcome_veil s.hub a.now ha, h.hub, Hub.outcome_veil t.hub a.now ha]
  have hrecords : ∀ o, s.hub.records L T roster u a.now o a.cause =
      t.hub.records L T roster v a.now o a.cause := by
    intro o
    rw [← Hub.records_veil (c := c) s.hub u, h.hub, hhub, Hub.records_veil]
  rw [h.log, houtcome]
  simp only [hrecords]

section Read

variable {k k' : Conn} {line line' l l' left left' : List UInt8}
  {r r' : Except ReadLineError (Option String)}
  {now : DateTime} {cause : String}

/-- The connection reads its first line and has `line` of it. -/
structure Reading (s : LoggedHub) (c : ConnId) (k : Conn) (line : List UInt8) : Prop where
  conn : s.hub.conns c = some k
  pc : k.pc = .readHello line
  buf : k.buf = []

theorem conn (h : Twin c s t) (hk : s.hub.conns c = some k) :
    ∃ k', t.hub.conns c = some k' ∧ k.veiled = k'.veiled := by
  have hconns := congrArg (fun u => u.conns c) h.hub
  simp only [Hub.veil_conns, hk, Option.map_some] at hconns
  obtain ⟨k', hk', hveil⟩ := Option.map_eq_some_iff.1 hconns.symm
  exact ⟨k', hk', by simpa [Conn.veilAt] using hveil.symm⟩

/-- What one connection does to both hubs. -/
theorem put (h : Twin c s t) (hveil : k.veiled = k'.veiled) (obs : List Obs) :
    (s.hub.put c k obs).veil c = (t.hub.put c k' obs).veil c := by
  have hveil' : k.veilAt c c = k'.veilAt c c := by simpa [Conn.veilAt] using hveil
  rw [Hub.veil_put, Hub.veil_put, h.hub, hveil']

/-- As many bytes more on both. -/
theorem veiled_read (hveil : k.veiled = k'.veiled) {pc pc' : Pc} (hpc : pc.veiled = pc'.veiled)
    {buf buf' bytes bytes' : List UInt8} (hlength : bytes.length = bytes'.length) :
    { k with received := k.received ++ bytes, buf, pc }.veiled =
      { k' with received := k'.received ++ bytes', buf := buf', pc := pc' }.veiled := by
  simp only [Conn.veiled, Conn.mk.injEq, true_and] at hveil ⊢
  obtain ⟨hpeer, -, hchan, hreceived, hout, hclosed⟩ := hveil
  refine ⟨hpeer, hpc, hchan, ?_, hout, hclosed⟩
  simp only [List.map_const', List.length_append] at hreceived ⊢
  rw [List.replicate_add, hreceived, hlength, List.replicate_add]

theorem Reading.outcome (hk : Reading s c k line) (result : Except String (List UInt8)) :
    s.hub.outcome L (now, .task c (.recv result)) = (readLineStep line result).outcome L c := by
  simp only [Hub.outcome, hk.conn, Option.bind_some, Conn.outcome, hk.pc, Pc.lineSoFar]

/-- What is logged of a first line. -/
theorem Reading.records (hk : Reading s c k line) (r : LineRead) (k' : Conn) (obs : List Obs) :
    s.hub.records L T roster (s.hub.put c k' obs) now (.lineRead c r) cause =
      helloRecords roster k.peer r ++ closingRecords k (some k'.pc) := by
  have hpc : (s.hub.put c k' obs).pc c = some k'.pc := by simp [Hub.pc, Hub.put]
  simp only [Hub.records, Outcome.conn, hk.conn, Conn.records, lineRecords, hk.pc, hpc]

/-- A first line comes at once. -/
theorem Reading.step_line (hk : Reading s c k []) {bytes : List UInt8} (hnl : newline ∉ bytes) :
    ∃ s' pc, s.step L T roster ⟨now, .task c (.recv (.ok (bytes ++ [newline]))), cause⟩ = some s' ∧
      s'.hub.received c = k.received ++ (bytes ++ [newline]) ∧ s'.log = s.log ++
        (helloRecords roster k.peer (L.lineRead (endOfLine bytes)) ++ closingRecords k (some pc)) := by
  have hline : readLineStep [] (.ok (bytes ++ [newline])) = .done (endOfLine bytes) [] :=
    readLineStep_of_newline hnl []
  have hstep := @Hub.step_readDone L roster s.hub c now k [] [] _ hk.conn hk.pc hk.buf _ hline
  refine ⟨_, (onHelloLine L roster now c k.peer (endOfLine bytes)).1, by rw [step, hstep]; rfl, ?_, ?_⟩
  · rw [Hub.received_eq (by simp [Hub.put]; rfl)]
    rfl
  · simp only [hk.outcome, hline, ReadStep.outcome, Option.toList_some, List.flatMap_singleton, hk.records]

/-- Both go on with their lines. -/
theorem readMore (h : Twin c s t) (hk : Reading s c k line) (hk' : Reading t c k' line')
    (hveil : k.veiled = k'.veiled) {bytes bytes' : List UInt8} (hlength : bytes.length = bytes'.length)
    (hline : readLineStep line (.ok bytes) = .more l) (hline' : readLineStep line' (.ok bytes') = .more l')
    (hs : s.step L T roster ⟨now, .task c (.recv (.ok bytes)), cause⟩ = some s')
    (ht : t.step L T roster ⟨now, .task c (.recv (.ok bytes')), cause⟩ = some t') : Twin c s' t' := by
  simp only [step, Hub.step_readMore hk.conn hk.pc hk.buf hline, Option.map_some, hk.outcome, hline] at hs
  simp only [step, Hub.step_readMore hk'.conn hk'.pc hk'.buf hline', Option.map_some, hk'.outcome,
    hline'] at ht
  rw [← Option.some.inj hs, ← Option.some.inj ht]
  have hpc : (Pc.readHello l).veiled = (Pc.readHello l').veiled := rfl
  exact ⟨h.put (veiled_read hveil hpc hlength) [], congrArg (fun log => log ++ []) h.log⟩

/-- Both are answered. -/
theorem readDone (h : Twin c s t) (hk : Reading s c k line) (hk' : Reading t c k' line')
    (hveil : k.veiled = k'.veiled) {result result' : Except String (List UInt8)}
    (hline : readLineStep line result = .done r left) (hline' : readLineStep line' result' = .done r' left')
    (hlength : (result.toOption.getD []).length = (result'.toOption.getD []).length)
    (hsame : SameAnswer L roster r r')
    (hs : s.step L T roster ⟨now, .task c (.recv result), cause⟩ = some s')
    (ht : t.step L T roster ⟨now, .task c (.recv result'), cause⟩ = some t') : Twin c s' t' := by
  have hpeer : k.veiled.peer = k'.veiled.peer := congrArg Conn.peer hveil
  change k.peer = k'.peer at hpeer
  have hnext : onHelloLine L roster now c k.peer r = onHelloLine L roster now c k'.peer r' := by
    rw [hsame.next, hpeer]
  simp only [step, Hub.step_readDone hk.conn hk.pc hk.buf hline, Option.map_some, hk.outcome, hline,
    hnext] at hs
  simp only [step, Hub.step_readDone hk'.conn hk'.pc hk'.buf hline', Option.map_some, hk'.outcome,
    hline'] at ht
  rw [← Option.some.inj hs, ← Option.some.inj ht]
  have hpc : ∀ pc : Pc, pc.veiled = pc.veiled := fun _ => rfl
  refine ⟨h.put (veiled_read hveil (hpc (onHelloLine L roster now c k'.peer r').1) hlength) _, ?_⟩
  have hreturned : ∀ pc : Option Pc, closingRecords k pc = closingRecords k' pc := by
    intro pc
    rw [closingRecords, closingRecords, hk.pc, hk'.pc, hpeer]
    rfl
  simp only [h.log, ReadStep.outcome, Option.toList_some, List.flatMap_singleton, hk.records,
    hk'.records, hsame.records, hreturned, hpeer]

/-- A read at `c` is one of a connection that has not read its line. -/
theorem reading_of_step {i : Input} {u : Hub} (hi : i.reads = true)
    (hfirst : ∀ k, s.hub.conns c = some k → (∀ name line, k.pc ≠ .readVerb name line) ∧
      ∀ line, k.pc = .readHello line → k.received = line ∧ newline ∉ line ∧ k.buf = [])
    (hstep : s.hub.step L roster (now, .task c i) = some u) :
    ∃ k line result, Reading s c k line ∧ i = .recv result ∧ k.received = line ∧ newline ∉ line := by
  simp only [Hub.step] at hstep
  split_ifs at hstep
  obtain ⟨k, k', obs, hk, hstep, -⟩ := Hub.taskStep_eq_some hstep
  obtain ⟨hverb, hhello⟩ := hfirst k hk
  cases i with
  | recv result =>
    simp only [Conn.step] at hstep
    split_ifs at hstep with hbuf
    rcases pc_of_readRound hstep with ⟨line, hpc⟩ | ⟨name, line, hpc⟩
    · obtain ⟨hreceived, hnl, -⟩ := hhello line hpc
      exact ⟨k, line, result, ⟨hk, hpc, hbuf⟩, rfl, hreceived, hnl⟩
    · exact absurd hpc (hverb name line)
  | refill =>
    simp only [Conn.step] at hstep
    split_ifs at hstep with hbuf
    rcases pc_of_readRound hstep with ⟨line, hpc⟩ | ⟨name, line, hpc⟩
    · exact absurd (hhello line hpc).2.2 hbuf
    · exact absurd hpc (hverb name line)
  | _ => cases hi

/-- Both read what has come, or meet the same error. -/
theorem read {text text' : String} (hfail : FailAlike L roster text text') (h : Twin c s t)
    (hk : Reading s c k line) (hk' : Reading t c k' line') (hveil : k.veiled = k'.veiled)
    (hreceived : k.received = line) (hreceived' : k'.received = line') (hnl : newline ∉ line)
    (hnl' : newline ∉ line') {result result' : Except String (List UInt8)}
    (hresult : SameTurn c ⟨now, .task c (.recv result), cause⟩ ⟨now, .task c (.recv result'), cause⟩)
    (hs : s.step L T roster ⟨now, .task c (.recv result), cause⟩ = some s')
    (ht : t.step L T roster ⟨now, .task c (.recv result'), cause⟩ = some t')
    (hline : s'.hub.FirstLine c text) (hline' : t'.hub.FirstLine c text') : Twin c s' t' := by
  have hcome : ∀ {u u' : LoggedHub} {k : Conn} {line bytes : List UInt8}, Reading u c k line →
      k.received = line → u.step L T roster ⟨now, .task c (.recv (.ok bytes)), cause⟩ = some u' →
      u'.hub.received c = line ++ bytes := by
    intro u u' k line bytes hk hreceived hu
    have hhub := hub_of_step hu
    simp only [Hub.step] at hhub
    split_ifs at hhub
    obtain ⟨k₀, k₁, obs, hk₀, hstep, hput⟩ := Hub.taskStep_eq_some hhub
    obtain rfl := Option.some.inj (hk₀.symm.trans hk.conn)
    rw [Hub.received_eq (k := k₁) (by rw [hput]; simp [Hub.put]), (sockets_of_step hstep).1, hreceived]
    rfl
  have hlines : line.length = line'.length := by
    have hlengths := congrArg (fun k => k.received.length) hveil
    simpa [Conn.veiled, hreceived, hreceived'] using hlengths
  have hboth : ∀ {bytes bytes' : List UInt8}, bytes.length = bytes'.length → result = .ok bytes →
      result' = .ok bytes' → Twin c s' t' := by
    rintro bytes bytes' hlength rfl rfl
    obtain ⟨rest, hrest⟩ := hline
    obtain ⟨rest', hrest'⟩ := hline'
    rw [hcome hk hreceived hs] at hrest
    rw [hcome hk' hreceived' ht] at hrest'
    rcases readLineStep_twins hnl hnl' hfail.newline_notMem hfail.newline_notMem' hlines hlength hfail.length
      hrest hrest' hfail.answer with ⟨l, l', hmore, hmore'⟩ | ⟨r, r', left, left', hdone, hdone', hsame⟩
    · exact h.readMore hk hk' hveil hlength hmore hmore' hs ht
    · exact h.readDone hk hk' hveil hdone hdone' hlength hsame hs ht
  cases hresult with
  | same =>
    cases result with
    | ok bytes => exact hboth rfl rfl rfl
    | error e => exact h.readDone hk hk' hveil rfl rfl rfl (.refl L roster _) hs ht
  | bytes _ _ hlength => exact hboth hlength rfl rfl

/-- Twins stay twins. -/
theorem step {audit : AuditLog} {text text' : String} (hfail : FailAlike L roster text text')
    (h : Twin c s t) (hs₀ : Hub.Reach L roster audit s.hub) (ht₀ : Hub.Reach L roster audit t.hub)
    {a b : Turn} (hturn : SameTurn c a b) (hs : s.step L T roster a = some s')
    (ht : t.step L T roster b = some t') (hline : s'.hub.FirstLine c text)
    (hline' : t'.hub.FirstLine c text') : Twin c s' t' := by
  have hmono : ∀ {u u' : LoggedHub} {a : Turn} {text : String}, u.step L T roster a = some u' →
      u'.hub.FirstLine c text → u.hub.FirstLine c text := by
    rintro u u' a text hu ⟨rest, hrest⟩
    exact ⟨rest, (Hub.received_prefix_of_step (Hub.step_cases (hub_of_step hu))).trans hrest⟩
  have hfirst := fun k hk => Hub.reading_of_firstLine hs₀ (hmono hs hline) hfail.refused
    hfail.newline_notMem (c := c) (k := k) hk
  have hfirst' := fun k hk => Hub.reading_of_firstLine ht₀ (hmono ht hline') hfail.refused'
    hfail.newline_notMem' (c := c) (k := k) hk
  -- A read of the first line, on both.
  have hread : ∀ {now : DateTime} {i i' : Input} {cause : String}, i.reads = true → i'.reads = true →
      SameTurn c ⟨now, .task c i, cause⟩ ⟨now, .task c i', cause⟩ →
      s.step L T roster ⟨now, .task c i, cause⟩ = some s' →
      t.step L T roster ⟨now, .task c i', cause⟩ = some t' → Twin c s' t' := by
    intro now i i' cause hi hi' hturn hs ht
    obtain ⟨k, line, result, hk, rfl, hreceived, hnl⟩ := reading_of_step hi hfirst (hub_of_step hs)
    obtain ⟨k', line', result', hk', rfl, hreceived', hnl'⟩ := reading_of_step hi' hfirst' (hub_of_step ht)
    obtain ⟨k'', hk'', hveil⟩ := h.conn hk.conn
    obtain rfl := Option.some.inj (hk''.symm.trans hk'.conn)
    exact h.read hfail hk hk' hveil hreceived hreceived' hnl hnl' hturn hs ht hline hline'
  cases hturn with
  | bytes now cause hlength => exact hread rfl rfl (.bytes now cause hlength) hs ht
  | same =>
    by_cases ha : a.action.readsAt c = true
    · obtain ⟨now, action, cause⟩ := a
      cases action with
      | task d i =>
        obtain ⟨rfl, hi⟩ : d = c ∧ i.reads = true := by simpa [Action.readsAt] using ha
        exact hread hi hi (.same _) hs ht
      | _ => cases ha
    · exact h.quiet (Bool.not_eq_true _ ▸ ha) hs ht

end Read

end Twin

section Runs

variable {L : Libs} {T : LogTexts} {roster : Roster} {audit : AuditLog} {c : ConnId} {s t s' t' : LoggedHub}
  {text text' : String}

/-- Twins run into twins. -/
theorem twin_of_run (hfail : FailAlike L roster text text') {as bs : List Turn}
    (hturns : List.Forall₂ (SameTurn c) as bs) (h : Twin c s t) (hs₀ : Hub.Reach L roster audit s.hub)
    (ht₀ : Hub.Reach L roster audit t.hub) (hs : Machine.run (step L T roster) s as = some s')
    (ht : Machine.run (step L T roster) t bs = some t') (hline : s'.hub.FirstLine c text)
    (hline' : t'.hub.FirstLine c text') : Twin c s' t' := by
  have hmono : ∀ {u u' : LoggedHub} {as : List Turn} {text : String},
      Machine.run (step L T roster) u as = some u' → u'.hub.FirstLine c text → u.hub.FirstLine c text := by
    rintro u u' as text hu ⟨rest, hrest⟩
    exact ⟨rest, (Hub.received_prefix_of_reach (reach_hub (Machine.reach_of_run hu))).trans hrest⟩
  induction hturns generalizing s t with
  | nil =>
    obtain rfl := Option.some.inj hs
    obtain rfl := Option.some.inj ht
    exact h
  | cons hturn _ ih =>
    obtain ⟨s₁, hs₁, hs⟩ := Option.bind_eq_some_iff.1 hs
    obtain ⟨t₁, ht₁, ht⟩ := Option.bind_eq_some_iff.1 ht
    have h₁ := h.step hfail hs₀ ht₀ hturn hs₁ ht₁ (hmono hs hline) (hmono ht hline')
    exact ih h₁ (.next hs₀ trivial (hub_of_step hs₁)) (.next ht₀ trivial (hub_of_step ht₁)) hs ht

/-- Two runs that differ in the first line of one connection log the same, append the same to the
audit log, write the same to every peer and end in the same state, but for the bytes that the one
connection has received. -/
def SameDiagnostics (L : Libs) (T : LogTexts) (roster : Roster) (text text' : String) : Prop :=
  ∀ (audit : AuditLog) (c : ConnId) (as bs : List Turn) (s t : LoggedHub),
    List.Forall₂ (SameTurn c) as bs → Machine.run (step L T roster) (init audit) as = some s →
    Machine.run (step L T roster) (init audit) bs = some t → s.hub.FirstLine c text →
    t.hub.FirstLine c text' → s.log = t.log ∧ s.hub.audit = t.hub.audit ∧
      (∀ d, (s.hub.conns d).map Conn.out = (t.hub.conns d).map Conn.out) ∧
      s.hub.veil c = t.hub.veil c

theorem sameDiagnostics_of_failAlike (hfail : FailAlike L roster text text') :
    SameDiagnostics L T roster text text' := by
  intro audit c as bs s t hturns hs ht hline hline'
  have h : Twin c s t := twin_of_run hfail hturns ⟨rfl, rfl⟩ .init .init hs ht hline hline'
  have haudit : (s.hub.veil c).audit = (t.hub.veil c).audit := by rw [h.hub]
  refine ⟨h.log, haudit, fun d => ?_, h.hub⟩
  have hconns := congrArg (fun u => (u.conns d).map Conn.out) h.hub
  simpa only [Hub.veil_conns, Option.map_map, Function.comp_def, Conn.veilAt_out] using hconns

/-- The hub reaches with its log what it reaches without. -/
theorem exists_run_of_reach {u : Hub} (h : Machine.Reach (Hub.step L roster) s.hub u) :
    ∃ ts log, Machine.run (step L T roster) s ts = some ⟨u, log⟩ := by
  induction h with
  | init => exact ⟨[], s.log, rfl⟩
  | @next u u' a _ _ hstep ih =>
    obtain ⟨ts, log, hrun⟩ := ih
    refine ⟨ts ++ [⟨a.1, a.2, ""⟩], ?_⟩
    simp only [Machine.run_append, hrun, Option.bind_some, Machine.run, step, hstep, Option.map_some]
    exact ⟨_, rfl⟩

/-- Equal diagnostics of two lines of one length are equal records of the hello boundary. -/
theorem records_of_sameDiagnostics (hL : L.Serializes)
    (hlength : (asBytes text).length = (asBytes text').length)
    (hnl : newline ∉ asBytes text) (hnl' : newline ∉ asBytes text')
    (h : SameDiagnostics L T roster text text') :
    ∃ peer, helloRecords roster peer (L.lineRead (endOfLine (asBytes text))) =
      helloRecords roster peer (L.lineRead (endOfLine (asBytes text'))) := by
  -- A hub that has nothing of the line yet.
  let s₀ : LoggedHub := init ⟨"", []⟩
  have haccepted := @Hub.became_accepted L roster s₀.hub 0 rfl 0 ""
  obtain ⟨k₁, hk₁, hpc₁, -, hbuf₁⟩ := haccepted.conn
  obtain ⟨u, hlogged⟩ : ∃ u, Hub.Became L roster _ 0 (.readHello []) k₁.chan _ u :=
    Hub.became_logged hL rfl hk₁ hpc₁ hbuf₁ rfl
  obtain ⟨ts, log, hrun⟩ := @exists_run_of_reach L T roster s₀ u (haccepted.reach.trans hlogged.reach).reach
  obtain ⟨k, hk, hpc, -, hbuf⟩ := hlogged.conn
  have hreading : Twin.Reading ⟨u, log⟩ 0 k [] := ⟨hk, hpc, hbuf⟩
  have hempty : k.received = [] :=
    ((helloFirst_of_run (Hub.run_of_reach (haccepted.reach.trans hlogged.reach).reach hk)).reading []
      (by rw [hpc]; rfl)).1
  obtain ⟨s, pc, hs, hreceived, hlog⟩ := @Twin.Reading.step_line L T roster 0 ⟨u, log⟩ k 0 "" hreading _ hnl
  obtain ⟨t, pc', ht, hreceived', hlog'⟩ := @Twin.Reading.step_line L T roster 0 ⟨u, log⟩ k 0 "" hreading _ hnl'
  rw [hempty, List.nil_append] at hreceived hreceived'
  have hruns : ∀ {a : Turn} {s' : LoggedHub}, step L T roster ⟨u, log⟩ a = some s' →
      Machine.run (step L T roster) s₀ (ts ++ [a]) = some s' := by
    intro a s' ha
    simp only [Machine.run_append, hrun, Option.bind_some, Machine.run, ha]
  have hturns : ∀ ts : List Turn, List.Forall₂ (SameTurn 0) ts ts :=
    fun ts => List.forall₂_same.2 fun t _ => .same t
  have hequal := (h _ 0 _ _ s t (List.rel_append (hturns ts) (.cons (.bytes 0 "" (by simp [hlength])) .nil))
    (hruns hs) (hruns ht) ⟨[], hreceived ▸ List.prefix_rfl⟩ ⟨[], hreceived' ▸ List.prefix_rfl⟩).1
  rw [hlog, hlog'] at hequal
  have hrecords := List.append_cancel_left hequal
  have hone : ∀ r, (helloRecords roster k.peer r).length = 1 := by
    intro r
    unfold helloRecords
    split <;> try rfl
    split <;> rfl
  exact ⟨k.peer, (List.append_inj hrecords (by rw [hone, hone])).1⟩

end Runs

end LoggedHub

/-! ## Hello lines -/

section Hello

variable {L : Libs} {T : LogTexts} {roster : Roster} {text text' : String}

/-- Two texts that decode to the same but for the token, and do not authenticate, are answered alike. -/
theorem sameAnswer_of_sameButToken (h : SameButToken (L.clientLineFromStr text) (L.clientLineFromStr text'))
    (hrefused : ¬ Authenticates L roster text) (hrefused' : ¬ Authenticates L roster text') :
    SameAnswer L roster (.ok (some text)) (.ok (some text')) := by
  rcases h with hsame | ⟨name, token, token', hdecode, hdecode'⟩
  · constructor
    · intro now c peer
      simp only [onHelloLine, fromJsonl, hsame]
    · intro peer
      simp only [Libs.lineRead, Except.map, Option.map_some, hsame]
  · have htoken : roster.get name ≠ some token := fun hget => hrefused ⟨name, token, hdecode, hget⟩
    have htoken' : roster.get name ≠ some token' := fun hget => hrefused' ⟨name, token', hdecode', hget⟩
    constructor
    · intro now c peer
      simp only [onHelloLine, fromJsonl, hdecode, hdecode', handleHello]
      cases hget : roster.get name with
      | none => rfl
      | some expected =>
        have hne : expected ≠ token := fun heq => htoken (heq ▸ hget)
        have hne' : expected ≠ token' := fun heq => htoken' (heq ▸ hget)
        simp only [if_pos hne, if_pos hne']
    · intro peer
      simp only [Libs.lineRead, Except.map, Option.map_some, hdecode, hdecode', helloRecords, Roster.verify]
      cases hget : roster.get name with
      | none => rfl
      | some expected =>
        have hne : expected ≠ token := fun heq => htoken (heq ▸ hget)
        have hne' : expected ≠ token' := fun heq => htoken' (heq ▸ hget)
        simp only [if_pos hne, if_pos hne']

/-- The record of a line that does not decode shows what `serde_json` says of it, and no other
record looks like it. -/
theorem error_iff_of_records {peer : String} (h : helloRecords roster peer (L.lineRead (.ok (some text))) =
      helloRecords roster peer (L.lineRead (.ok (some text')))) (e : String) :
    L.clientLineFromStr text = .error e ↔ L.clientLineFromStr text' = .error e := by
  have hmessage : ∀ (line : ClientLine) (e : String), helloRecords roster peer (.ok (some (.ok line))) ≠
      helloRecords roster peer (.ok (some (.error e))) := by
    intro line e heq
    have hrecord := congrArg (fun rs => rs.map Record.message) heq
    cases line with
    | hello name token =>
      simp only [helloRecords] at hrecord
      split at hrecord <;> simp [Record.warn, Record.info] at hrecord
    | send | await => simp [helloRecords, Record.warn] at hrecord
  have hsource : ∀ e e' : String, helloRecords roster peer (.ok (some (.error e))) =
      helloRecords roster peer (.ok (some (.error e'))) → e = e' := by
    intro e e' heq
    have hdisplay : (WireError.parse e).display = (WireError.parse e').display := by
      simpa [helloRecords, Record.warn] using heq
    exact (String.append_right_inj "invalid wire line: ").1 hdisplay
  simp only [Libs.lineRead, Except.map, Option.map_some] at h
  cases hdecode : L.clientLineFromStr text with
  | ok line =>
    cases hdecode' : L.clientLineFromStr text' with
    | ok line' => simp
    | error e' =>
      rw [hdecode, hdecode'] at h
      exact (hmessage line e' h).elim
  | error e₁ =>
    cases hdecode' : L.clientLineFromStr text' with
    | ok line' =>
      rw [hdecode, hdecode'] at h
      exact (hmessage line' e₁ h.symm).elim
    | error e₂ =>
      rw [hdecode, hdecode'] at h
      have hequal : e₁ = e₂ := hsource e₁ e₂ h
      rw [hequal]

end Hello

namespace HelloLine

variable {L : Libs} {T : LogTexts} {roster : Roster} {N : NumberTexts} {early : List Char → String}
  {line : HelloLine} {pre post : List RawMember} {m : RawMember} {v v' : RawValue}

theorem byteLength_append (cs ds : List Char) : byteLength (cs ++ ds) = byteLength cs + byteLength ds := by
  rw [byteLength, utf8Bytes_append, List.length_append]
  rfl

theorem byteLength_cons (c : Char) (cs : List Char) :
    byteLength (c :: cs) = (String.utf8EncodeChar c).length + byteLength cs := by
  rw [byteLength, utf8Bytes, List.flatMap_cons, List.length_append]
  rfl

/-- Tokens of one length make lines of one length. -/
theorem byteLength_present (hlength : byteLength v.text = byteLength v'.text) :
    byteLength (line.present pre m post v).text = byteLength (line.present pre m post v').text := by
  have hmember : byteLength (m.put v).text = byteLength (m.put v').text := by
    simp only [RawMember.text, RawMember.put, byteLength_append, byteLength_cons, hlength]
  have hmembers : byteLength (membersText (pre ++ m.put v :: post)) =
      byteLength (membersText (pre ++ m.put v' :: post)) := by
    induction pre with
    | nil =>
      cases post with
      | nil => exact hmember
      | cons m' post =>
        simp only [List.nil_append, membersText, byteLength_append, hmember]
    | cons m' pre ih =>
      have hcons : ∀ ms, ms ≠ [] → byteLength (membersText (m' :: ms)) =
          byteLength m'.text + ((String.utf8EncodeChar ',').length + byteLength (membersText ms)) := by
        intro ms hms
        cases ms with
        | nil => exact absurd rfl hms
        | cons m'' ms =>
          rw [membersText, byteLength_append, byteLength_cons]
          simp
      rw [List.cons_append, List.cons_append, hcons _ (by simp), hcons _ (by simp), ih]
  have hhead : (line.present pre m post v).head = (line.present pre m post v').head := rfl
  have hrest : (line.present pre m post v).rest = (line.present pre m post v').rest := rfl
  simp only [text, byteLength_append, byteLength_cons, hhead, hrest]
  exact congrArg (fun n => byteLength line.head + n + _) hmembers

/-- Two lines with tokens of one form, neither of which authenticates, leave the same diagnostics
exactly if the line is too long to be read, or is refused before its token, or the tokens are
not such as a refusal tells apart. -/
theorem sameDiagnostics_iff (hL : L.Serializes) (hkey : m.key.value = .ok "token") (hform : SameForm v v')
    (hread : L.clientLineFromStr (String.ofList (line.present pre m post v).text) =
      (line.present pre m post v).derive N early)
    (hread' : L.clientLineFromStr (String.ofList (line.present pre m post v').text) =
      (line.present pre m post v').derive N early)
    (hnl : '\n' ∉ (line.present pre m post v).text) (hnl' : '\n' ∉ (line.present pre m post v').text)
    (hrefused : ¬ Authenticates L roster (String.ofList (line.present pre m post v).text))
    (hrefused' : ¬ Authenticates L roster (String.ofList (line.present pre m post v').text)) :
    LoggedHub.SameDiagnostics L T roster (String.ofList (line.present pre m post v).text)
        (String.ofList (line.present pre m post v').text) ↔
      maxLineBytes < byteLength (line.present pre m post v).text ∨ line.earlier ≠ [] ∨ ¬ NameOnly pre ∨
        Indistinct N v v' := by
  have hbytes : ∀ cs : List Char, asBytes (String.ofList cs) = utf8Bytes cs := by
    intro cs
    rw [asBytes_eq, String.toList_ofList]
  have hlines := @byteLength_present line pre post m v v' hform.length
  generalize htext : (line.present pre m post v).text = text at *
  generalize htext' : (line.present pre m post v').text = text' at *
  have hlength : (asBytes (String.ofList text)).length = (asBytes (String.ofList text')).length := by
    rw [hbytes, hbytes]
    exact hlines
  have hnl₁ : newline ∉ asBytes (String.ofList text) := by rwa [newline_mem_asBytes, String.toList_ofList]
  have hnl₂ : newline ∉ asBytes (String.ofList text') := by rwa [newline_mem_asBytes, String.toList_ofList]
  by_cases hlong : maxLineBytes < byteLength text
  · have hend : ∀ cs : List Char, byteLength cs = byteLength text →
        endOfLine (asBytes (String.ofList cs)) = .error .tooLong := by
      intro cs hcs
      exact if_pos (by rw [hbytes]; exact hlong.trans_eq hcs.symm)
    refine iff_of_true (LoggedHub.sameDiagnostics_of_failAlike
      ⟨hlength, hnl₁, hnl₂, hrefused, hrefused', ?_⟩) (Or.inl hlong)
    rw [hend text rfl, hend text' hlines.symm]
    exact .refl L roster _
  · have hend : ∀ cs : List Char, byteLength cs = byteLength text →
        endOfLine (asBytes (String.ofList cs)) = .ok (some (String.ofList cs)) := by
      intro cs hcs
      have hshort : ¬ maxLineBytes < (asBytes (String.ofList cs)).length := by
        rw [hbytes]
        exact fun h => hlong (h.trans_eq hcs)
      rw [endOfLine, if_neg hshort, fromUtf8_asBytes]
    constructor
    · intro h
      obtain ⟨peer, hrecords⟩ := LoggedHub.records_of_sameDiagnostics hL hlength hnl₁ hnl₂ h
      rw [hend text rfl, hend text' hlines.symm] at hrecords
      by_cases hearlier : line.earlier = []
      · by_cases hpre : NameOnly pre
        · have herrors : ∀ e, (line.present pre m post v).derive N early = .error e ↔
              (line.present pre m post v').derive N early = .error e := by
            intro e
            rw [← hread, ← hread']
            exact error_iff_of_records hrecords e
          exact Or.inr (Or.inr (Or.inr (indistinct_of_derive hkey hform hearlier hpre herrors)))
        · exact Or.inr (Or.inr (Or.inl hpre))
      · exact Or.inr (Or.inl hearlier)
    · intro h
      have hsame : line.earlier = [] → NameOnly pre → Indistinct N v v' := by
        intro hearlier hpre
        rcases h with h | h | h | h
        · exact absurd h hlong
        · exact absurd hearlier h
        · exact absurd hpre h
        · exact h
      have hdecode := @sameButToken_derive N pre post m v v' line early hkey hform hsame
      rw [← hread, ← hread'] at hdecode
      refine LoggedHub.sameDiagnostics_of_failAlike ⟨hlength, hnl₁, hnl₂, hrefused, hrefused', ?_⟩
      rw [hend text rfl, hend text' hlines.symm]
      exact sameAnswer_of_sameButToken hdecode hrefused hrefused'

/-! ## Two numbers -/

/-- A member without white space. -/
def sampleMember (key : String) (v : RawValue) : RawMember :=
  ⟨⟨[], by simp⟩, .plain key, ⟨[], by simp⟩, ⟨[], by simp⟩, v, ⟨[], by simp⟩⟩

def sampleName : RawMember :=
  sampleMember "name" (.string (.plain "alice"))

def sampleToken (n : ℤ) : RawValue :=
  .number (.ofInt n)

/-- A hello for `alice`, without white space. -/
def sampleHello : HelloLine where
  lead := ⟨[], by simp⟩
  earlier := []
  before := ⟨[], by simp⟩
  tag := .plain "hello"
  tag_eq := rfl
  beforeColon := ⟨[], by simp⟩
  afterColon := ⟨[], by simp⟩
  members := [sampleName]
  nonempty := by simp
  after := ⟨[], by simp⟩
  later := []
  trail := ⟨[], by simp⟩

/-- Numbers that are integers need nothing of doubles. -/
def sampleNumbers : NumberTexts where
  floats := ⟨fun _ => none, fun _ => .ofInt 0⟩
  showFloat _ := ""
  showFloat_inj l l' x x' h := by cases h
  tooLarge l := byteLength l.text

/-- The hello with an integer for a token. -/
def sampleLine (n : ℤ) : HelloLine :=
  sampleHello.present [sampleName] (sampleMember "token" .null) [] (sampleToken n)

/-- `serde_json` on these lines, and as for the sample hub on others. -/
def sampleHelloFromStr (text : String) : Except String ClientLine :=
  if text = String.ofList (sampleLine 123).text then (sampleLine 123).derive sampleNumbers fun _ => ""
  else if text = String.ofList (sampleLine 124).text then (sampleLine 124).derive sampleNumbers fun _ => ""
  else sampleLibs.clientLineFromStr text

def sampleHelloLibs : Libs :=
  { sampleLibs with clientLineFromStr := sampleHelloFromStr }

theorem sampleHelloLibs_reads (n : ℤ) (hn : n ∈ [(123 : ℤ), 124]) :
    sampleHelloLibs.clientLineFromStr (String.ofList (sampleLine n).text) =
      (sampleLine n).derive sampleNumbers (fun _ => "") := by
  have hne : (sampleLine 124).text ≠ (sampleLine 123).text := by decide +kernel
  have hne' : String.ofList (sampleLine 124).text ≠ String.ofList (sampleLine 123).text :=
    fun h => hne (String.ofList_inj.1 h)
  show sampleHelloFromStr _ = _
  unfold sampleHelloFromStr
  rcases List.mem_pair.1 hn with h | h
  · subst h
    rw [if_pos rfl]
  · subst h
    rw [if_neg hne', if_pos rfl]

theorem sampleHello_refused : ∀ n ∈ [(123 : ℤ), 124],
    ¬ Authenticates sampleHelloLibs sampleRoster (String.ofList (sampleLine n).text) := by
  have hnone : ∀ n ∈ [(123 : ℤ), 124],
      ((sampleLine n).derive sampleNumbers fun _ => "").toOption.isNone = true := by decide +kernel
  rintro n hn ⟨name, token, hdecode, -⟩
  have h := hnone n hn
  rw [← sampleHelloLibs_reads n hn, hdecode] at h
  cases h

/-- Two integers of one length are told apart unless they are the same. -/
theorem sameDiagnostics_iff_integers :
    LoggedHub.SameDiagnostics sampleHelloLibs ⟨fun _ => .ok "", fun _ => ""⟩ sampleRoster
        (String.ofList (sampleLine 123).text) (String.ofList (sampleLine 124).text) ↔
      maxLineBytes < byteLength (sampleLine 123).text ∨ sampleHello.earlier ≠ [] ∨
        ¬ NameOnly [sampleName] ∨ Indistinct sampleNumbers (sampleToken 123) (sampleToken 124) :=
  sameDiagnostics_iff ⟨fun _ => ⟨_, rfl⟩, fun _ => ⟨_, rfl⟩⟩ rfl ⟨rfl, by decide +kernel⟩
    (sampleHelloLibs_reads 123 (by decide)) (sampleHelloLibs_reads 124 (by decide)) (by decide +kernel)
    (by decide +kernel) (sampleHello_refused 123 (by decide)) (sampleHello_refused 124 (by decide))

end HelloLine

end AgentHub
