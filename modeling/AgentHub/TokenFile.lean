import AgentHub.LineReading
import AgentHub.Replies
import Mathlib.Data.List.DropRight

/-!
# Token files

An agent's token goes through three pieces of code : the roster keeps it as it is written, the
client trims the end of the file it reads it from, and the server compares the two exactly.
They agree on a token that does not end in whitespace. The roster's other agents are refused
with the file unless they have that same token (`token_file_authenticates_iff`).

`load` refuses an empty token, and accepts one that is blank, ends in a blank, or is another
agent's as well (`exists_confused_tokens`).
-/

namespace AgentHub

/-- The text ends in a whitespace character. -/
def EndsBlank (s : String) : Prop :=
  ∃ hne : s.toList ≠ [], isWhitespace (s.toList.getLast hne) = true

theorem toList_trimEnd (s : String) :
    (trimEnd s).toList = s.toList.rdropWhile isWhitespace := by
  rw [trimEnd, String.toList_ofList]
  rfl

/-- Trimming changes just the texts that end in whitespace. -/
theorem trimEnd_eq_self_iff {s : String} : trimEnd s = s ↔ ¬EndsBlank s := by
  rw [← String.toList_inj, toList_trimEnd, List.rdropWhile_eq_self_iff, EndsBlank, not_exists]

/-- A newline at the end of the file is trimmed. -/
theorem trimEnd_newline (s : String) : trimEnd (s ++ "\n") = trimEnd s := by
  rw [← String.toList_inj, toList_trimEnd, toList_trimEnd, String.toList_append]
  exact List.rdropWhile_concat_pos _ _ _ (by decide)

variable {F : Floats} {S : SerdeJson} {formatTs : DateTime → String}

/-- What an invocation that reads this token file connects with. -/
theorem eq_of_prepare {args : Args} {env : Surroundings} {inv : Invocation} {raw : String}
    (h : prepare S args env = .ok inv) (hfile : env.readFile args.tokenFile = .ok raw) :
    inv.name = args.asName ∧ inv.token = trimEnd raw := by
  unfold prepare readToken at h
  rw [hfile] at h
  cases hverb : assemble S args env with
  | error e =>
    rw [hverb] at h
    cases h
  | ok verb =>
    rw [hverb] at h
    cases h
    exact ⟨rfl, rfl⟩

/-- An invocation that awaits anything. -/
def awaitArgs (asName tokenFile : String) : Args :=
  ⟨asName, tokenFile, .await none none none⟩

theorem prepare_awaitArgs {env : Surroundings} {tokenFile raw : String}
    (hfile : env.readFile tokenFile = .ok raw) (asName : String) :
    prepare S (awaitArgs asName tokenFile) env =
      .ok ⟨asName, trimEnd raw, .await none none none⟩ := by
  simp [prepare, assemble, readToken, awaitArgs, hfile, Except.bind, Except.map]

/-! ## The hello at the server -/

section Hello

variable (L : Libs) (S : SerdeJson) (roster : Roster) (inv : Invocation)

/-- What the server makes of the line the client writes first, in whatever chunks it arrives and
whatever follows it. -/
def HelloOutcome (P : Pc × List Obs → Prop) : Prop :=
  ∃ bytes, startWrite S (.hello inv.name inv.token) .writingHello = .writingHello bytes ∧
    ∀ capacity (r : Reader capacity) now c peer, bytes <+: r.stream →
      P (onHelloLine (L.withSerde S) roster now c peer (readLineBounded r).1)

/-- The hello passes the roster check. -/
def PassesCheck : Prop :=
  HelloOutcome L S roster inv fun next => next.1 = .replying .ok (.readVerb inv.name)

/-- The hello fails, and the connection is given up. -/
def FailsCheck : Prop :=
  HelloOutcome L S roster inv fun next => next.1.Refusing

end Hello

/-- The hello line is within the server's cap. -/
def HelloFits (F : Floats) (name token : String) : Prop :=
  ((ClientLine.hello name token).bytes F).length ≤ maxLineBytes + 1

instance (name token : String) : Decidable (HelloFits F name token) :=
  inferInstanceAs (Decidable (_ ≤ _))

section Check

variable {L : Libs} {roster : Roster} {inv : Invocation} {now : DateTime} {c : ConnId} {peer : String}

/-- The server reads the hello line that the client has written. -/
theorem onHelloLine_written (hS : S.Derived F formatTs) (L : Libs) (roster : Roster) (now : DateTime)
    (c : ConnId) (peer name token : String) {capacity : ℕ} {r : Reader capacity}
    (hr : (ClientLine.hello name token).bytes F <+: r.stream) :
    onHelloLine (L.withSerde S) roster now c peer (readLineBounded r).1 =
      if HelloFits F name token then handleHello (L.withSerde S) roster now c peer name token
      else (.replying (.error ("invalid hello line: " ++ ReadLineError.tooLong.display)) .finish, []) := by
  let text := String.ofList ((ClientLine.hello name token).encode F).text
  have hline : newline ∉ asBytes text := by
    rw [newline_mem_asBytes, String.toList_ofList]
    exact Json.newline_notMem_text _
  have hfits : HelloFits F name token ↔ ¬maxLineBytes < (asBytes text).length := by
    rw [HelloFits, ClientLine.bytes_eq, List.length_append, List.length_singleton, not_lt]
    exact Nat.add_le_add_iff_right
  obtain ⟨rest, hrest⟩ := hr
  have hstream : r.stream = asBytes text ++ newline :: rest := by
    rw [← hrest, ClientLine.bytes_eq]
    simp [text]
  rw [readLineBounded_fst, hstream, lineOf_append_newline _ hline, endOfLine]
  by_cases hcap : maxLineBytes < (asBytes text).length
  · rw [if_pos hcap, if_neg (fun h => hfits.1 h hcap)]
    rfl
  · have hdepth : ((ClientLine.hello name token).encode F).depth < recursionLimit := by
      rw [ClientLine.encode, Json.depth_ofVariant]
      simp [Json.depth, Json.depthMembers, Json.depthMember, recursionLimit]
    have hdecode := @ClientLine.decode_encode_plain F (.hello name token) (by simp)
    have hjson : fromJsonl (L.withSerde S).clientLineFromStr text = .ok (.hello name token) :=
      fromJsonl_of_read hS.clientLine_decodes
        (by rw [String.toList_ofList, Json.read_text hdepth]) hdecode
    rw [if_neg hcap, if_pos (hfits.2 hcap), fromUtf8_asBytes]
    simp only [onHelloLine, hjson]

/-- Some reader has just these bytes. -/
theorem exists_reader (bytes : List UInt8) : ∃ (capacity : ℕ) (r : Reader capacity),
    bytes <+: r.stream :=
  ⟨bytes.length, ⟨bytes, [], none, le_rfl, by simp, by simp⟩, by simp [Reader.stream]⟩

theorem startWrite_hello (hS : S.Derived F formatTs) (name token : String) :
    startWrite S (.hello name token) .writingHello =
      .writingHello ((ClientLine.hello name token).bytes F) := by
  rw [startWrite, toJsonl, hS.clientLine_encodes]
  rfl

theorem handleHello_cases (L : Libs) (roster : Roster) (now : DateTime) (c : ConnId)
    (peer name token : String) :
    roster.get name = some token ∧
        (handleHello L roster now c peer name token).1 = .replying .ok (.readVerb name) ∨
      roster.get name ≠ some token ∧
        (handleHello L roster now c peer name token).1.Refusing := by
  unfold handleHello
  cases hget : roster.get name with
  | none => exact Or.inr ⟨by simp, .authFailure _ _ _ _ _⟩
  | some expected =>
    by_cases heq : expected = token
    · exact Or.inl ⟨congrArg some heq, by simp [heq]⟩
    · refine Or.inr ⟨fun h => heq (Option.some.inj h), ?_⟩
      dsimp only
      rw [if_pos heq]
      exact .authFailure _ _ _ _ _

theorem passesCheck_of_get (hS : S.Derived F formatTs) (hfits : HelloFits F inv.name inv.token)
    (hget : roster.get inv.name = some inv.token) : PassesCheck L S roster inv := by
  refine ⟨_, startWrite_hello hS _ _, fun capacity r now c peer hr => ?_⟩
  rw [onHelloLine_written hS L roster now c peer inv.name inv.token hr, if_pos hfits]
  rcases handleHello_cases (L.withSerde S) roster now c peer inv.name inv.token with
    ⟨-, hok⟩ | ⟨hne, -⟩
  · exact hok
  · exact absurd hget hne

theorem failsCheck_of_not (hS : S.Derived F formatTs)
    (h : ¬(HelloFits F inv.name inv.token ∧ roster.get inv.name = some inv.token)) :
    FailsCheck L S roster inv := by
  refine ⟨_, startWrite_hello hS _ _, fun capacity r now c peer hr => ?_⟩
  rw [onHelloLine_written hS L roster now c peer inv.name inv.token hr]
  split_ifs with hfits
  · rcases handleHello_cases (L.withSerde S) roster now c peer inv.name inv.token with
      ⟨hget, -⟩ | ⟨-, hrefuse⟩
    · exact absurd ⟨hfits, hget⟩ h
    · exact hrefuse
  · exact .error _

/-- A hello that passes does not fail. -/
theorem PassesCheck.not_fails (h : PassesCheck L S roster inv) : ¬FailsCheck L S roster inv := by
  rintro ⟨bytes', hstart', hfails⟩
  obtain ⟨bytes, hstart, hpasses⟩ := h
  obtain rfl := ClientPc.writingHello.inj (hstart.symm.trans hstart')
  obtain ⟨capacity, r, hr⟩ := exists_reader bytes
  have hpass := hpasses capacity r 0 0 "" hr
  have hrefuse := hfails capacity r 0 0 "" hr
  dsimp only at hpass hrefuse
  rw [hpass] at hrefuse
  cases hrefuse

/-- The hello passes the check when the roster has the name with just that token, and the line
fits. -/
theorem passesCheck_iff (hS : S.Derived F formatTs) : PassesCheck L S roster inv ↔
    HelloFits F inv.name inv.token ∧ roster.get inv.name = some inv.token := by
  refine ⟨fun h => ?_, fun h => passesCheck_of_get hS h.1 h.2⟩
  by_contra hnot
  exact h.not_fails (failsCheck_of_not hS hnot)

theorem failsCheck_iff (hS : S.Derived F formatTs) : FailsCheck L S roster inv ↔
    ¬(HelloFits F inv.name inv.token ∧ roster.get inv.name = some inv.token) :=
  ⟨fun h hnot => (passesCheck_of_get hS hnot.1 hnot.2).not_fails h, failsCheck_of_not hS⟩

end Check

/-- The token file of an agent with the token `t` authenticates that agent and no other of the
roster exactly when `t` does not end in whitespace, its hello line is within the cap, and no
other agent with the same token has such a line. -/
theorem token_file_authenticates_iff (hS : S.Derived F formatTs) (L : Libs) {roster : Roster}
    {n t : String} (hget : roster.get n = some t) {env : Surroundings} {tokenFile : String}
    (hfile : env.readFile tokenFile = .ok t ∨ env.readFile tokenFile = .ok (t ++ "
")) :
    ((∀ args inv, args.asName = n → args.tokenFile = tokenFile → prepare S args env = .ok inv →
        PassesCheck L S roster inv) ∧
      ∀ m, m ≠ n → roster.get m ≠ none → ∀ args inv, args.asName = m →
        args.tokenFile = tokenFile → prepare S args env = .ok inv → FailsCheck L S roster inv) ↔
    ¬EndsBlank t ∧ HelloFits F n t ∧
      ∀ m, m ≠ n → roster.get m = some t → ¬HelloFits F m t := by
  obtain ⟨raw, hraw, htrim⟩ : ∃ raw, env.readFile tokenFile = .ok raw ∧ trimEnd raw = trimEnd t := by
    rcases hfile with hfile | hfile
    · exact ⟨t, hfile, rfl⟩
    · exact ⟨_, hfile, trimEnd_newline t⟩
  have hprepare : ∀ m, prepare S (awaitArgs m tokenFile) env =
      .ok ⟨m, trimEnd t, .await none none none⟩ := fun m => by
    rw [prepare_awaitArgs hraw, htrim]
  constructor
  · rintro ⟨hpasses, hfails⟩
    obtain ⟨hfits, htoken⟩ := (passesCheck_iff hS).1 (hpasses _ _ rfl rfl (hprepare n))
    have hself : trimEnd t = t := Option.some.inj (htoken.symm.trans hget)
    refine ⟨trimEnd_eq_self_iff.1 hself, hself ▸ hfits, fun m hm hsame hmfits => ?_⟩
    refine (failsCheck_iff hS).1 (hfails m hm (by simp [hsame]) _ _ rfl rfl (hprepare m)) ?_
    rw [hself]
    exact ⟨hmfits, hsame⟩
  · rintro ⟨hblank, hfits, hothers⟩
    have hself := trimEnd_eq_self_iff.2 hblank
    refine ⟨fun args inv hname hpath hinv => ?_, fun m hm _ args inv hname hpath hinv => ?_⟩
    · obtain ⟨hn, ht⟩ := eq_of_prepare hinv (hpath ▸ hraw)
      rw [passesCheck_iff hS, hn, ht, hname, htrim, hself]
      exact ⟨hfits, hget⟩
    · obtain ⟨hn, ht⟩ := eq_of_prepare hinv (hpath ▸ hraw)
      rw [failsCheck_iff hS, hn, ht, hname, htrim, hself]
      exact fun h => hothers m hm h.2 h.1

/-- The surroundings of a client with one token file. -/
def tokenFileOf (raw : String) : Surroundings where
  readFile _ := .ok raw
  stdin := .ok ""
  uuid := "u1"
  ts := epoch

theorem token_file_authenticates_alice :
    (∀ args inv, args.asName = "alice" → args.tokenFile = "alice.token" →
      prepare sampleSerde args (tokenFileOf "a-token\n") = .ok inv →
      PassesCheck sampleLibs sampleSerde sampleRoster inv) ∧
    ∀ m, m ≠ "alice" → sampleRoster.get m ≠ none → ∀ args inv, args.asName = m →
      args.tokenFile = "alice.token" → prepare sampleSerde args (tokenFileOf "a-token\n") = .ok inv →
      FailsCheck sampleLibs sampleSerde sampleRoster inv := by
  have hS : sampleSerde.Derived noFloats fun _ => epoch := SerdeJson.derived_ofDerives _ _
  refine (token_file_authenticates_iff hS sampleLibs (t := "a-token") (by decide)
    (Or.inr rfl)).2 ⟨?_, by decide +kernel, fun m hm hsame => ?_⟩
  · rw [← trimEnd_eq_self_iff]
    decide
  · have hmem := Roster.mem_of_get hsame
    simp only [sampleRoster, List.mem_cons, Prod.mk.injEq, List.not_mem_nil, or_false] at hmem
    rcases hmem with ⟨rfl, -⟩ | ⟨-, htoken⟩
    · exact absurd rfl hm
    · exact absurd htoken (by decide)

/-- A roster whose two tokens differ by a blank at the end. -/
def blankRoster : Roster where
  agents := [("alice", "token "), ("bob", "token")]
  nodup := by decide

/-- `load` accepts it, and `alice`'s token file authenticates `bob` and not `alice`. -/
theorem exists_confused_tokens : ∃ alice bob,
    Roster.load (fun _ => .ok "[agents]\nalice = \"token \"\nbob = \"token\"\n")
      (fun _ => .ok blankRoster) "roster.toml" = .ok blankRoster ∧
    blankRoster.get "alice" = some "token " ∧ blankRoster.get "bob" = some "token" ∧
    prepare sampleSerde (awaitArgs "alice" "alice.token") (tokenFileOf "token \n") = .ok alice ∧
    FailsCheck sampleLibs sampleSerde blankRoster alice ∧
    prepare sampleSerde (awaitArgs "bob" "alice.token") (tokenFileOf "token \n") = .ok bob ∧
    PassesCheck sampleLibs sampleSerde blankRoster bob := by
  have hS : sampleSerde.Derived noFloats fun _ => epoch := SerdeJson.derived_ofDerives _ _
  refine ⟨_, _, ?_, by decide, by decide, prepare_awaitArgs rfl "alice", ?_,
    prepare_awaitArgs rfl "bob", ?_⟩
  · simp [Roster.load, blankRoster, Roster.checkEntries, hubName]
  · rw [failsCheck_iff hS]
    decide +kernel
  · rw [passesCheck_iff hS]
    decide +kernel

end AgentHub
