import AgentHub.Envelope

/-!
# The roster

The hub's `name → token` map and its loader (`roster.rs`). The file system and the TOML
parser are parameters. `load` walks the entries in the map's iteration order, which
`agents` fixes, and stops at the first unusable one.

A roster `load` accepts has no blank name, no blank token, and does not define `hub`
(`Accepted`), so no hello authenticates as the hub (`Accepted.ne_hubName`).
-/

namespace AgentHub

/-- The parsed roster, `HashMap<String, String>`, in its iteration order. -/
structure Roster where
  agents : List (String × String)
  nodup : (agents.map Prod.fst).Nodup

/-- `HashMap::get` : the token of an agent. -/
def Roster.get (r : Roster) (name : String) : Option String :=
  (r.agents.find? fun a => a.1 = name).map Prod.snd

/-- Why roster loading failed, with the file's path. -/
inductive RosterError
  | read (path source : String)
  | parse (path source : String)
  | empty (path : String)
  | blankEntry (path name : String)
  | reservedName (path name : String)
  deriving DecidableEq, Repr

/-- The error's text. `debug` renders a string as `{:?}` does. -/
def RosterError.display (debug : String → String) : RosterError → String
  | .read path source => "cannot read roster file " ++ path ++ ": " ++ source
  | .parse path source => "invalid roster file " ++ path ++ ": " ++ source
  | .empty path =>
    "roster file " ++ path ++ " has an empty [agents] table; at least one agent is required"
  | .blankEntry path name =>
    "roster file " ++ path ++ " has an entry with an empty name or empty token (name: " ++
      debug name ++ ")"
  | .reservedName path name =>
    "roster file " ++ path ++ " defines reserved agent name " ++ debug name ++
      "; it is the hub's own identity"

namespace Roster

/-- The loop over the entries. -/
def checkEntries (path : String) : List (String × String) → Except RosterError Unit
  | [] => .ok ()
  | (name, token) :: rest =>
    if name = "" ∨ token = "" then .error (.blankEntry path name)
    else if name = hubName then .error (.reservedName path name)
    else checkEntries path rest

/-- Reads, parses and checks the roster file. `readToString` is the file system, `fromStr`
the TOML parser for `Roster`. -/
def load (readToString : String → Except String String)
    (fromStr : String → Except String Roster) (path : String) : Except RosterError Roster :=
  match readToString path with
  | .error source => .error (.read path source)
  | .ok text =>
    match fromStr text with
    | .error source => .error (.parse path source)
    | .ok roster =>
      if roster.agents = [] then .error (.empty path)
      else match checkEntries path roster.agents with
        | .error e => .error e
        | .ok () => .ok roster

/-- What `load` has checked of a roster. -/
structure Accepted (r : Roster) : Prop where
  ne_nil : r.agents ≠ []
  name_ne : ∀ a ∈ r.agents, a.1 ≠ ""
  token_ne : ∀ a ∈ r.agents, a.2 ≠ ""
  ne_hub : ∀ a ∈ r.agents, a.1 ≠ hubName

theorem checkEntries_ok {path : String} :
    ∀ {agents : List (String × String)}, checkEntries path agents = .ok () →
      ∀ a ∈ agents, a.1 ≠ "" ∧ a.2 ≠ "" ∧ a.1 ≠ hubName
  | [], _, a, ha => by simp at ha
  | (name, token) :: rest, h, a, ha => by
    unfold checkEntries at h
    split_ifs at h with hblank hhub
    rcases List.mem_cons.1 ha with rfl | ha
    · exact ⟨fun hn => hblank (Or.inl hn), fun ht => hblank (Or.inr ht), hhub⟩
    · exact checkEntries_ok h a ha

/-- A loaded roster is one the TOML parser returned, and it passed every check. -/
theorem accepted_of_load {readToString : String → Except String String}
    {fromStr : String → Except String Roster} {path : String} {r : Roster}
    (h : load readToString fromStr path = .ok r) : r.Accepted := by
  unfold load at h
  split at h
  · cases h
  split at h
  · cases h
  split_ifs at h with hnil
  split at h
  · cases h
  · rename_i hcheck
    cases h
    have hall := checkEntries_ok hcheck
    exact ⟨hnil, fun a ha => (hall a ha).1, fun a ha => (hall a ha).2.1,
      fun a ha => (hall a ha).2.2⟩

theorem mem_of_get {r : Roster} {name token : String} (h : r.get name = some token) :
    (name, token) ∈ r.agents := by
  obtain ⟨a, ha, rfl⟩ := Option.map_eq_some_iff.mp h
  have hname : a.1 = name := by simpa using List.find?_some ha
  rw [← hname]
  exact List.mem_of_find?_eq_some ha

/-- No entry of an accepted roster is the hub's own identity. -/
theorem Accepted.ne_hubName {r : Roster} (hr : r.Accepted) {name token : String}
    (h : r.get name = some token) : name ≠ hubName :=
  hr.ne_hub _ (mem_of_get h)

end Roster

end AgentHub
