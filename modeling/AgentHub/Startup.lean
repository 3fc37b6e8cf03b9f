import AgentHub.ServiceLog

/-!
# Startup

`main` of the server up to its accept loop : the strict configuration (`config.rs`), the
service log (`service_log::init`), the roster, the audit log and the listener, in that order.
The file system, the TOML parser, the appender and the socket are the parameters of a start
(`System`), and `disk` are the files it finds. Until the service log is there an error goes to
stderr alone, and from then on to both.
-/

namespace AgentHub

/-! ## Paths -/

/-- A component of a path, as `Path::components` yields them. -/
inductive Component
  | rootDir
  | curDir
  | parentDir
  | normal (name : String)
  deriving DecidableEq, Repr

namespace Path

/-- The component that the text between two separators is. -/
def component : String → Option Component
  | "" | "." => none
  | ".." => some .parentDir
  | name => some (.normal name)

/-- `Path::components` : repeated separators and `.` vanish, but for a `.` at the start. -/
def components (path : String) : List Component :=
  match path.toList.splitOn '/' with
  | [] => []
  | first :: rest =>
    let body := (first :: rest).filterMap fun part => component (String.ofList part)
    if first = [] ∧ rest ≠ [] then .rootDir :: body
    else if first = ['.'] then .curDir :: body
    else body

/-- `Path::file_name`. -/
def fileName (path : String) : Option String :=
  match (components path).getLast? with
  | some (.normal name) => some name
  | _ => none

/-- `Path::parent`. -/
def parent (path : String) : Option (List Component) :=
  match (components path).getLast? with
  | none | some .rootDir => none
  | some _ => some (components path).dropLast

end Path

/-! ## Configuration -/

/-- The parsed configuration file. -/
structure Config where
  port : UInt16
  auditLogPath : String
  serviceLogPath : String
  rosterPath : String
  deriving DecidableEq, Repr

/-- Why configuration loading failed, with the file's path. -/
inductive ConfigError
  | read (path source : String)
  | parse (path source : String)
  deriving DecidableEq, Repr

def ConfigError.display : ConfigError → String
  | .read path source => "cannot read config file " ++ path ++ ": " ++ source
  | .parse path source => "invalid config file " ++ path ++ ": " ++ source

/-- Reads and parses the configuration file. `readToString` is the file system, `fromStr` the
TOML parser for `Config`. -/
def Config.load (readToString : String → Except String String)
    (fromStr : String → Except String Config) (path : String) : Except ConfigError Config :=
  match readToString path with
  | .error source => .error (.read path source)
  | .ok text =>
    match fromStr text with
    | .error source => .error (.parse path source)
    | .ok config => .ok config

/-! ## The logs -/

/-- Why service-log initialization failed. -/
inductive ServiceLogError
  | invalidPath (path : String)
  | appender (path source : String)
  | subscriber (source : String)
  deriving DecidableEq, Repr

def ServiceLogError.display : ServiceLogError → String
  | .invalidPath path => "service log path " ++ path ++ " has no file name component"
  | .appender path source => "cannot open service log " ++ path ++ ": " ++ source
  | .subscriber source => "cannot install service logger: " ++ source

/-- What a start finds in the world around it. -/
structure System where
  /-- `std::fs::read_to_string`. -/
  readToString : String → Except String String
  /-- `toml::from_str` for `Config`. -/
  configFromStr : String → Except String Config
  /-- `toml::from_str` for `Roster`. -/
  rosterFromStr : String → Except String Roster
  /-- `RollingFileAppender::build` for a file of this name in this directory. -/
  build : List Component → String → Except String Unit
  /-- `SubscriberInitExt::try_init`. -/
  tryInit : Except String Unit
  /-- Whether the operating system opens this file for append, creating it if need be. -/
  openAppend : String → Except String Unit
  /-- `TcpListener::bind` on loopback. -/
  bind : UInt16 → Except String Unit
  /-- `{:?}` of a string. -/
  debugStr : String → String

namespace ServiceLog

variable (sys : System)

/-- The directory of the service log, `.` for a bare file name. -/
def directory (path : String) : List Component :=
  match Path.parent path with
  | some (c :: cs) => c :: cs
  | _ => [.curDir]

/-- `service_log::init`, up to what it installs. -/
def init (path : String) : Except ServiceLogError Unit :=
  match Path.fileName path with
  | none => .error (.invalidPath path)
  | some name =>
    match sys.build (directory path) name with
    | .error source => .error (.appender path source)
    | .ok () =>
      match sys.tryInit with
      | .error source => .error (.subscriber source)
      | .ok () => .ok ()

/-- The appender is given the file that is configured. -/
theorem directory_fileName {path name : String} (h : Path.fileName path = some name) :
    directory path ++ [.normal name] = Path.components path ∨
      directory path = [.curDir] ∧ Path.components path = [.normal name] := by
  unfold Path.fileName at h
  split at h
  · rename_i last hlast
    obtain rfl := Option.some.inj h
    obtain ⟨front, hfront⟩ := List.getLast?_eq_some_iff.1 hlast
    have hparent : Path.parent path = some front := by
      rw [Path.parent, hlast, hfront, List.dropLast_concat]
    cases front with
    | nil => exact Or.inr ⟨by rw [directory, hparent], by rw [hfront, List.nil_append]⟩
    | cons c cs => exact Or.inl (by rw [directory, hparent, hfront])
  · cases h

end ServiceLog

/-- The files there are, by their paths. -/
abbrev Disk := String → Option (List UInt8)

/-- `AuditLog::open` : a file that is not there is created. -/
def AuditLog.open (openAppend : String → Except String Unit) (disk : Disk) (path : String) :
    Except AuditError AuditLog :=
  match openAppend path with
  | .error source => .error (.open path source)
  | .ok () => .ok ⟨path, (disk path).getD []⟩

/-! ## The start -/

/-- What a start leaves behind. -/
structure Launch where
  stdout : List String
  stderr : List String
  /-- The records of the service log. -/
  records : List Record
  /-- The audit log, once it is open. -/
  audit : Option AuditLog
  /-- The roster of a hub that is ready. -/
  roster : Option Roster
  /-- `ExitCode::FAILURE`, or still running. -/
  exit : Option ℕ

section Main

open Record FieldValue

variable (sys : System) (disk : Disk) (configPath : String)

/-- The line on stdout before there is a service log. -/
def startingLine : String :=
  "starting agent-hub-server; config: " ++ configPath

/-- `fatal_pre_logger`. -/
def fatalPreLogger (stage error : String) : Launch where
  stdout := [startingLine configPath]
  stderr := ["fatal startup error (" ++ stage ++ "): " ++ error]
  records := []
  audit := none
  roster := none
  exit := some 1

/-- `fatal`, after the service log took `records`. -/
def fatal (records : List Record) (audit : Option AuditLog) (stage error : String) : Launch where
  stdout := [startingLine configPath]
  stderr := ["fatal startup error (" ++ stage ++ "): " ++ error]
  records := records ++
    [Record.error "fatal startup error" [("stage", text stage), ("error", text error)]]
  audit := audit
  roster := none
  exit := some 1

/-- `{:?}` of a list of strings. -/
def debugList (debug : String → String) (names : List String) : String :=
  "[" ++ String.intercalate ", " (names.map debug) ++ "]"

def configRecord (config : Config) : Record :=
  info "startup: config loaded, service log initialized"
    [("config_path", text configPath), ("port", number config.port.toNat),
      ("audit_log_path", text config.auditLogPath), ("roster_path", text config.rosterPath)]

/-- Names and their number; no token. -/
def rosterRecord (names : List String) : Record :=
  info "startup: roster loaded" [("agent_count", number names.length),
    ("agents", text (debugList sys.debugStr (names.mergeSort fun a b => decide (a ≤ b))))]

def auditRecord (config : Config) : Record :=
  info "startup: audit log open for append" [("audit_log_path", text config.auditLogPath)]

/-- `Ipv4Addr::LOCALHOST` with the port. -/
def bindAddr (config : Config) : String :=
  "127.0.0.1:" ++ toString config.port.toNat

def bindingRecord (config : Config) : Record :=
  info "startup: binding listener" [("bind_addr", text (bindAddr config))]

def readyRecord (config : Config) : Record :=
  info "startup: listener bound; hub ready" [("bind_addr", text (bindAddr config))]

/-- `main` up to its accept loop. -/
def main : Launch :=
  match Config.load sys.readToString sys.configFromStr configPath with
  | .error error => fatalPreLogger configPath "load config" error.display
  | .ok config =>
    match ServiceLog.init sys config.serviceLogPath with
    | .error error => fatalPreLogger configPath "initialize service log" error.display
    | .ok () =>
      let records := [configRecord configPath config]
      match Roster.load sys.readToString sys.rosterFromStr config.rosterPath with
      | .error error => fatal configPath records none "load roster" (error.display sys.debugStr)
      | .ok roster =>
        let records := records ++ [rosterRecord sys (roster.agents.map Prod.fst)]
        match AuditLog.open sys.openAppend disk config.auditLogPath with
        | .error error => fatal configPath records none "open audit log" error.display
        | .ok audit =>
          let records := records ++ [auditRecord config, bindingRecord config]
          match sys.bind config.port with
          | .error error => fatal configPath records (some audit) "bind listener" error
          | .ok () =>
            { stdout := [startingLine configPath]
              stderr := []
              records := records ++ [readyRecord config]
              audit := some audit
              roster := some roster
              exit := none }

end Main

end AgentHub
