import AdmissionCache.CommandLine.Invocation
import AdmissionCache.CommandLine.LogFilter
import AdmissionCache.Settings.Gateway
import AdmissionCache.Settings.Sources

namespace AdmissionCache

inductive FileState
  | file (text : String)
  | missing
  | belowFile
  | directory
  deriving DecidableEq, Repr

/-- What the program finds on the machine: files, the log filter of its environment, the
host names that have an address, and the places at which it can listen. -/
structure Machine where
  file : String → FileState
  logFilter : Option String
  resolves : String → Bool
  canListen : Listener → Bool

namespace Machine

/-- Whether a host name has an address without any service that resolves names. -/
def resolvesAlone (host : String) : Bool :=
  host == "localhost" || (Host.ipv6? host.toList).isSome ||
    host.toList.getLast? != some '.' && (Host.ipv4? host.toList).isSome

/-- Whether an address is one of every machine. -/
def isLocal (host : String) : Bool :=
  host == "localhost" || host == "[::1]" || host == "[::]" || host == "::1" || host == "::" ||
    match Host.ipv4? host.toList with
    | some n => host.toList.getLast? != some '.' && (n == 0 || n >>> 24 == 127)
    | none => false

/-- Whether a service can listen on a machine on which the given numbers are taken. -/
def canListenBeside (taken : List Nat) (l : Listener) : Bool :=
  isLocal l.host && !taken.contains l.portNumber

end Machine

inductive MetricsFault
  | noHost
  | portZero
  | unresolvedHost
  deriving DecidableEq, Repr

inductive StartFault
  | noFile (state : FileState)
  | unreadable (fault : ReadFault)
  | invalid (fault : SettingsFault)
  | logLevel
  | badDsn
  | metrics (fault : MetricsFault)
  | source (fault : SourceFault)
  | listener
  deriving DecidableEq, Repr

/-- How the program ends. It breaks off with code 101 where it cannot report a fault. -/
structure Exit where
  code : Nat
  out : String := ""
  err : String := ""
  deriving DecidableEq, Repr

namespace StartFault

def message : StartFault → String
  | .noFile .belowFile => "could not load config from file: Not a directory (os error 20)"
  | .noFile _ => "could not load config from file: No such file or directory (os error 2)"
  | .unreadable fault =>
    match fault.message? with
    | some message => "could not parse config: " ++ message
    | none => "could not parse config"
  | .invalid fault => "invalid config: " ++ fault.message
  | .logLevel => "invalid log level"
  | .badDsn => "invalid value for DSN"
  | .metrics _ => "could not install metrics: could not build statsd exporter"
  | .source fault => fault.message
  | .listener => "IO error"

def breaksOff : StartFault → Bool
  | .unreadable .durationOverflow => true
  | .badDsn => true
  | _ => false

def exit (f : StartFault) : Exit :=
  if f.breaksOff then ⟨101, "", f.message ++ "\n"⟩ else ⟨1, "", "error: " ++ f.message ++ "\n"⟩

end StartFault

/-- Loads and checks the settings in a file. -/
def GatewaySettings.load (m : Machine) (path : String) : Except StartFault GatewaySettings :=
  match m.file path with
  | .file text =>
    match GatewaySettings.ofText text with
    | .error fault => .error (.unreadable fault)
    | .ok s =>
      match s.service.fault? with
      | some fault => .error (.invalid fault)
      | none => .ok s
  | .directory => .error (.unreadable .malformed)
  | state => .error (.noFile state)

/-- Whether a URL names a place for error reports: it has a user name, a host, and a path
that names a project. -/
def Url.takesReports (u : Url) : Bool :=
  (u.scheme == "http" || u.scheme == "https") && !u.username.isEmpty && u.host.isSome &&
    u.pathText.toList.any (· ≠ '/')

namespace LoggingSettings

/-- The filter in force: that of the environment if it is well formed, else the level of
the settings. -/
def filterIsValid (l : LoggingSettings) (environment : Option String) : Bool :=
  environment.any LogFilter.isValid || LogFilter.isValid l.level

/-- An empty address for error reports means none. -/
def dsnIsValid (l : LoggingSettings) : Bool :=
  match l.dsn with
  | none => true
  | some dsn => dsn.isEmpty || (Url.parse? dsn).any (·.takesReports)

end LoggingSettings

def MetricsSettings.fault? (m : Machine) (s : MetricsSettings) : Option MetricsFault :=
  if (Text.trim s.host).isEmpty then some .noHost
  else if s.portNumber = 0 then some .portZero
  else if !m.resolves s.host then some .unresolvedHost
  else none

/-- Goes through the steps of a start, up to the first fault. -/
def GatewaySettings.start (m : Machine) (s : GatewaySettings) : Except StartFault Unit :=
  let logging := s.logging.getD {}
  if !logging.filterIsValid m.logFilter then .error .logLevel
  else if !logging.dsnIsValid then .error .badDsn
  else
    match s.metrics.bind (·.fault? m) with
    | some fault => .error (.metrics fault)
    | none =>
      match s.service.sources false with
      | .error fault => .error (.source fault)
      | .ok _ => if m.canListen s.service.listener then .ok () else .error .listener

/-- The program. There is no exit if the service is ready for requests. -/
def Invocation.exit? (m : Machine) : Invocation → Option Exit
  | .misuse => some ⟨2, "", "error: wrong usage\n\n" ++ HelpTopic.program.text⟩
  | .version => some ⟨0, versionText, ""⟩
  | .help topic => some ⟨0, topic.text, ""⟩
  | .command .checkConfig path =>
    match GatewaySettings.load m path with
    | .error fault => some fault.exit
    | .ok _ => some ⟨0, path ++ ": ok\n", ""⟩
  | .command .run path =>
    match GatewaySettings.load m path with
    | .error fault => some fault.exit
    | .ok s =>
      match s.start m with
      | .error fault => some fault.exit
      | .ok _ => none

end AdmissionCache
