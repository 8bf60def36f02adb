import AdmissionCache.Settings.Service
import AdmissionCache.Yaml.Value

namespace AdmissionCache

/-- Where metrics are sent, and what their names start with. -/
structure MetricsSettings where
  host : String
  portNumber : Nat
  namePrefix : String := "gatekeeper"
  deriving DecidableEq, Repr

/-- Which log lines are written, and where errors are reported. -/
structure LoggingSettings where
  level : String := "info"
  dsn : Option String := none
  deriving DecidableEq, Repr

/-- The settings of the gateway: those of the service, and where metrics and log lines go. -/
structure GatewaySettings where
  service : Settings := {}
  metrics : Option MetricsSettings := none
  logging : Option LoggingSettings := none
  deriving DecidableEq, Repr

namespace Yaml.Node

/-- The node itself, or the one that it stands for. -/
def target : Node → Node
  | .alias n => n
  | n => n

/-- The text of a scalar, whatever it stands for. -/
def readText (n : Node) : Except ReadFault String :=
  match n.target with
  | .scalar _ _ s => .ok s
  | _ => .error .malformed

/-- A natural number below `bound`, from a plain scalar or a literal block with the tag
of integers. -/
def readNat (bound : Nat) (n : Node) : Except ReadFault Nat :=
  match n.target with
  | .scalar tag style s =>
    if style = .plain || style = .literal && tag = some (Value.coreTag "int") then
      match Plain.natural? s.toList with
      | some k => if k < bound then .ok k else .error .malformed
      | none => .error .malformed
    else .error .malformed
  | _ => .error .malformed

/-- An empty plain scalar and the spellings of null stand for an absent value. -/
def readOption {α : Type} (read : Node → Except ReadFault α) (n : Node) :
    Except ReadFault (Option α) :=
  match n.target with
  | .scalar tag .plain s =>
    if tag = some (Value.coreTag "null") then
      if Plain.isNull s then .ok none else .error .malformed
    else if tag.isNone && (s.isEmpty || Plain.isNull s) then .ok none
    else (read n).map some
  | _ => (read n).map some

/-- The name of a member, which any scalar gives. -/
def memberName (n : Node) : MemberName :=
  match n.target with
  | .scalar _ _ s => .text s
  | _ => .nameless

/-- Reads a record from a mapping. -/
def readRecord {σ : Type} (fields : List (Field Node σ)) (record : σ) (n : Node) :
    Except ReadFault σ :=
  match n.target with
  | .mapping _ pairs => readMembers fields record (pairs.map fun m => (m.1.memberName, m.2))
  | _ => .error .malformed

end Yaml.Node

open Yaml (Node)

def MetricsSettings.fields : List (Field Node MetricsSettings) :=
  [ ⟨"statsd_host", .required, fun n r => do .ok { r with host := ← n.readText }⟩,
    ⟨"statsd_port", .required, fun n r => do .ok { r with portNumber := ← n.readNat (1 <<< 16) }⟩,
    ⟨"prefix", .optional, fun n r => do .ok { r with namePrefix := ← n.readText }⟩ ]

def LoggingSettings.fields : List (Field Node LoggingSettings) :=
  [ ⟨"level", .optional, fun n r => do .ok { r with level := ← n.readText }⟩,
    ⟨"sentry_dsn", .optional, fun n r => do .ok { r with dsn := ← n.readOption Node.readText }⟩ ]

def MetricsSettings.read (n : Node) : Except ReadFault MetricsSettings :=
  n.readRecord MetricsSettings.fields { host := "", portNumber := 0 }

def LoggingSettings.read (n : Node) : Except ReadFault LoggingSettings :=
  n.readRecord LoggingSettings.fields {}

namespace GatewaySettings

/-- Members read so far. The sections of the service are kept as values until all members
are known; `follows` is how often an alias may still be followed. -/
structure Collected where
  metrics : Option (Option MetricsSettings) := none
  logging : Option (Option LoggingSettings) := none
  sections : List (MemberName × Yaml.Value) := []
  follows : Nat

/-- Reads one member. Metrics and logging may occur once. -/
def collectMember (c : Collected) (name : MemberName) (n : Node) : Except ReadFault Collected :=
  match name with
  | .text "metrics" =>
    if c.metrics.isSome then .error .malformed
    else do .ok { c with metrics := some (← n.readOption MetricsSettings.read) }
  | .text "logging" =>
    if c.logging.isSome then .error .malformed
    else do .ok { c with logging := some (← n.readOption LoggingSettings.read) }
  | .text _ =>
    match Yaml.Value.ofNode 1 c.follows n with
    | some (value, follows) => .ok { c with sections := c.sections ++ [(name, value)], follows }
    | none => .error .malformed
  | _ => .error .malformed

def collect : List (Node × Node) → Collected → Except ReadFault Collected
  | [], c => .ok c
  | (k, v) :: rest, c => do
    let c ← collectMember c k.memberName v
    collect rest c

/-- Reads the settings from the members of the document. -/
def readPairs (follows : Nat) (pairs : List (Node × Node)) : Except ReadFault GatewaySettings := do
  let c ← collect pairs { follows }
  let service ← readMembers Settings.fields {} c.sections
  .ok ⟨service, c.metrics.join, c.logging.join⟩

/-- How often aliases may be followed for every part of a document. -/
def followsPerPart : Nat := 100

/-- Reads the settings from a document. An empty one stands for no members. -/
def read (d : Yaml.Document) : Except ReadFault GatewaySettings :=
  match d.root.map Node.target with
  | none => .ok {}
  | some (.scalar _ .plain "") => .ok {}
  | some (.mapping _ pairs) => readPairs (followsPerPart * d.parts) pairs
  | some _ => .error .malformed

/-- Reads the settings from a text, which must be a single document. -/
def ofText (text : String) : Except ReadFault GatewaySettings :=
  match Yaml.Document.ofText? text with
  | none => .error .malformed
  | some d => do
    let s ← read d
    if d.alone then .ok s else .error .malformed

end GatewaySettings

end AdmissionCache
