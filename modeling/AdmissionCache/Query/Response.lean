import AdmissionCache.Project.Config
import AdmissionCache.Record

namespace AdmissionCache

inductive GlobalStatus
  | ready
  | pending
  deriving DecidableEq, Repr

def GlobalStatus.name : GlobalStatus → String
  | .ready => "ready"
  | .pending => "pending"

def GlobalStatus.ofName? (name : String) : Option GlobalStatus :=
  if name = "ready" then some .ready else if name = "pending" then some .pending else none

/-- A response. A key mapped to no document is the key of a deleted project. -/
structure ConfigsResponse where
  configs : KeyMap (Option Json) := ∅
  pending : List ProjectKey := []
  unchanged : List ProjectKey := []
  global : Option Json := none
  globalStatus : Option GlobalStatus := none

/-- What a response says about one key. -/
inductive KeyOutcome
  | config (config : ProjectConfig)
  | unchanged
  | notFound
  | pending
  | invalid (fault : DocumentFault)
  deriving Repr

namespace ConfigsResponse

def listMember (name : String) (keys : List ProjectKey) : List (String × Json) :=
  if keys.isEmpty then [] else [(name, .array (keys.map .string))]

/-- The wire form. Empty lists and absent values are left out. -/
def toJson (r : ConfigsResponse) : Json :=
  .ofMembers ([("configs", .object (r.configs.toList.map fun e => (e.1, e.2.getD .null)))] ++
    listMember "pending" r.pending ++ listMember "unchanged" r.unchanged ++
    (r.global.map fun g => ("global", g)).toList ++
    (r.globalStatus.map fun s => ("global_status", .string s.name)).toList)

section Reading

variable {β : Type} [Readable β] [HoldsDocuments β]

/-- A document, or nothing for `null`. -/
def readDocument? (b : β) : Except ReadFault (Option Json) := do
  match ← HoldsDocuments.document b with
  | .null => .ok none
  | document => .ok (some document)

/-- A status is written as its name, or as a mapping from its name to `null`. -/
def readStatus (b : β) : Except ReadFault GlobalStatus := do
  let name ←
    match ← Readable.view b with
    | .text name => .ok name
    | .members [(.text name, value)] => do
      match ← Readable.view value with
      | .null => .ok name
      | _ => .error .malformed
    | _ => .error .malformed
  match GlobalStatus.ofName? name with
  | some status => .ok status
  | none => .error .malformed

/-- A mapping from keys to documents; of two entries for one key the later counts. -/
def readConfigs (b : β) : Except ReadFault (KeyMap (Option Json)) := do
  match ← Readable.view b with
  | .members members => (readEntries readDocument? members).map .ofList
  | _ => .error .malformed

/-- The fields of the wire form in order. -/
def fields : List (Field β ConfigsResponse) :=
  [ ⟨"configs", .optional, fun b r => do .ok { r with configs := ← readConfigs b }⟩,
    ⟨"pending", .optional, fun b r => do .ok { r with pending := ← readList readText b }⟩,
    ⟨"unchanged", .optional, fun b r => do .ok { r with unchanged := ← readList readText b }⟩,
    ⟨"global", .optional, fun b r => do .ok { r with global := ← readDocument? b }⟩,
    ⟨"global_status", .optional, fun b r => do
      .ok { r with globalStatus := ← readOption readStatus b }⟩ ]

def read (b : β) : Except ReadFault ConfigsResponse := readRecord fields {} b

end Reading

/-- Reads a response from its text. -/
def ofBytes? (bytes : List UInt8) : Option ConfigsResponse :=
  (Written.ofBytes? bytes).bind fun w => (read (Nested.mk 0 w)).toOption

/-- What is said about `key`, given the documents that are still there to take. -/
def outcome (r : ConfigsResponse) (configs : KeyMap (Option Json)) (key : ProjectKey) : KeyOutcome :=
  match configs.get? key with
  | some (some document) =>
    match ProjectConfig.ofJson document with
    | .ok config => .config config
    | .error fault => .invalid fault
  | some none => .notFound
  | none =>
    if r.unchanged.contains key then .unchanged
    else if r.pending.contains key then .pending
    else .notFound

/-- One step of `outcomes`: the key takes its document. -/
def takeOutcome (r : ConfigsResponse) (state : KeyMap (Option Json) × KeyMap KeyOutcome)
    (key : ProjectKey) : KeyMap (Option Json) × KeyMap KeyOutcome :=
  (state.1.erase key, state.2.insert key (r.outcome state.1 key))

/-- What is said about every requested key. A key that is requested twice takes its
document the first time, and what is left over then counts. -/
def outcomes (r : ConfigsResponse) (requested : List ProjectKey) : KeyMap KeyOutcome :=
  (requested.foldl r.takeOutcome (r.configs, ∅)).2

end ConfigsResponse

end AdmissionCache
