import AdmissionCache.Freshness
import AdmissionCache.Query.RetryPlan
import AdmissionCache.Record
import AdmissionCache.Url.Address

namespace AdmissionCache

/-- Reads a URL from its text. -/
def readUrl {β : Type} [Readable β] (b : β) : Except ReadFault Url := do
  match Url.parse? (← readText b) with
  | some url => .ok url
  | none => .error .malformed

structure Listener where
  host : String := "127.0.0.1"
  portNumber : Nat := 3000
  deriving DecidableEq, Repr

/-- How the authority is queried. `timeout` bounds one attempt. -/
structure AuthoritySettings where
  url : Url :=
    { scheme := "http", host := some (.ipv4 (127 <<< 24 + 1)), portNumber := some 8000,
      path := .segments [""] }
  plan : RetryPlan := {}
  timeout : Duration := .ofSecs 5
  deriving DecidableEq, Repr

/-- The periods of the cache and of the tasks around it. -/
structure CacheSettings where
  projectExpiry : Duration := .ofSecs 300
  projectGracePeriod : Duration := .ofSecs 120
  missExpiry : Duration := .ofSecs 60
  batchInterval : Duration := .ofMillis 100
  batchSize : Nat := 500
  fileInterval : Duration := .ofSecs 10
  globalInterval : Duration := .ofSecs 10
  evictionInterval : Duration := .ofSecs 60
  deriving DecidableEq, Repr

structure Limits where
  queryTimeout : Duration := .ofSecs 30
  deriving DecidableEq, Repr

/-- Where the shared store is and what its keys start with. -/
structure SharedSettings where
  url : String
  keyPrefix : String := "relayconfig"
  deriving DecidableEq, Repr

structure OverrideSettings where
  path : String
  deriving DecidableEq, Repr

/-- The policy that a cache follows. -/
def CacheSettings.policy (c : CacheSettings) : Policy :=
  ⟨c.projectExpiry, c.projectGracePeriod, c.missExpiry⟩

section Reading

variable {β : Type} [Readable β]

def Listener.fields : List (Field β Listener) :=
  [ ⟨"host", .optional, fun b r => do .ok { r with host := ← readText b }⟩,
    ⟨"port", .optional, fun b r => do .ok { r with portNumber := ← readNat (1 <<< 16) b }⟩ ]

def AuthoritySettings.fields : List (Field β AuthoritySettings) :=
  [ ⟨"url", .optional, fun b r => do .ok { r with url := ← readUrl b }⟩,
    ⟨"initial_backoff", .optional, fun b r => do
      .ok { r with plan := { r.plan with initial := ← readDuration b } }⟩,
    ⟨"backoff_multiplier", .optional, fun b r => do
      .ok { r with plan := { r.plan with multiplier := ← readNumber b } }⟩,
    ⟨"max_backoff", .optional, fun b r => do
      .ok { r with plan := { r.plan with maximum := ← readDuration b } }⟩,
    ⟨"timeout", .optional, fun b r => do .ok { r with timeout := ← readDuration b }⟩ ]

def CacheSettings.fields : List (Field β CacheSettings) :=
  [ ⟨"project_expiry", .optional, fun b r => do .ok { r with projectExpiry := ← readDuration b }⟩,
    ⟨"project_grace_period", .optional, fun b r => do
      .ok { r with projectGracePeriod := ← readDuration b }⟩,
    ⟨"miss_expiry", .optional, fun b r => do .ok { r with missExpiry := ← readDuration b }⟩,
    ⟨"batch_interval_ms", .optional, fun b r => do .ok { r with batchInterval := ← readMillis b }⟩,
    ⟨"batch_size", .optional, fun b r => do .ok { r with batchSize := ← readNat (1 <<< 64) b }⟩,
    ⟨"file_interval", .optional, fun b r => do .ok { r with fileInterval := ← readDuration b }⟩,
    ⟨"global_config_interval", .optional, fun b r => do
      .ok { r with globalInterval := ← readDuration b }⟩,
    ⟨"eviction_interval", .optional, fun b r => do
      .ok { r with evictionInterval := ← readDuration b }⟩ ]

def Limits.fields : List (Field β Limits) :=
  [ ⟨"query_timeout", .optional, fun b r => do .ok { r with queryTimeout := ← readDuration b }⟩ ]

def SharedSettings.fields : List (Field β SharedSettings) :=
  [ ⟨"url", .required, fun b r => do .ok { r with url := ← readText b }⟩,
    ⟨"prefix", .optional, fun b r => do .ok { r with keyPrefix := ← readText b }⟩ ]

def OverrideSettings.fields : List (Field β OverrideSettings) :=
  [ ⟨"path", .required, fun b r => do .ok { r with path := ← readText b }⟩ ]

def Listener.read (b : β) : Except ReadFault Listener := readRecord Listener.fields {} b

def AuthoritySettings.read (b : β) : Except ReadFault AuthoritySettings :=
  readRecord AuthoritySettings.fields {} b

def CacheSettings.read (b : β) : Except ReadFault CacheSettings :=
  readRecord CacheSettings.fields {} b

def Limits.read (b : β) : Except ReadFault Limits := readRecord Limits.fields {} b

def SharedSettings.read (b : β) : Except ReadFault SharedSettings :=
  readRecord SharedSettings.fields { url := "" } b

def OverrideSettings.read (b : β) : Except ReadFault OverrideSettings :=
  readRecord OverrideSettings.fields { path := "" } b

end Reading

end AdmissionCache
