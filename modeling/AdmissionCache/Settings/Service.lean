import AdmissionCache.Settings.Sections

namespace AdmissionCache

structure Settings where
  listener : Listener := {}
  authority : AuthoritySettings := {}
  cache : CacheSettings := {}
  limits : Limits := {}
  shared : Option SharedSettings := none
  overrides : Option OverrideSettings := none
  deriving DecidableEq, Repr

/-- Settings that have to be longer than nothing, apart from the project expiry. -/
inductive IntervalName
  | batch
  | file
  | global
  | eviction
  | attempt
  deriving DecidableEq, Repr

def IntervalName.text : IntervalName → String
  | .batch => "batch_interval_ms"
  | .file => "file_interval"
  | .global => "global_config_interval"
  | .eviction => "eviction_interval"
  | .attempt => "upstream.timeout"

inductive SettingsFault
  | portZero
  | expiryZero
  | batchSizeZero
  | intervalZero (interval : IntervalName)
  | multiplierTooSmall (multiplier : Binary64)
  | keyPrefixEmpty
  deriving DecidableEq, Repr

def SettingsFault.message : SettingsFault → String
  | .portZero => "Port cannot be 0"
  | .expiryZero => "project_expiry must be greater than 0"
  | .batchSizeZero => "batch_size must be greater than 0"
  | .intervalZero interval => interval.text ++ " must be greater than 0"
  | .multiplierTooSmall multiplier =>
    "backoff_multiplier must be greater than 1.0, got " ++ multiplier.plainText
  | .keyPrefixEmpty => "shared cache prefix cannot be empty"

namespace Settings

/-- The fields of the settings in order. -/
def fields {β : Type} [Readable β] : List (Field β Settings) :=
  [ ⟨"listener", .optional, fun b r => do .ok { r with listener := ← Listener.read b }⟩,
    ⟨"upstream", .optional, fun b r => do .ok { r with authority := ← AuthoritySettings.read b }⟩,
    ⟨"cache", .optional, fun b r => do .ok { r with cache := ← CacheSettings.read b }⟩,
    ⟨"limits", .optional, fun b r => do .ok { r with limits := ← Limits.read b }⟩,
    ⟨"shared_cache", .inSequences, fun b r => do
      .ok { r with shared := ← readOption SharedSettings.read b }⟩,
    ⟨"overrides", .inSequences, fun b r => do
      .ok { r with overrides := ← readOption OverrideSettings.read b }⟩ ]

def read {β : Type} [Readable β] (b : β) : Except ReadFault Settings := readRecord fields {} b

/-- The intervals in the order in which they are checked. -/
def intervals (s : Settings) : List (IntervalName × Duration) :=
  [(.batch, s.cache.batchInterval), (.file, s.cache.fileInterval),
    (.global, s.cache.globalInterval), (.eviction, s.cache.evictionInterval),
    (.attempt, s.authority.timeout)]

/-- Whether a multiplier makes waits grow. -/
def grows (multiplier : Binary64) : Bool := (Binary64.ofNat 1).lt multiplier

/-- The first fault of the settings. -/
def fault? (s : Settings) : Option SettingsFault :=
  if s.listener.portNumber = 0 then some .portZero
  else if s.cache.projectExpiry.isZero then some .expiryZero
  else if s.cache.batchSize = 0 then some .batchSizeZero
  else
    match s.intervals.find? (·.2.isZero) with
    | some (interval, _) => some (.intervalZero interval)
    | none =>
      if !grows s.authority.plan.multiplier then
        some (.multiplierTooSmall s.authority.plan.multiplier)
      else if s.shared.any (·.keyPrefix.isEmpty) then some .keyPrefixEmpty
      else none

end Settings

end AdmissionCache
