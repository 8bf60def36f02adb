import AdmissionCache.Compression.Format
import AdmissionCache.Metrics
import AdmissionCache.Project.Config
import AdmissionCache.Text.Blank
import AdmissionCache.Time

namespace AdmissionCache

/-- Why nothing can be read for a project. -/
inductive StoreFault
  | backend (text : String)
  | compression (fault : CompressionFault)
  | document (fault : DocumentFault)
  | badRevision
  deriving DecidableEq, Repr

/-- The text of a fault that has one of its own. -/
def StoreFault.message? : StoreFault → Option String
  | .backend text => some ("backend error: " ++ text)
  | .badRevision => some "revision is not valid UTF-8"
  | _ => none

/-- What the store says about a project: its configuration, that the known revision is
still the stored one, or nothing. -/
inductive StoreLookup
  | hit (config : ProjectConfig)
  | unchanged
  | miss
  deriving Repr

def StoreLookup.name : StoreLookup → String
  | .hit _ => "hit"
  | .unchanged => "unchanged"
  | .miss => "miss"

/-- The store at one instant: what it answers when an entry is read. -/
abbrev StoreContent := String → Except StoreFault (Option (List UInt8))

/-- A reading of the store: the entries read, in order, and the result. -/
structure StoreReading (α : Type) where
  entries : List String
  result : Except StoreFault α

/-- Access to the entries whose names start with a given text. -/
structure SharedStore where
  keyPrefix : String
  deriving DecidableEq, Repr

namespace SharedStore

def payloadEntry (s : SharedStore) (key : ProjectKey) : String := s.keyPrefix ++ ":" ++ key

def revisionEntry (s : SharedStore) (key : ProjectKey) : String := s.payloadEntry key ++ ".rev"

def configOf (codecs : Codecs) (payload : List UInt8) : Except StoreFault ProjectConfig :=
  match Compression.decodeWith codecs payload with
  | .error fault => .error (.compression fault)
  | .ok content =>
    match ProjectConfig.ofBytes content with
    | .ok config => .ok config
    | .error fault => .error (.document fault)

/-- The revision in an entry, without blanks at either end. -/
def revisionOf (raw : List UInt8) : Except StoreFault Revision :=
  match String.fromUTF8? ⟨raw.toArray⟩ with
  | some text => .ok (Text.trim text)
  | none => .error .badRevision

/-- The stored configuration of a project, read with the given codecs. -/
def configWith (codecs : Codecs) (s : SharedStore) (content : StoreContent) (key : ProjectKey) :
    Except StoreFault (Option ProjectConfig) := do
  match ← content (s.payloadEntry key) with
  | some payload => (configOf codecs payload).map some
  | none => .ok none

/-- The stored configuration of a project. -/
def config (s : SharedStore) (content : StoreContent) (key : ProjectKey) :
    Except StoreFault (Option ProjectConfig) := s.configWith .storing content key

/-- The stored revision of a project. -/
def revision (s : SharedStore) (content : StoreContent) (key : ProjectKey) :
    Except StoreFault (Option Revision) := do
  match ← content (s.revisionEntry key) with
  | some raw => (revisionOf raw).map some
  | none => .ok none

/-- The stored configuration as the result of a lookup. -/
def configLookup (s : SharedStore) (content : StoreContent) (key : ProjectKey) :
    Except StoreFault StoreLookup :=
  (s.config content key).map fun
    | some config => .hit config
    | none => .miss

/-- Looks a project up. With a known revision, the stored revision is read first, and the
payload only if that is another one. -/
def lookup (s : SharedStore) (content : StoreContent) (key : ProjectKey)
    (known : Option Revision) : StoreReading StoreLookup :=
  match known with
  | none => ⟨[s.payloadEntry key], s.configLookup content key⟩
  | some known =>
    match s.revision content key with
    | .error fault => ⟨[s.revisionEntry key], .error fault⟩
    | .ok stored =>
      if stored = some known then ⟨[s.revisionEntry key], .ok .unchanged⟩
      else ⟨[s.revisionEntry key, s.payloadEntry key], s.configLookup content key⟩

def lookupSample (result : Except StoreFault StoreLookup) : Sample :=
  ⟨.sharedResult, [("result", match result with
    | .ok l => l.name
    | .error _ => "error")], 1⟩

end SharedStore

/-- A stored entry: its bytes and the instant from which on it is gone. -/
structure StoredEntry where
  bytes : List UInt8
  goneAt : Option Instant
  deriving DecidableEq, Repr

/-- A store that is kept in memory, and that may refuse to answer. -/
structure MemoryStore where
  entries : KeyMap StoredEntry := ∅
  failing : Bool := false

namespace MemoryStore

def refusal : StoreFault := .backend "connection reset"

/-- What the store answers at an instant. -/
def content (m : MemoryStore) (now : Instant) : StoreContent := fun entry =>
  if m.failing then .error refusal
  else
    match m.entries.get? entry with
    | none => .ok none
    | some e =>
      if e.goneAt.any fun gone => gone.nanos ≤ now.nanos then .ok none else .ok (some e.bytes)

def set (m : MemoryStore) (entry : String) (bytes : List UInt8) (goneAt : Option Instant) :
    MemoryStore :=
  { m with entries := m.entries.insert entry ⟨bytes, goneAt⟩ }

def erase (m : MemoryStore) (entry : String) : MemoryStore :=
  { m with entries := m.entries.erase entry }

end MemoryStore

end AdmissionCache
