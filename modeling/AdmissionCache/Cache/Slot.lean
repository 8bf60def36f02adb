import AdmissionCache.Freshness
import AdmissionCache.Project.Config

namespace AdmissionCache

/-- What was last learned about a project. -/
inductive Knowledge
  | nothing
  | missing (checkedAt : Instant)
  | loaded (config : ProjectConfig) (fetchedAt : Instant)
  deriving Repr

def Knowledge.learnedAt? : Knowledge → Option Instant
  | .nothing => none
  | .missing checkedAt => some checkedAt
  | .loaded _ fetchedAt => some fetchedAt

/-- One key's place in the cache: what is known about its project, and whether a fetch for it is
under way. -/
structure Slot where
  knowledge : Knowledge := .nothing
  inFlight : Bool := false
  deriving Repr

inductive Decision
  | useFresh (config : ProjectConfig)
  | useStale (config : ProjectConfig)
  | notFound
  | unknown
  deriving Repr

namespace Decision

def name : Decision → String
  | .useFresh _ => "fresh"
  | .useStale _ => "stale"
  | .notFound => "not_found"
  | .unknown => "unknown"

/-- The configuration that may be used, if there is one. -/
def config? : Decision → Option ProjectConfig
  | .useFresh c => some c
  | .useStale c => some c
  | .notFound => none
  | .unknown => none

end Decision

/-- A decision together with the wish for a fetch. -/
structure Reading where
  decision : Decision
  wantsFetch : Bool
  deriving Repr

/-- What knowledge amounts to at an instant, fetches left aside. -/
def Knowledge.read (p : Policy) (now : Instant) : Knowledge → Except PeriodOverflow Reading
  | .nothing => .ok ⟨.unknown, true⟩
  | .missing checkedAt =>
    if p.missExpired checkedAt now then .ok ⟨.unknown, true⟩ else .ok ⟨.notFound, false⟩
  | .loaded config fetchedAt => do
    match ← p.classify fetchedAt now with
    | .fresh => .ok ⟨.useFresh config, false⟩
    | .stale => .ok ⟨.useStale config, true⟩
    | .expired => .ok ⟨.unknown, true⟩

namespace Slot

/-- A fetch is wanted only while none is under way. -/
def read (p : Policy) (now : Instant) (s : Slot) : Except PeriodOverflow Reading :=
  (s.knowledge.read p now).map fun r => ⟨r.decision, r.wantsFetch && !s.inFlight⟩

/-- Whether a sweep keeps the slot: a fetch is under way, or what it knows still
counts. -/
def survives (p : Policy) (now : Instant) (s : Slot) : Except PeriodOverflow Bool :=
  if s.inFlight then .ok true
  else
    match s.knowledge with
    | .nothing => .ok false
    | .missing checkedAt => .ok (!p.missExpired checkedAt now)
    | .loaded _ fetchedAt => (p.classify fetchedAt now).map (· ≠ .expired)

/-- Ends a fetch that was sent at `stamp`. Knowledge learned later than that is kept and
the result discarded; otherwise `learn` decides, `none` meaning that it has no use for the
result. Says whether the result was taken. -/
def complete (s : Slot) (stamp : Instant) (learn : Knowledge → Option Knowledge) : Slot × Bool :=
  let outdated :=
    match s.knowledge.learnedAt? with
    | some learnedAt => decide (stamp.nanos < learnedAt.nanos)
    | none => false
  if outdated then (⟨s.knowledge, false⟩, false)
  else
    match learn s.knowledge with
    | some knowledge => (⟨knowledge, false⟩, true)
    | none => (⟨s.knowledge, false⟩, false)

end Slot

end AdmissionCache
