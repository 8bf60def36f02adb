import AdmissionCache.Cache.Table

namespace AdmissionCache

namespace Cache

/-- Code that holds the lock of a cache. -/
abbrev Locked (α : Type) := ExceptT PeriodOverflow (StateM Cache) α

namespace Locked

/-- What code comes to, and the cache that it leaves, whether it ends or a fault ends it. -/
def on {α : Type} (c : Cache) (code : Locked α) : Except PeriodOverflow α × Cache := Id.run (code.run.run c)

/-- Reads a key without writing anything. -/
def evaluate (key : ProjectKey) (now : Instant) : Locked Reading := do
  liftExcept ((← getThe Cache).read key now)

/-- The section of a lookup that writes. The key gets its slot first and is evaluated in it again. -/
def claim (key : ProjectKey) (now : Instant) : Locked Lookup := do
  modify fun c => c.setSlot key (c.slotOrNew key)
  let r ← evaluate key now
  if r.wantsFetch then
    modify fun c => c.setSlot key { c.slotOrNew key with inFlight := true }
  return ⟨r.decision, r.wantsFetch⟩

/-- A lookup whose two sections nothing comes between. -/
def lookup (key : ProjectKey) (now : Instant) : Locked Lookup := do
  let r ← evaluate key now
  if r.wantsFetch then claim key now else return ⟨r.decision, false⟩

def peek (key : ProjectKey) (now : Instant) : Locked (Option ProjectConfig) :=
  (·.decision.config?) <$> evaluate key now

def knownRevision (key : ProjectKey) (now : Instant) : Locked (Option Revision) :=
  (·.bind (·.revision?)) <$> peek key now

end Locked

end Cache

end AdmissionCache
