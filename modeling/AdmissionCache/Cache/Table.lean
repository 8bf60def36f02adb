import AdmissionCache.Cache.Slot

namespace AdmissionCache

/-- The cache: a slot for every key that was asked for. Reads never wait; a read that wants a fetch
claims it by marking the slot, so that one reader alone schedules it. -/
structure Cache where
  policy : Policy
  slots : KeyMap Slot := ∅

/-- The answer to a lookup. The reader that finds `scheduleFetch` set has to hand the
key over for fetching. -/
structure Lookup where
  decision : Decision
  scheduleFetch : Bool
  deriving Repr

namespace Cache

def slot? (c : Cache) (key : ProjectKey) : Option Slot := c.slots.get? key

/-- The slot of a key, an empty one if the key has none. -/
def slotOrNew (c : Cache) (key : ProjectKey) : Slot := (c.slot? key).getD {}

def setSlot (c : Cache) (key : ProjectKey) (s : Slot) : Cache :=
  { c with slots := c.slots.insert key s }

/-- How many keys have a slot. -/
def size (c : Cache) : Nat := c.slots.size

def isEmpty (c : Cache) : Bool := c.slots.isEmpty

/-- Reads a key without changing anything. A key without a slot is unknown and wants a
fetch. -/
def read (c : Cache) (key : ProjectKey) (now : Instant) : Except PeriodOverflow Reading :=
  match c.slot? key with
  | none => .ok ⟨.unknown, true⟩
  | some s => s.read c.policy now

/-- The second half of a lookup: reads the key again, gives it a slot, and marks the
slot if a fetch is still wanted. -/
def claim (c : Cache) (key : ProjectKey) (now : Instant) :
    Except PeriodOverflow (Cache × Lookup) := do
  let s := c.slotOrNew key
  let r ← s.read c.policy now
  .ok (c.setSlot key { s with inFlight := s.inFlight || r.wantsFetch }, ⟨r.decision, r.wantsFetch⟩)

/-- Looks a key up. Only a reading that wants a fetch goes on to claim it. -/
def get (c : Cache) (key : ProjectKey) (now : Instant) :
    Except PeriodOverflow (Cache × Lookup) := do
  let r ← c.read key now
  if r.wantsFetch then c.claim key now else .ok (c, ⟨r.decision, false⟩)

/-- The configuration of a key if it may be used now. -/
def peek (c : Cache) (key : ProjectKey) (now : Instant) :
    Except PeriodOverflow (Option ProjectConfig) :=
  (c.read key now).map (·.decision.config?)

/-- The revision of the usable configuration, which goes along with the next query. -/
def knownRevision (c : Cache) (key : ProjectKey) (now : Instant) :
    Except PeriodOverflow (Option Revision) :=
  (c.peek key now).map fun config => config.bind (·.revision?)

/-- Ends a fetch of a key; see `Slot.complete`. -/
def complete (c : Cache) (key : ProjectKey) (stamp : Instant)
    (learn : Knowledge → Option Knowledge) : Cache × Bool :=
  let (s, taken) := (c.slotOrNew key).complete stamp learn
  (c.setSlot key s, taken)

/-- Ends a fetch that delivered a configuration. -/
def put (c : Cache) (key : ProjectKey) (config : ProjectConfig) (stamp : Instant) : Cache × Bool :=
  c.complete key stamp fun _ => some (.loaded config stamp)

/-- Ends a fetch that found the revision sent along unchanged. Only a configuration with
that very revision is renewed. -/
def refresh (c : Cache) (key : ProjectKey) (revision : Option Revision) (stamp : Instant) :
    Cache × Bool :=
  c.complete key stamp fun
    | .loaded config _ => if config.revision? = revision then some (.loaded config stamp) else none
    | _ => none

/-- Ends a fetch that found no project. -/
def putMissing (c : Cache) (key : ProjectKey) (stamp : Instant) : Cache × Bool :=
  c.complete key stamp fun _ => some (.missing stamp)

/-- Ends a fetch that failed. What is known stays. -/
def fail (c : Cache) (key : ProjectKey) : Cache :=
  match c.slot? key with
  | some s => c.setSlot key { s with inFlight := false }
  | none => c

/-- Installs the configuration of an override, whatever is known, and leaves a fetch
under way. -/
def applyOverride (c : Cache) (key : ProjectKey) (config : ProjectConfig) (now : Instant) : Cache :=
  c.setSlot key { c.slotOrNew key with knowledge := .loaded config now }

/-- Forgets what is known about a key and leaves a fetch under way. -/
def invalidate (c : Cache) (key : ProjectKey) : Cache :=
  match c.slot? key with
  | some s => c.setSlot key { s with knowledge := .nothing }
  | none => c

/-- Whether every slot can be judged by a sweep at `now`. -/
def sweepable (c : Cache) (now : Instant) : Bool :=
  c.slots.toList.all fun e => (e.2.survives c.policy now).isOk

/-- Removes the slots that no longer count and have no fetch under way; gives the number
removed. A slot that cannot be judged ends the sweep; see `abandonSweep`. -/
def evictExpired (c : Cache) (now : Instant) : Except PeriodOverflow (Cache × Nat) :=
  if c.sweepable now then
    let slots := c.slots.filter fun _ s => (s.survives c.policy now).toOption == some true
    .ok ({ c with slots }, c.slots.size - slots.size)
  else .error .graceEnd

/-- What a sweep leaves behind that a fault ends. Slots are visited in no particular order, and
those that were removed by then stay removed. -/
def abandonSweep (c : Cache) (now : Instant) (visited : List ProjectKey) : Cache :=
  { c with slots := c.slots.filter fun key s =>
    !(visited.contains key && (s.survives c.policy now).toOption == some false) }

end Cache

end AdmissionCache
