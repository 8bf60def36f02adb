import AdmissionCache.Cache.Table

namespace AdmissionCache

namespace Cache

/-- What a user of the cache can ask of it. Instants are taken before an operation begins. -/
inductive Operation
  | get (key : ProjectKey) (now : Instant)
  | peek (key : ProjectKey) (now : Instant)
  | knownRevision (key : ProjectKey) (now : Instant)
  | put (key : ProjectKey) (config : ProjectConfig) (stamp : Instant)
  | refresh (key : ProjectKey) (revision : Option Revision) (stamp : Instant)
  | putMissing (key : ProjectKey) (stamp : Instant)
  | fail (key : ProjectKey)
  | applyOverride (key : ProjectKey) (config : ProjectConfig) (now : Instant)
  | invalidate (key : ProjectKey)
  /-- The slots of `visited` are those that come before the one that faults, if any does. -/
  | evictExpired (now : Instant) (visited : List ProjectKey := [])
  | size
  | isEmpty
  deriving Repr

/-- What the cache answers. -/
inductive Answer
  | lookup (lookup : Lookup)
  | config (usable : Option ProjectConfig)
  | revision (known : Option Revision)
  | taken (taken : Bool)
  | done
  | count (count : Nat)
  | empty (empty : Bool)
  | fault (fault : PeriodOverflow)
  deriving Repr

/-- A fault of a read leaves the cache as it is. -/
def orFault (c : Cache) : Except PeriodOverflow (Cache × Answer) → Cache × Answer
  | .ok result => result
  | .error fault => (c, .fault fault)

/-- An operation as a whole. -/
def perform (c : Cache) : Operation → Cache × Answer
  | .get key now => c.orFault ((c.get key now).map (·.map id .lookup))
  | .peek key now => c.orFault ((c.peek key now).map fun config => (c, .config config))
  | .knownRevision key now => c.orFault ((c.knownRevision key now).map fun revision => (c, .revision revision))
  | .put key config stamp => (c.put key config stamp).map id .taken
  | .refresh key revision stamp => (c.refresh key revision stamp).map id .taken
  | .putMissing key stamp => (c.putMissing key stamp).map id .taken
  | .fail key => (c.fail key, .done)
  | .applyOverride key config now => (c.applyOverride key config now, .done)
  | .invalidate key => (c.invalidate key, .done)
  | .evictExpired now visited =>
    match c.evictExpired now with
    | .ok (c, removed) => (c, .count removed)
    | .error fault => (c.abandonSweep now visited, .fault fault)
  | .size => (c, .count c.size)
  | .isEmpty => (c, .empty c.isEmpty)

/-- Operations one after the other. -/
def performAll (c : Cache) : List Operation → Cache × List Answer
  | [] => (c, [])
  | op :: later =>
    let (c, answer) := c.perform op
    let (c, answers) := c.performAll later
    (c, answer :: answers)

/-- Where an operation stands after its first section: at its end, or before a claim. -/
inductive Stage
  | answered (answer : Answer)
  | claiming (key : ProjectKey) (now : Instant)
  deriving Repr

/-- The first section. That of a lookup changes nothing. -/
def enter (c : Cache) : Operation → Cache × Stage
  | .get key now =>
    match c.read key now with
    | .ok r => (c, if r.wantsFetch then .claiming key now else .answered (.lookup ⟨r.decision, false⟩))
    | .error fault => (c, .answered (.fault fault))
  | op => (c.perform op).map id .answered

/-- The second section of a lookup. -/
def enterClaim (c : Cache) (key : ProjectKey) (now : Instant) : Cache × Answer :=
  c.orFault ((c.claim key now).map (·.map id .lookup))

/-- A thread: the lookup that it is between the two sections of, and the operations that it has not
begun. -/
structure Thread where
  claim : Option (ProjectKey × Instant) := none
  waiting : List Operation
  deriving Repr

/-- A cache and the threads that share it. -/
structure Threads (τ : Type u) where
  cache : Cache
  each : τ → Thread

/-- An operation that has ended. -/
structure Completed (τ : Type u) where
  thread : τ
  operation : Operation
  answer : Answer
  deriving Repr

namespace Threads

/-- Threads that have not begun. -/
def start {τ : Type u} (c : Cache) (programs : τ → List Operation) : Threads τ :=
  ⟨c, fun t => { waiting := programs t }⟩

variable {τ : Type u} [DecidableEq τ]

/-- What a section of the thread `t` leaves behind. -/
def leave (s : Threads τ) (t : τ) (c : Cache) (thread : Thread) : Threads τ :=
  ⟨c, fun u => if u = t then thread else s.each u⟩

/-- The next section of a thread, and the operation that ends with it. -/
def turn (s : Threads τ) (t : τ) : Threads τ × Option (Completed τ) :=
  match s.each t with
  | ⟨some (key, now), waiting⟩ =>
    let (c, answer) := s.cache.enterClaim key now
    (s.leave t c ⟨none, waiting⟩, some ⟨t, .get key now, answer⟩)
  | ⟨none, []⟩ => (s, none)
  | ⟨none, op :: waiting⟩ =>
    match s.cache.enter op with
    | (c, .answered answer) => (s.leave t c ⟨none, waiting⟩, some ⟨t, op, answer⟩)
    | (c, .claiming key now) => (s.leave t c ⟨some (key, now), waiting⟩, none)

/-- Sections in the order in which the threads of `schedule` get the lock, and the operations that
end with them. -/
def run (s : Threads τ) : List τ → Threads τ × List (Completed τ)
  | [] => (s, [])
  | t :: schedule =>
    let (s, completed) := s.turn t
    let (s, later) := s.run schedule
    (s, completed.toList ++ later)

end Threads

end Cache

end AdmissionCache
