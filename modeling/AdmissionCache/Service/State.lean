import AdmissionCache.Admission
import AdmissionCache.Cache.Table
import AdmissionCache.Service.Resolution

namespace AdmissionCache

/-- Where the outcomes of rejected items go: they are passed on, or only counted. -/
inductive Sink
  | channel
  | counter
  deriving DecidableEq, Repr

structure ServiceSettings where
  batchSize : Nat
  queryTimeout : Duration
  store : Option SharedStore := none
  sink : Sink := .channel
  deriving DecidableEq, Repr

/-- What clients send to the worker. -/
inductive WorkerCommand
  | fetch (key : ProjectKey)
  | stop
  deriving DecidableEq, Repr

/-- What a client wants to know about a key. -/
inductive Purpose
  | lookup
  | check
  deriving DecidableEq, Repr

/-- Where a call stands: the client has claimed a fetch that it has to send, it was
refused and has to give the claim back, or it has to judge the decision. -/
inductive CallStage
  | claimed
  | refused
  | decided
  deriving DecidableEq, Repr

/-- A client's call that is not over yet. -/
structure Call where
  purpose : Purpose
  key : ProjectKey
  decision : Decision
  stage : CallStage
  deriving Repr

/-- How far a batch is: keys are left to consult the near sources for, the authority is
asked when none is; all is resolved, or the batch broke down. -/
inductive BatchProgress
  | open (left : List AskedKey) (findings : Findings)
  | resolved (resolutions : List Resolved)
  | lost

/-- A batch of keys, stamped with the instant of its dispatch. -/
structure Batch where
  id : Nat
  stamp : Instant
  keys : List ProjectKey
  progress : BatchProgress

namespace Batch

/-- The keys for which the authority has to be asked now. -/
def question? (b : Batch) : Option (List AskedKey) :=
  match b.progress with
  | .open [] findings => some findings.remaining
  | _ => none

/-- Whether nothing happens to the batch any more. -/
def isOver (b : Batch) : Bool :=
  match b.progress with
  | .open _ _ => false
  | _ => true

end Batch

/-- The life of the worker. A worker that stops takes no commands any more, although they
can still be sent to it until it has stopped; a worker that crashed is gone at once. -/
inductive WorkerStatus
  | running
  | stopping
  | stopped
  | crashed
  deriving DecidableEq, Repr

/-- Whether commands can be sent to the worker. -/
def WorkerStatus.listens : WorkerStatus → Bool
  | .running => true
  | .stopping => true
  | _ => false

/-- The state of the service: the cache that clients read, the calls of clients that are not yet
over, and what the worker has to do. -/
structure Service where
  settings : ServiceSettings
  cache : Cache
  overrides : Option Snapshot := none
  calls : List Call := []
  status : WorkerStatus := .running
  mail : List WorkerCommand := []
  queued : KeySet := ∅
  pendingSince : KeyMap Instant := ∅
  batches : List Batch := []
  dispatched : Nat := 0
  global : Option Json := none
  outcomes : List Outcome := []
  samples : List Sample := []

namespace Service

def record (s : Service) (samples : List Sample) : Service :=
  { s with samples := s.samples ++ samples }

/-- Whether the global configuration was ever there. -/
def isReady (s : Service) : Bool := s.global.isSome

/-- The batch with the given number, if it is not over and applied. -/
def batch? (s : Service) (id : Nat) : Option Batch := s.batches.find? (·.id == id)

/-- Replaces the batch of the same number. -/
def setBatch (s : Service) (b : Batch) : Service :=
  { s with batches := s.batches.map fun other => if other.id = b.id then b else other }

/-- Forgets the batch with the given number. -/
def dropBatch (s : Service) (id : Nat) : Service := { s with batches := s.batches.filter (·.id != id) }

def nearSources (s : Service) (content : StoreContent) : NearSources :=
  ⟨s.overrides, s.settings.store, content⟩

end Service

end AdmissionCache
