import AdmissionCache.Service.Client
import AdmissionCache.Service.Worker

namespace AdmissionCache

/-- What happens to the service: a step of a call, or a whole step of the worker. The lock of the
cache is taken twice by a lookup that claims a fetch, and once for every key by a completion and by
a reload; each of them is one event all the same. Events that cannot happen in a state leave it as
it is. -/
inductive Event
  /-- A client begins a call; `now` is the instant of its reading. -/
  | look (purpose : Purpose) (key : ProjectKey) (now : Instant)
  /-- The `n`-th call goes on. -/
  | advance (n : Nat)
  /-- A client asks the worker to stop. -/
  | requestStop
  /-- The worker takes a command. -/
  | receive
  /-- The worker finds that no client is left. -/
  | abandon
  /-- The worker has stopped. -/
  | vanish
  | dispatch (now : Instant)
  | consult (batch : Nat) (content : StoreContent)
  | answer (batch : Nat) (result : Except QueryFault ConfigsResponse)
  | lose (batch : Nat)
  | complete (batch : Nat) (now : Instant)
  | reload (directory : Directory) (now : Instant)
  /-- The slots of `visited` are those that come before the one that cannot be judged, if there
  is such a one. -/
  | sweep (now : Instant) (visited : List ProjectKey := [])
  | learnGlobal (result : Except QueryFault ConfigsResponse)
  /-- The worker breaks down. -/
  | crash

/-- The instant that an event goes by. -/
def Event.time? : Event → Option Instant
  | .look _ _ now => some now
  | .dispatch now => some now
  | .complete _ now => some now
  | .reload _ now => some now
  | .sweep now _ => some now
  | _ => none

namespace Service

/-- What an event does. A reading that fails changes nothing. -/
def step (s : Service) : Event → Service
  | .look purpose key now =>
    match s.look purpose key now with
    | .ok (s, _) => s
    | .error _ => s
  | .advance n => s.advance n
  | .requestStop => s.requestStop
  | .receive => s.whileRunning receive
  | .abandon => s.whileRunning fun s => if s.mail = [] then { s with status := .stopping } else s
  | .vanish => if s.status = .stopping then { s with status := .stopped } else s
  | .dispatch now => s.whileRunning (·.dispatch now)
  | .consult batch content => s.consult batch content
  | .answer batch result => s.answer batch result
  | .lose batch => s.lose batch
  | .complete batch now => s.whileRunning (·.complete batch now)
  | .reload directory now => s.whileRunning (·.reload directory now)
  | .sweep now visited => s.whileRunning (·.sweep now visited)
  | .learnGlobal result => s.learnGlobal result
  | .crash => s.whileRunning fun s => { s with status := .crashed }

/-- What a sequence of events does. -/
def run (s : Service) (events : List Event) : Service := events.foldl step s

theorem run_append (s : Service) (earlier later : List Event) :
    s.run (earlier ++ later) = (s.run earlier).run later := List.foldl_append ..

/-- The service at its start. Where overrides are in use, none is loaded yet. -/
def start (policy : Policy) (settings : ServiceSettings) (withOverrides : Bool) : Service where
  settings
  cache := { policy }
  overrides := if withOverrides then some ∅ else none

end Service

end AdmissionCache
