import AdmissionCache.Metrics
import AdmissionCache.Query.Fault
import AdmissionCache.Query.Request
import AdmissionCache.Query.Response
import AdmissionCache.Query.RetryPlan

namespace AdmissionCache

/-- How long a query may take as a whole and per attempt, and how its retries wait. -/
structure QuerySettings where
  queryTimeout : Duration := .ofSecs 30
  attemptTimeout : Duration := .ofSecs 5
  plan : RetryPlan := {}
  deriving DecidableEq, Repr

inductive QueryKind
  | project
  | global
  deriving DecidableEq, Repr

def QueryKind.name : QueryKind → String
  | .project => "project"
  | .global => "global"

abbrev AttemptResult := Except AttemptFault ConfigsResponse

/-- An attempt: the how-manieth it is, counted from one, when it began, and how long it
may take. -/
structure Attempt where
  number : Nat
  began : Instant
  allowance : Duration
  deriving DecidableEq, Repr

/-- How the authority would end an attempt that nothing cuts off. -/
inductive Reply
  | never
  | after (delay : Duration) (result : AttemptResult)

namespace Attempt

/-- When the attempt is cut off. -/
def cutOff (a : Attempt) : Instant := (a.began.after a.allowance).ceilMilli

/-- When a reply that takes `delay` is there: one that takes no time when the attempt begins,
any other when its timer fires. -/
def replied (a : Attempt) (delay : Duration) : Instant :=
  if delay.isZero then a.began else (a.began.after delay).ceilMilli

/-- Whether a reply that takes `delay` comes in time. One that comes at the very
millisecond of the cut does. -/
def admits (a : Attempt) (delay : Duration) : Bool := (a.replied delay).nanos ≤ a.cutOff.nanos

/-- When and how the attempt ends. -/
def outcome (a : Attempt) : Reply → Instant × AttemptResult
  | .never => (a.cutOff, .error .timedOut)
  | .after delay result =>
    if a.admits delay then (a.replied delay, result)
    else (a.cutOff, .error .timedOut)

/-- A reply that takes no time is there when the attempt begins. -/
theorem replied_zero (a : Attempt) : a.replied .zero = a.began := if_pos rfl

/-- No reply is there before the attempt begins. -/
theorem began_le_replied (a : Attempt) (delay : Duration) : a.began.nanos ≤ (a.replied delay).nanos := by
  unfold replied
  split
  · exact Nat.le_refl _
  · exact Nat.le_trans (Nat.le_add_right _ _) (Instant.le_ceilMilli _)

theorem began_le_cutOff (a : Attempt) : a.began.nanos ≤ a.cutOff.nanos :=
  Nat.le_trans (Nat.le_add_right _ _) (Instant.le_ceilMilli _)

/-- A reply that takes no time comes in time, however little there is. -/
theorem admits_zero (a : Attempt) : a.admits .zero = true := by
  rw [admits, replied_zero]
  exact decide_eq_true a.began_le_cutOff

theorem outcome_of_admits {a : Attempt} {delay : Duration} (inTime : a.admits delay = true)
    (result : AttemptResult) : a.outcome (.after delay result) = (a.replied delay, result) := if_pos inTime

theorem outcome_of_not_admits {a : Attempt} {delay : Duration} (late : ¬ a.admits delay = true)
    (result : AttemptResult) : a.outcome (.after delay result) = (a.cutOff, .error .timedOut) := if_neg late

/-- Nothing outlasts the cut. -/
theorem outcome_le_cutOff (a : Attempt) (r : Reply) : (a.outcome r).1.nanos ≤ a.cutOff.nanos := by
  cases r with
  | never => exact Nat.le_refl _
  | after delay result =>
    by_cases inTime : a.admits delay = true
    · rw [outcome_of_admits inTime]
      exact of_decide_eq_true inTime
    · exact Nat.le_of_eq (congrArg (·.1.nanos) (outcome_of_not_admits inTime result))

end Attempt

/-- How a query ended: after how many attempts, when, and with what. The attempts are counted
in 32 bits; the count starts over where these are not enough. -/
structure QueryEnd where
  attempts : UInt32
  time : Instant
  result : Except QueryFault ConfigsResponse

/-- Where a query stands: within an attempt, in the wait after the attempt of the given
number, or at its end. A query is lost where the clock cannot show the end of a wait. -/
inductive QueryState
  | trying (attempt : Attempt)
  | pausing (number : Nat) (due : Instant)
  | ended (outcome : QueryEnd)
  | lost

/-- A query, and the instant at which it has to be over. -/
structure Query where
  settings : QuerySettings
  started : Instant
  deadline : Instant
  deriving DecidableEq, Repr

namespace Query

/-- A query that starts at `now`. There is none if the clock cannot show its deadline. -/
def start? (settings : QuerySettings) (now : Instant) : Option Query :=
  (now.add? settings.queryTimeout).map fun deadline => ⟨settings, now, deadline⟩

/-- The attempt that begins at `now`. It is cut off when its own time is over or that of
the query. -/
def attempt (q : Query) (number : Nat) (now : Instant) : Attempt :=
  ⟨number, now, q.settings.attemptTimeout.min (q.deadline.since now)⟩

/-- What follows an attempt that ended at `now`: the end of the query, or a wait that is
over before the deadline is. -/
def afterAttempt (q : Query) (number : Nat) (now : Instant) (result : AttemptResult) :
    QueryState :=
  match result with
  | .ok response => .ended ⟨.ofNat number, now, .ok response⟩
  | .error fault =>
    if fault.isRetryable then
      match now.add? (q.settings.plan.wait number) with
      | none => .lost
      | some due =>
        if q.deadline.nanos < due.nanos then
          .ended ⟨.ofNat number, now, .error (.exhausted (.ofNat number) fault)⟩
        else .pausing number due
    else .ended ⟨.ofNat number, now, .error (.attempt fault)⟩

/-- Every wait is over before the deadline. -/
theorem due_le_deadline {q : Query} {number n : Nat} {now due : Instant} {result : AttemptResult}
    (pauses : q.afterAttempt number now result = .pausing n due) :
    due.nanos ≤ q.deadline.nanos := by
  unfold afterAttempt at pauses
  split at pauses
  next => exact nomatch pauses
  next =>
    split at pauses
    next =>
      split at pauses
      next => exact nomatch pauses
      next =>
        split at pauses
        next => exact nomatch pauses
        next inTime => cases pauses; exact Nat.not_lt.mp inTime
    next => exact nomatch pauses

/-- A query begins with its first attempt. -/
def first (q : Query) : QueryState := .trying (q.attempt 1 q.started)

/-- The next state, given the reply to every attempt. -/
def next (q : Query) (replies : Nat → Reply) : QueryState → QueryState
  | .trying a =>
    let (time, result) := a.outcome (replies a.number)
    q.afterAttempt a.number time result
  | .pausing number due => .trying (q.attempt (number + 1) due.ceilMilli)
  | state => state

def stateAfter (q : Query) (replies : Nat → Reply) : Nat → QueryState
  | 0 => q.first
  | n + 1 => q.next replies (q.stateAfter replies n)

/-- The attempts among the first `n + 1` states, from a given state on, and the state
after them. -/
def course (q : Query) (replies : Nat → Reply) : Nat → QueryState → List Attempt × QueryState
  | 0, state => ([], state)
  | n + 1, .trying a =>
    let (later, final) := q.course replies n (q.next replies (.trying a))
    (a :: later, final)
  | n + 1, .pausing number due => q.course replies n (q.next replies (.pausing number due))
  | _ + 1, state => ([], state)

/-- All that an authority receives while a query for `request` passes its first `n + 1` states,
and the state after them. Its reply may depend on the request and on the number of the attempt. -/
def exchange (q : Query) (authority : Nat → ConfigsRequest → Reply) (request : ConfigsRequest) (n : Nat) :
    List (Instant × ConfigsRequest) × QueryState :=
  let (attempts, final) := q.course (authority · request) n q.first
  (attempts.map fun a => (a.began, request), final)

end Query

namespace QueryEnd

def failureSamples (kind : QueryKind) : Except QueryFault ConfigsResponse → List Sample
  | .ok _ => []
  | .error fault => [⟨.requestFailures, [("error", fault.kind), ("kind", kind.name)], 1⟩]

/-- What a query records at its end: how long it took, how many attempts it made, and
why it failed if it did. -/
def samples (e : QueryEnd) (kind : QueryKind) (started : Instant) : List Sample :=
  [⟨.requestDuration, [("kind", kind.name)], (e.time.since started).nanos⟩,
    ⟨.requestAttempts, [("kind", kind.name)], e.attempts⟩] ++ failureSamples kind e.result

end QueryEnd

/-- The global configuration of a response. A response that calls it pending has none. -/
def ConfigsResponse.globalConfig? (r : ConfigsResponse) : Option Json :=
  if r.globalStatus = some .pending then none else r.global

end AdmissionCache
