import AdmissionCache.Service.Event
import AdmissionCache.Timeline.Authority
import AdmissionCache.Timeline.Ticker

namespace AdmissionCache

/-- How often the worker does its work. -/
structure Intervals where
  batch : Duration
  file : Duration
  global : Duration
  sweep : Duration
  deriving DecidableEq, Repr

/-- A query under way, for a batch or for the global configuration, and what is prescribed
for its current attempt. -/
structure Errand where
  batch : Option Nat
  query : Query
  request : ConfigsRequest
  state : QueryState
  prescribed : PrescribedAttempt := {}
  delay : Duration := .zero

namespace Errand

def kind (e : Errand) : QueryKind :=
  match e.batch with
  | some _ => .project
  | none => .global

def wake (e : Errand) : Instant :=
  match e.state with
  | .trying a => if a.admits e.delay then a.replied e.delay else a.cutOff
  | .pausing _ due => due.ceilMilli
  | _ => .origin

end Errand

/-- The service in time: when the worker's ticks come, which queries are under way, and what the
sources hold. Time stands still while something can be done at once, and jumps to the next instant
at which something is due. -/
structure Timeline where
  intervals : Intervals
  query : QuerySettings
  service : Service
  now : Instant := .origin
  started : Bool := false
  batchTicks : Option Ticker := none
  fileTicks : Option Ticker := none
  sweepTicks : Option Ticker := none
  pollTicks : Option Ticker := none
  errands : List Errand := []
  authority : ScriptedAuthority := {}
  store : MemoryStore := {}
  directory : Directory := .entries []
  requests : List (Instant × ConfigsRequest) := []
  entriesRead : List String := []

namespace Timeline

/-- Ends what ends with the worker. A crash leaves the polls of the global configuration
alone. -/
def tidy (t : Timeline) : Timeline :=
  match t.service.status with
  | .running => t
  | .stopped => t
  | .stopping =>
    { t with
      batchTicks := none, fileTicks := none, sweepTicks := none, pollTicks := none
      errands := []
      service := t.service.step .vanish }
  | .crashed =>
    { t with
      batchTicks := none, fileTicks := none, sweepTicks := none
      errands := t.errands.filter (·.batch.isNone) }

def apply (t : Timeline) (e : Event) : Timeline := tidy { t with service := t.service.step e }

def isRunning (t : Timeline) : Bool := t.service.status = .running

/-- Whether ticks of a period can be set up: there are none without a period, nor if the
first one cannot be shown by the clock. -/
def tickable (t : Timeline) (period : Duration) : Bool :=
  !period.isZero && (t.now.add? period).isSome

/-- The worker starts: it loads the overrides, sends for the global configuration, and
sets up its ticks. -/
def start (t : Timeline) : Timeline :=
  let t := { t with started := true }.apply (.reload t.directory t.now)
  let i := t.intervals
  let t := { t with
    pollTicks := if i.global.isZero then none else some (.fromNow i.global t.now) }
  if i.batch.isZero || !t.tickable i.file || !t.tickable i.sweep then t.apply .crash
  else
    { t with
      batchTicks := some (.fromNow i.batch t.now)
      fileTicks := if t.service.overrides.isSome then some (.afterPeriod i.file t.now) else none
      sweepTicks := some (.afterPeriod i.sweep t.now) }

/-- Begins an attempt: the authority's prescription for it is taken. -/
def begin (t : Timeline) (e : Errand) (a : Attempt) : Timeline × Errand :=
  let (prescribed, authority) := t.authority.take e.kind
  ({ t with authority, requests := t.requests ++ [(t.now, e.request)] },
    { e with state := .trying a, prescribed, delay := prescribed.delay.getD t.authority.delay })

/-- Sets out on an errand. A query that cannot be started breaks down whoever asks. -/
def send (t : Timeline) (batch : Option Nat) (request : ConfigsRequest) : Timeline :=
  match Query.start? t.query t.now, batch with
  | none, some id => t.apply (.lose id)
  | none, none => { t with pollTicks := none }
  | some query, _ =>
    let first := query.attempt 1 t.now
    let (t, errand) := t.begin { batch, query, request, state := query.first } first
    { t with errands := t.errands ++ [errand] }

/-- Puts an errand back after it went on, or hands its end to the service. -/
def conclude (t : Timeline) (e : Errand) : Timeline :=
  match e.state, e.batch with
  | .ended outcome, batch =>
    let t := { t with service := t.service.record (outcome.samples e.kind e.query.started) }
    match batch with
    | some id => t.apply (.answer id outcome.result)
    | none => t.apply (.learnGlobal outcome.result)
  | .lost, some id => t.apply (.lose id)
  | .lost, none => { t with pollTicks := none }
  | _, _ => { t with errands := t.errands ++ [e] }

/-- Lets an errand go on that was taken from the list. -/
def proceed (t : Timeline) (e : Errand) : Timeline :=
  match e.state with
  | .trying a =>
    if a.admits e.delay then
      match t.authority.ending e.prescribed e.request with
      | .breakdown => t.conclude { e with state := .lost }
      | .result result => t.conclude { e with state := e.query.afterAttempt a.number t.now result }
    else
      t.conclude { e with state := e.query.afterAttempt a.number t.now (.error .timedOut) }
  | .pausing number _ =>
    let (t, e) := t.begin e (e.query.attempt (number + 1) t.now)
    t.conclude e
  | _ => t

def receive? (t : Timeline) : Option Timeline :=
  if t.isRunning && !t.service.mail.isEmpty then some (t.apply .receive) else none

/-- The worker applies a batch that is over. -/
def complete? (t : Timeline) : Option Timeline :=
  if t.isRunning then
    (t.service.batches.find? (·.isOver)).map fun b => t.apply (.complete b.id t.now)
  else none

def dispatch? (t : Timeline) : Option Timeline :=
  t.batchTicks.bind fun ticks =>
    if ticks.isDue t.now then
      some ({ t with batchTicks := some (ticks.next t.now) }.apply (.dispatch t.now))
    else none

def reload? (t : Timeline) : Option Timeline :=
  t.fileTicks.bind fun ticks =>
    if ticks.isDue t.now then
      some ({ t with fileTicks := some (ticks.next t.now) }.apply (.reload t.directory t.now))
    else none

def sweep? (t : Timeline) : Option Timeline :=
  t.sweepTicks.bind fun ticks =>
    if ticks.isDue t.now then
      some ({ t with sweepTicks := some (ticks.next t.now) }.apply (.sweep t.now))
    else none

/-- The first key of a batch for which the near sources are still to be consulted. -/
def toConsult? (b : Batch) : Option AskedKey :=
  match b.progress with
  | .open (asked :: _) _ => some asked
  | _ => none

/-- A batch consults the near sources for its next key. -/
def consult? (t : Timeline) : Option Timeline :=
  if t.isRunning then
    t.service.batches.findSome? fun b =>
      (toConsult? b).map fun asked =>
        let content := t.store.content t.now
        let c := (t.service.nearSources content).consult asked
        { t with entriesRead := t.entriesRead ++ c.entries }.apply (.consult b.id content)
  else none

/-- A batch sends for the authority's answer. -/
def ask? (t : Timeline) : Option Timeline :=
  if t.isRunning then
    t.service.batches.findSome? fun b =>
      if t.errands.any (·.batch == some b.id) then none
      else b.question?.map fun asked => t.send (some b.id) (.ofBatch asked)
  else none

/-- Whether an errand for the global configuration is under way. -/
def isPolling (t : Timeline) : Bool := t.errands.any (·.batch.isNone)

def poll? (t : Timeline) : Option Timeline :=
  t.pollTicks.bind fun ticks =>
    if !t.isPolling && ticks.isDue t.now then
      some ({ t with pollTicks := some (ticks.next t.now) }.send none .forGlobal)
    else none

/-- The first errand that is due goes on. -/
def proceed? (t : Timeline) : Option Timeline :=
  match t.errands.span fun e => t.now.nanos < e.wake.nanos with
  | (before, e :: after) => some ({ t with errands := before ++ after }.proceed e)
  | (_, []) => none

/-- Something that can be done at once. Errands under way go on before new ones are sent
out. -/
def act? (t : Timeline) : Option Timeline :=
  if t.started then
    t.receive? <|> t.proceed? <|> t.complete? <|> t.dispatch? <|> t.reload? <|> t.sweep? <|>
      t.consult? <|> t.ask? <|> t.poll?
  else some t.start

/-- The instants at which something is due. -/
def wakes (t : Timeline) : List Instant :=
  let ticks := [t.batchTicks, t.fileTicks, t.sweepTicks, t.pollTicks].filterMap id
  (ticks.filterMap Ticker.wake? ++ t.errands.map Errand.wake).filter fun wake =>
    t.now.nanos < wake.nanos

/-- The next instant at which something is due. -/
def nextWake? (t : Timeline) : Option Instant :=
  (t.wakes.map (·.nanos)).min?.map Instant.mk

/-- Lets time go on until `target`, in at most `fuel` steps. -/
def runUntil (target : Instant) : Nat → Timeline → Timeline
  | 0, t => t
  | fuel + 1, t =>
    match t.act? with
    | some t => runUntil target fuel t
    | none =>
      match t.nextWake? with
      | some wake =>
        if wake.nanos ≤ target.nanos then runUntil target fuel { t with now := wake }
        else { t with now := target }
      | none => { t with now := target }

/-- More steps than are ever taken at a stretch, unless queries retry without waiting. -/
def stepBound : Nat := 1000000000000

def sleep (t : Timeline) (d : Duration) : Timeline := runUntil (t.now.after d) stepBound t

/-- Lets the worker go on until it is gone. -/
def runDown : Nat → Timeline → Timeline
  | 0, t => t
  | fuel + 1, t =>
    if t.isRunning then
      match t.act? with
      | some t => runDown fuel t
      | none => t
    else t

/-- Stops the worker and waits for it. -/
def stop (t : Timeline) : Timeline := runDown stepBound (t.apply .requestStop)

end Timeline

end AdmissionCache
