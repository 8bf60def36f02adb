import AdmissionCache.Service.State

namespace AdmissionCache

def Lookup.samples (l : Lookup) : List Sample :=
  ⟨.lookup, [("result", l.decision.name)], 1⟩ ::
    if l.scheduleFetch then [⟨.fetchScheduled, [], 1⟩] else []

/-- What is left of a call once its fetch is sent or given back: a check has its decision
still to judge. -/
def Call.rest (c : Call) : List Call :=
  match c.purpose with
  | .lookup => []
  | .check => [{ c with stage := .decided }]

namespace Service

/-- Begins a call: reads the cache, and leaves a call behind if something is still to be
done. -/
def look (s : Service) (purpose : Purpose) (key : ProjectKey) (now : Instant) :
    Except PeriodOverflow (Service × Decision) := do
  let (cache, l) ← s.cache.get key now
  let calls :=
    if l.scheduleFetch then s.calls ++ [⟨purpose, key, l.decision, .claimed⟩]
    else
      match purpose with
      | .lookup => s.calls
      | .check => s.calls ++ [⟨purpose, key, l.decision, .decided⟩]
  let read : Service := { s with cache, calls }
  .ok (read.record l.samples, l.decision)

/-- Passes an outcome on, or counts it. -/
def emit (s : Service) (o : Outcome) : Service :=
  match s.settings.sink with
  | .channel => { s with outcomes := s.outcomes ++ [o] }
  | .counter => s.record [.ofRejection o]

/-- Judges a decision: a rejected item leaves an outcome. -/
def judge (s : Service) (key : ProjectKey) (d : Decision) : Service :=
  match d.admission.outcome? key with
  | some o => s.emit o
  | none => s

def replaceCall (s : Service) (n : Nat) (calls : List Call) : Service :=
  { s with calls := s.calls.take n ++ calls ++ s.calls.drop (n + 1) }

/-- Leads the `n`-th call to its next stage. -/
def advance (s : Service) (n : Nat) : Service :=
  match s.calls[n]? with
  | none => s
  | some call =>
    match call.stage with
    | .claimed =>
      if s.status.listens then
        let sent : Service := { s with mail := s.mail ++ [.fetch call.key] }
        sent.replaceCall n call.rest
      else s.replaceCall n [{ call with stage := .refused }]
    | .refused =>
      let freed : Service := { s with cache := s.cache.fail call.key }
      freed.replaceCall n call.rest
    | .decided => (s.replaceCall n []).judge call.key call.decision

/-- Leads the `n`-th call to its end; a call has at most three stages. -/
def finish (s : Service) (n : Nat) : Service := ((s.advance n).advance n).advance n

/-- A call that is led to its end with nothing happening in between. -/
def call (s : Service) (purpose : Purpose) (key : ProjectKey) (now : Instant) :
    Except PeriodOverflow (Service × Decision) := do
  let (s', d) ← s.look purpose key now
  .ok (s'.finish s.calls.length, d)

/-- The configuration of a key if it may be used now. -/
def projectConfig (s : Service) (key : ProjectKey) (now : Instant) :
    Except PeriodOverflow (Option ProjectConfig) :=
  s.cache.peek key now

def requestStop (s : Service) : Service :=
  if s.status.listens then { s with mail := s.mail ++ [.stop] } else s

end Service

end AdmissionCache
