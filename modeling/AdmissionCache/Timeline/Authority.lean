import AdmissionCache.Query.Course

namespace AdmissionCache

/-- How a prescribed attempt ends: with a result, or by breaking down whoever asks. -/
inductive Prescription
  | result (result : AttemptResult)
  | breakdown

/-- What is prescribed for one attempt: how long it takes, and how it ends. Where nothing
is prescribed, the tables answer. -/
structure PrescribedAttempt where
  delay : Option Duration := none
  ending : Option Prescription := none

/-- An authority with known behaviour: it answers from tables, unless an answer was prescribed for
an attempt or for all attempts. -/
structure ScriptedAuthority where
  projects : KeyMap Json := ∅
  pending : KeySet := ∅
  global : Option Json := none
  globalStatus : Option GlobalStatus := none
  delay : Duration := .zero
  nextProject : List PrescribedAttempt := []
  nextGlobal : List PrescribedAttempt := []
  always : Option Prescription := none

namespace ScriptedAuthority

/-- Adds what the tables say about a key to a response. -/
def describe (a : ScriptedAuthority) (request : ConfigsRequest) (r : ConfigsResponse)
    (key : ProjectKey) : ConfigsResponse :=
  if a.pending.contains key then { r with pending := r.pending ++ [key] }
  else
    let document := a.projects.get? key
    let stored := document.bind fun d => (d.member? "rev").bind (·.string?)
    if stored.isSome ∧ stored = request.revision? key then
      { r with unchanged := r.unchanged ++ [key] }
    else { r with configs := r.configs.insert key document }

/-- The answer of the tables. The global configuration is told on request only. -/
def respond (a : ScriptedAuthority) (request : ConfigsRequest) : ConfigsResponse :=
  let first : ConfigsResponse :=
    if request.global then { global := a.global, globalStatus := a.globalStatus } else {}
  request.publicKeys.foldl (a.describe request) first

/-- Takes what is prescribed for the next attempt. -/
def take (a : ScriptedAuthority) : QueryKind → PrescribedAttempt × ScriptedAuthority
  | .project => (a.nextProject.head?.getD {}, { a with nextProject := a.nextProject.tail })
  | .global => (a.nextGlobal.head?.getD {}, { a with nextGlobal := a.nextGlobal.tail })

/-- How an attempt ends that comes to its end now. -/
def ending (a : ScriptedAuthority) (p : PrescribedAttempt) (request : ConfigsRequest) :
    Prescription :=
  match a.always, p.ending with
  | some ending, _ => ending
  | none, some ending => ending
  | none, none => .result (.ok (a.respond request))

end ScriptedAuthority

end AdmissionCache
