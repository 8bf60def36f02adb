import AdmissionCache.Time

namespace AdmissionCache

/-- The end of the stale period does not fit a duration, so an age beyond `expiry`
cannot be classified. -/
inductive PeriodOverflow
  | graceEnd
  deriving DecidableEq, Repr

/-- How long what was learned about a project counts: it is fresh for `expiry`, stale for `grace`
after that, and expired from then on. -/
structure Policy where
  expiry : Duration
  grace : Duration
  missExpiry : Duration
  deriving DecidableEq, Repr

inductive Freshness
  | fresh
  | stale
  | expired
  deriving DecidableEq, Repr

def Freshness.name : Freshness → String
  | .fresh => "fresh"
  | .stale => "stale"
  | .expired => "expired"

namespace Policy

/-- Classifies what was learned at `fetchedAt`. An instant in the future counts as
just learned; the end of the stale period is only computed once the expiry is over. -/
def classify (p : Policy) (fetchedAt now : Instant) : Except PeriodOverflow Freshness :=
  let age := now.since fetchedAt
  if age.nanos < p.expiry.nanos then .ok .fresh
  else
    match p.expiry.add? p.grace with
    | none => .error .graceEnd
    | some graceEnd => if age.nanos < graceEnd.nanos then .ok .stale else .ok .expired

/-- Whether a project found missing at `checkedAt` has to be looked for again. -/
def missExpired (p : Policy) (checkedAt now : Instant) : Bool :=
  p.missExpiry.nanos ≤ (now.since checkedAt).nanos

/-- Whether every age can be classified. -/
def Bounded (p : Policy) : Prop := p.expiry.nanos + p.grace.nanos < Duration.bound

instance (p : Policy) : Decidable p.Bounded := inferInstanceAs (Decidable (_ < _))

end Policy

end AdmissionCache
