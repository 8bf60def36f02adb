import AdmissionCache.Time

namespace AdmissionCache

/-- How long to wait between the attempts of one query: the `n`-th retry waits
`initial * multiplier ^ n`, at most `maximum`. -/
structure RetryPlan where
  initial : Duration := .ofSecs 1
  multiplier : Binary64 := .finite false (3 <<< 51) (-52)
  maximum : Duration := .ofSecs 60
  deriving DecidableEq, Repr

namespace RetryPlan

/-- The greatest exponent that the multiplier is raised to. -/
def exponentBound : Nat := 1 <<< 31 - 1

/-- The wait before the `n`-th retry. A product that is no duration gives way to the
maximum. -/
def wait (plan : RetryPlan) (n : Nat) : Duration :=
  let factor := plan.multiplier.pow (min n exponentBound)
  match Duration.ofSeconds? (plan.initial.toSeconds.mul factor) with
  | some d => d.min plan.maximum
  | none => plan.maximum

def retryBound : Nat := 1 <<< 32 - 1

/-- The count after one more retry. -/
def nextRetry (retries : Nat) : Nat := min (retries + 1) retryBound

/-- The waits of `count` retries after `retries` earlier ones, and the final count. -/
def waits (plan : RetryPlan) : Nat → Nat → List Duration × Nat
  | retries, 0 => ([], retries)
  | retries, count + 1 =>
    let n := nextRetry retries
    let (rest, final) := waits plan n count
    (plan.wait n :: rest, final)

theorem wait_le_maximum (plan : RetryPlan) (n : Nat) :
    (plan.wait n).nanos ≤ plan.maximum.nanos := by
  simp only [wait]
  split
  · exact Nat.min_le_right ..
  · exact Nat.le_refl _

end RetryPlan

end AdmissionCache
