import AdmissionCache.Proofs.Query.Budget
import Mathlib.Data.List.Basic

namespace AdmissionCache

namespace RetryPlan

/-- Beyond the bound of its exponent the multiplier is not raised any further. -/
theorem wait_congr (plan : RetryPlan) {m n : Nat} (same : min m exponentBound = min n exponentBound) :
    plan.wait m = plan.wait n := by
  simp only [wait, same]

/-- The count of the retries stops growing where the waits have long done so. -/
theorem waits_eq (plan : RetryPlan) (retries count : Nat) :
    (plan.waits retries count).1 = (List.range count).map fun n => plan.wait (retries + n + 1) := by
  induction count generalizing retries with
  | zero => rfl
  | succ count ih =>
    have later (n : Nat) : plan.wait (nextRetry retries + n) = plan.wait (retries + 1 + n) := by
      apply wait_congr
      simp only [nextRetry, retryBound, exponentBound]
      omega
    have rest : (plan.waits (nextRetry retries) count).1 =
        (List.range count).map fun n => plan.wait (retries + (n + 1) + 1) := by
      rw [ih]
      refine List.map_congr_left fun n _ => ?_
      rw [Nat.add_assoc, later]
      congr 1
      omega
    rw [List.range_succ_eq_map, List.map_cons, List.map_map]
    exact congrArg₂ List.cons (later 0) rest

end RetryPlan

/-- An answer without delay ends the attempt when it begins, however little time it has. -/
theorem Attempt.outcome_at_once (a : Attempt) (result : AttemptResult) :
    a.outcome (.after .zero result) = (a.began, result) := by
  rw [outcome_of_admits a.admits_zero, replied_zero]

namespace Query

/-- When the attempt after `n` retries begins if no attempt takes time: a wait ends when its
timer fires. -/
def beginning (q : Query) : Nat → Instant
  | 0 => q.started
  | n + 1 => ((q.beginning n).after (q.settings.plan.wait (n + 1))).ceilMilli

/-- Whether a query tries again after such a result, if there is time. -/
def TriesAgain (result : AttemptResult) : Prop := ∃ fault, result = .error fault ∧ fault.isRetryable = true

section Course
variable {q : Query} {replies : Nat → Reply} {results : Nat → AttemptResult}

/-- What follows the attempt after `n` retries is read off its result. -/
theorem next_at_once (prompt : ∀ n, replies n = .after .zero (results n)) (n : Nat) :
    q.next replies (.trying (q.attempt (n + 1) (q.beginning n))) =
      q.afterAttempt (n + 1) (q.beginning n) (results (n + 1)) := by
  have ends : (q.attempt (n + 1) (q.beginning n)).outcome (replies (n + 1)) =
      (q.beginning n, results (n + 1)) := by
    rw [prompt]
    exact Attempt.outcome_at_once _ _
  have number : (q.attempt (n + 1) (q.beginning n)).number = n + 1 := rfl
  rw [next, number, ends]

/-- A wait that the deadline allows is begun. -/
theorem afterAttempt_waits {number : Nat} {now : Instant} {result : AttemptResult} (again : TriesAgain result)
    (inTime : now.nanos + (q.settings.plan.wait number).nanos ≤ q.deadline.nanos)
    (inRange : q.deadline.nanos < Instant.bound) :
    q.afterAttempt number now result = .pausing number (now.after (q.settings.plan.wait number)) := by
  obtain ⟨fault, rfl, retryable⟩ := again
  have due : now.add? (q.settings.plan.wait number) = some (now.after (q.settings.plan.wait number)) :=
    if_pos (by omega)
  have early : ¬ q.deadline.nanos < (now.after (q.settings.plan.wait number)).nanos := Nat.not_lt.mpr inTime
  simp only [afterAttempt, retryable, due, early, if_true, if_false]

/-- Before a wait that the deadline does not allow, the query gives up. -/
theorem afterAttempt_gives_up {number : Nat} {now : Instant} {fault : AttemptFault}
    (retryable : fault.isRetryable = true)
    (late : q.deadline.nanos < now.nanos + (q.settings.plan.wait number).nanos)
    (inRange : now.nanos + (q.settings.plan.wait number).nanos < Instant.bound) :
    q.afterAttempt number now (.error fault) =
      .ended ⟨.ofNat number, now, .error (.exhausted (.ofNat number) fault)⟩ := by
  have due : now.add? (q.settings.plan.wait number) = some (now.after (q.settings.plan.wait number)) :=
    if_pos inRange
  have tooLate : q.deadline.nanos < (now.after (q.settings.plan.wait number)).nanos := late
  simp only [afterAttempt, retryable, due, tooLate, if_true]

/-- A result after which the query does not try again is its own. -/
theorem afterAttempt_settles {number : Nat} {now : Instant} {result : AttemptResult} (settles : ¬ TriesAgain result) :
    q.afterAttempt number now result = .ended ⟨.ofNat number, now, result.mapError .attempt⟩ := by
  cases result with
  | ok response => rfl
  | error fault =>
    have final : ¬ fault.isRetryable = true := fun retryable => settles ⟨fault, rfl, retryable⟩
    simp only [afterAttempt, final]
    rfl

/-- As long as every attempt is tried again in time, a query makes one attempt for two of its
states. -/
theorem course_retries (inRange : q.deadline.nanos < Instant.bound)
    (prompt : ∀ n, replies n = .after .zero (results n)) (k m : Nat)
    (again : ∀ n < k, TriesAgain (results (n + 1)))
    (inTime : ∀ n < k, (q.beginning n).nanos + (q.settings.plan.wait (n + 1)).nanos ≤ q.deadline.nanos) :
    q.course replies (2 * k + m) q.first =
      (((List.range k).map fun n => q.attempt (n + 1) (q.beginning n)) ++
          (q.course replies m (.trying (q.attempt (k + 1) (q.beginning k)))).1,
        (q.course replies m (.trying (q.attempt (k + 1) (q.beginning k)))).2) := by
  induction k generalizing m with
  | zero =>
    rw [Nat.mul_zero, Nat.zero_add]
    rfl
  | succ k ih =>
    have waits : q.next replies (.trying (q.attempt (k + 1) (q.beginning k))) =
        .pausing (k + 1) ((q.beginning k).after (q.settings.plan.wait (k + 1))) := by
      rw [next_at_once prompt]
      exact afterAttempt_waits (again k (by omega)) (inTime k (by omega)) inRange
    have twoStates : q.course replies (m + 2) (.trying (q.attempt (k + 1) (q.beginning k))) =
        (q.attempt (k + 1) (q.beginning k) ::
            (q.course replies m (.trying (q.attempt (k + 2) (q.beginning (k + 1))))).1,
          (q.course replies m (.trying (q.attempt (k + 2) (q.beginning (k + 1))))).2) := by
      rw [course, waits]
      rfl
    have split : 2 * (k + 1) + m = 2 * k + (m + 2) := by omega
    rw [split, ih (m + 2) (fun n less => again n (by omega)) (fun n less => inTime n (by omega)), twoStates,
      List.range_succ, List.map_append, List.append_assoc]
    rfl

/-- The attempts up to the one that ends the query, and that end. -/
theorem course_ends (inRange : q.deadline.nanos < Instant.bound)
    (prompt : ∀ n, replies n = .after .zero (results n)) {k m : Nat} {e : QueryEnd}
    (again : ∀ n < k, TriesAgain (results (n + 1)))
    (inTime : ∀ n < k, (q.beginning n).nanos + (q.settings.plan.wait (n + 1)).nanos ≤ q.deadline.nanos)
    (ends : q.afterAttempt (k + 1) (q.beginning k) (results (k + 1)) = .ended e) (enough : 2 * k < m) :
    q.course replies m q.first =
      ((List.range (k + 1)).map fun n => q.attempt (n + 1) (q.beginning n), .ended e) := by
  obtain ⟨rest, rfl⟩ : ∃ rest, m = 2 * k + (rest + 1) := ⟨m - (2 * k + 1), by omega⟩
  have last : q.course replies (rest + 1) (.trying (q.attempt (k + 1) (q.beginning k))) =
      ([q.attempt (k + 1) (q.beginning k)], .ended e) := by
    rw [course, next_at_once prompt, ends]
    cases rest <;> rfl
  rw [course_retries inRange prompt k (rest + 1) again inTime, last, List.range_succ, List.map_append]
  rfl

/-- The end of the query that the authority sees. -/
theorem exchange_ends {authority : Nat → ConfigsRequest → Reply}
    {answers : Nat → ConfigsRequest → AttemptResult} {request : ConfigsRequest}
    (inRange : q.deadline.nanos < Instant.bound)
    (prompt : ∀ n r, authority n r = .after .zero (answers n r)) {k m : Nat} {e : QueryEnd}
    (again : ∀ n < k, TriesAgain (answers (n + 1) request))
    (inTime : ∀ n < k, (q.beginning n).nanos + (q.settings.plan.wait (n + 1)).nanos ≤ q.deadline.nanos)
    (ends : q.afterAttempt (k + 1) (q.beginning k) (answers (k + 1) request) = .ended e) (enough : 2 * k < m) :
    q.exchange authority request m = ((List.range (k + 1)).map fun n => (q.beginning n, request), .ended e) := by
  have course := course_ends inRange (fun n => prompt n request) again inTime ends enough
  rw [exchange, course]
  exact congrArg (·, QueryState.ended e) List.map_map

theorem start?_deadline_lt {settings : QuerySettings} {now : Instant} (started : start? settings now = some q) :
    q.deadline.nanos < Instant.bound := by
  unfold start? Instant.add? at started
  split at started
  · rename_i fits
    cases started
    exact fits
  · cases started

end Course

end Query

end AdmissionCache
