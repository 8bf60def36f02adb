import AdmissionCache.Query.Course

namespace AdmissionCache

/-- How an attempt ends for which the timer of its cut fires at `cut`: with its reply if that is
there no later, and otherwise with the cut. -/
inductive Attempt.EndsBy (a : Attempt) (cut : Instant) : Reply → Instant → AttemptResult → Prop
  | reply {delay result} : (a.replied delay).nanos ≤ cut.nanos →
      EndsBy a cut (.after delay result) (a.replied delay) result
  | late {delay result} : cut.nanos < (a.replied delay).nanos →
      EndsBy a cut (.after delay result) cut (.error .timedOut)
  | silent : EndsBy a cut .never cut (.error .timedOut)

theorem Attempt.outcome_endsBy (a : Attempt) (r : Reply) :
    a.EndsBy a.cutOff r (a.outcome r).1 (a.outcome r).2 := by
  cases r with
  | never => exact .silent
  | after delay result =>
    by_cases inTime : a.admits delay = true
    · rw [outcome_of_admits inTime]
      exact .reply (of_decide_eq_true inTime)
    · rw [outcome_of_not_admits inTime]
      exact .late (Nat.not_le.mp fun early => inTime (decide_eq_true early))

namespace Query

/-- When the timer of the deadline fires. -/
def limit (q : Query) : Instant := q.deadline.ceilMilli

/-- What holds of every state of a query: nothing begins or ends after the timer of the deadline
has fired, and no wait is due after the deadline. -/
def Timely (q : Query) : QueryState → Prop
  | .trying a => a.began.ceilMilli.nanos ≤ q.limit.nanos ∧
      a.allowance = q.settings.attemptTimeout.min (q.deadline.since a.began)
  | .pausing _ due => due.nanos ≤ q.deadline.nanos
  | .ended e => e.time.nanos ≤ q.limit.nanos
  | .lost => True

variable {q : Query} {a : Attempt} {now : Instant}

theorem attempt_timely (number : Nat) (inTime : now.ceilMilli.nanos ≤ q.limit.nanos) :
    q.Timely (.trying (q.attempt number now)) := ⟨inTime, rfl⟩

/-- The cut of an attempt comes in time, even if no time was left when the attempt began. -/
theorem Timely.cutOff_le (timely : q.Timely (.trying a)) : a.cutOff.nanos ≤ q.limit.nanos := by
  obtain ⟨began, allowed⟩ := timely
  have within : a.allowance.nanos ≤ q.deadline.nanos - a.began.nanos := by
    rw [allowed]
    exact Nat.min_le_right ..
  by_cases left : a.began.nanos ≤ q.deadline.nanos
  · have reached : (a.began.after a.allowance).nanos ≤ q.deadline.nanos := by
      simp only [Instant.after]
      omega
    exact Instant.ceilMilli_mono reached
  · have reached : (a.began.after a.allowance).nanos ≤ a.began.nanos := by
      simp only [Instant.after]
      omega
    exact Nat.le_trans (Instant.ceilMilli_mono reached) began

theorem afterAttempt_timely (number : Nat) (result : AttemptResult) (inTime : now.nanos ≤ q.limit.nanos) :
    q.Timely (q.afterAttempt number now result) := by
  unfold afterAttempt
  split
  · exact inTime
  · split
    · split
      · trivial
      · split
        · exact inTime
        · rename_i notLater
          exact Nat.not_lt.mp notLater
    · exact inTime

theorem next_timely {state : QueryState} (timely : q.Timely state) (replies : Nat → Reply) :
    q.Timely (q.next replies state) := by
  cases state with
  | trying a => exact afterAttempt_timely _ _ (Nat.le_trans (a.outcome_le_cutOff _) timely.cutOff_le)
  | pausing number due =>
    refine attempt_timely _ ?_
    rw [Instant.ceilMilli_ceilMilli]
    exact Instant.ceilMilli_mono timely
  | ended e => exact timely
  | lost => trivial

theorem stateAfter_timely (started : q.started.nanos ≤ q.deadline.nanos) (replies : Nat → Reply) (n : Nat) :
    q.Timely (q.stateAfter replies n) := by
  induction n with
  | zero => exact attempt_timely 1 (Instant.ceilMilli_mono started)
  | succ n ih => exact next_timely ih replies

theorem start?_eq_some {settings : QuerySettings} (started : start? settings now = some q) :
    q = ⟨settings, now, now.after settings.queryTimeout⟩ := by
  unfold start? Instant.add? at started
  split at started
  · cases started
    rfl
  · cases started

/-- A wait begins when the attempt before it has ended. -/
theorem afterAttempt_pausing {number n : Nat} {result : AttemptResult} {due : Instant}
    (pauses : q.afterAttempt number now result = .pausing n due) :
    n = number ∧ due = now.after (q.settings.plan.wait number) := by
  unfold afterAttempt at pauses
  split at pauses
  · cases pauses
  · split at pauses
    · split at pauses
      · cases pauses
      · rename_i sum
        split at pauses
        · cases pauses
        · cases pauses
          unfold Instant.add? at sum
          split at sum
          · exact ⟨rfl, (Option.some.inj sum).symm⟩
          · cases sum
    · cases pauses

/-- In every state of a query, an attempt under way is cut off by the timer of its own time or
of the time left to the deadline, a wait after it is due no later than the deadline, and neither
does an attempt begin nor the query end after the timer of the deadline has fired. -/
theorem query_keeps_to_deadline (settings : QuerySettings) (now : Instant) (q : Query) (replies : Nat → Reply)
    (n : Nat) (started : start? settings now = some q) :
    let deadline := now.after settings.queryTimeout
    (∀ a, q.stateAfter replies n = .trying a → a.began.nanos ≤ deadline.ceilMilli.nanos ∧
      ∃ time result, q.stateAfter replies (n + 1) = q.afterAttempt a.number time result ∧
        a.EndsBy (a.began.after (settings.attemptTimeout.min (deadline.since a.began))).ceilMilli
          (replies a.number) time result ∧
        ∀ number due, q.stateAfter replies (n + 1) = .pausing number due →
          due = time.after (settings.plan.wait number) ∧ due.nanos ≤ deadline.nanos) ∧
    (∀ number due, q.stateAfter replies n = .pausing number due → due.nanos ≤ deadline.nanos) ∧
    (∀ e, q.stateAfter replies n = .ended e → e.time.nanos ≤ deadline.ceilMilli.nanos) := by
  intro deadline
  have shape := start?_eq_some started
  have timely := stateAfter_timely (q := q) (by rw [shape]; exact Nat.le_add_right ..) replies
  have endsAt : q.deadline = deadline := by rw [shape]
  have own : q.settings = settings := by rw [shape]
  refine ⟨fun a trying => ?_, fun number due pausing => ?_, fun e ended => ?_⟩
  · have here := timely n
    rw [trying] at here
    have goesOn : q.stateAfter replies (n + 1) =
        q.afterAttempt a.number (a.outcome (replies a.number)).1 (a.outcome (replies a.number)).2 := by
      rw [stateAfter, trying]
      rfl
    refine ⟨?_, _, _, goesOn, ?_, fun number due pausing => ?_⟩
    · rw [← endsAt]
      exact Nat.le_trans (Instant.le_ceilMilli _) here.1
    · have ends := a.outcome_endsBy (replies a.number)
      rw [Attempt.cutOff, here.2, own, endsAt] at ends
      exact ends
    · have later := timely (n + 1)
      rw [pausing] at later
      rw [goesOn] at pausing
      obtain ⟨rfl, same⟩ := afterAttempt_pausing pausing
      rw [own] at same
      exact ⟨same, endsAt ▸ later⟩
  · have here := timely n
    rw [pausing] at here
    exact endsAt ▸ here
  · have here := timely n
    rw [ended] at here
    rw [← endsAt]
    exact here

/-- The second attempt begins with less than a millisecond left and is not answered; the query
ends when the timer of the deadline fires. -/
theorem query_ends_with_its_deadline :
    let settings : QuerySettings := { queryTimeout := ⟨1500000300⟩ }
    let q : Query := ⟨settings, .origin, ⟨1500000300⟩⟩
    let replies : Nat → Reply := fun n => if n = 1 then .after .zero (.error (.refused ⟨503⟩)) else .never
    start? settings .origin = some q ∧
      ∃ e, q.stateAfter replies 3 = .ended e ∧ e.time = .ofMillis 1501 ∧
        e.time.nanos ≤ (Instant.origin.after settings.queryTimeout).ceilMilli.nanos := by
  intro settings q replies
  have started : start? settings .origin = some q := by decide +kernel
  have time : (match q.stateAfter replies 3 with | .ended e => some e.time | _ => none) = some (.ofMillis 1501) := by
    decide +kernel
  cases reached : q.stateAfter replies 3 with
  | ended e =>
    rw [reached] at time
    have kept := (query_keeps_to_deadline settings .origin q replies 3 started).2.2 e reached
    exact ⟨started, e, rfl, Option.some.inj time, kept⟩
  | _ =>
    rw [reached] at time
    cases time

end Query

end AdmissionCache
