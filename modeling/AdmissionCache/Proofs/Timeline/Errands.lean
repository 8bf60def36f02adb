import AdmissionCache.Proofs.Query.Budget
import AdmissionCache.Timeline.Basic

namespace AdmissionCache

namespace Query
variable {q : Query} {replies replies' : Nat → Reply} {state : QueryState}

/-- No attempt follows another one without a wait. -/
theorem afterAttempt_ne_trying (q : Query) (number : Nat) (now : Instant) (result : AttemptResult) (a : Attempt) :
    q.afterAttempt number now result ≠ .trying a := by
  unfold afterAttempt
  split
  · nofun
  · split
    · split
      · nofun
      · split <;> nofun
    · nofun

/-- The place of a state in the course of its query gives away how many attempts there have been. -/
def Numbered (n : Nat) : QueryState → Prop
  | .trying a => n + 2 = 2 * a.number
  | .pausing number _ => n + 1 = 2 * number
  | _ => True

theorem stateAfter_numbered (q : Query) (replies : Nat → Reply) (n : Nat) :
    Numbered n (q.stateAfter replies n) := by
  induction n with
  | zero => exact rfl
  | succ n ih =>
    rw [stateAfter]
    cases at_n : q.stateAfter replies n with
    | trying a =>
      rw [at_n] at ih
      have place : n + 2 = 2 * a.number := ih
      show Numbered (n + 1) (q.afterAttempt a.number (a.outcome (replies a.number)).1 (a.outcome (replies a.number)).2)
      cases later : q.afterAttempt a.number (a.outcome (replies a.number)).1 (a.outcome (replies a.number)).2 with
      | trying _ => exact absurd later (q.afterAttempt_ne_trying _ _ _ _)
      | pausing number due =>
        obtain ⟨rfl, -⟩ := afterAttempt_pausing later
        exact place
      | ended e => trivial
      | lost => trivial
    | pausing number due =>
      rw [at_n] at ih
      have place : n + 1 = 2 * number := ih
      show n + 1 + 2 = 2 * (number + 1)
      omega
    | ended e => trivial
    | lost => trivial

/-- A state depends on the replies to the attempts before it only. -/
theorem stateAfter_congr (n : Nat) (same : ∀ k, 2 * k < n + 2 → replies k = replies' k) :
    q.stateAfter replies n = q.stateAfter replies' n := by
  induction n with
  | zero => rfl
  | succ n ih =>
    have before := ih fun k earlier => same k (by omega)
    have place := stateAfter_numbered q replies' n
    rw [stateAfter, stateAfter, before]
    cases at_n : q.stateAfter replies' n with
    | trying a =>
      rw [at_n] at place
      have number : n + 2 = 2 * a.number := place
      rw [next, next, same a.number (by omega)]
    | pausing number due => rfl
    | ended e => rfl
    | lost => rfl

/-- Whether a query comes to a state, given some reply to each of its attempts. -/
def Reaches (q : Query) (state : QueryState) : Prop := ∃ replies n, q.stateAfter replies n = state

theorem reaches_first (q : Query) : q.Reaches q.first := ⟨fun _ => .never, 0, rfl⟩

/-- Whatever the reply to the attempt under way, the query comes to the state after it. -/
theorem Reaches.next (reached : q.Reaches state) (reply : Reply) : q.Reaches (q.next (fun _ => reply) state) := by
  obtain ⟨replies, n, rfl⟩ := reached
  let given : Nat → Reply := fun k => if 2 * k < n + 2 then replies k else reply
  have before : q.stateAfter given n = q.stateAfter replies n := stateAfter_congr n fun k earlier => if_pos earlier
  refine ⟨given, n + 1, ?_⟩
  have place := stateAfter_numbered q replies n
  rw [stateAfter, before]
  cases at_n : q.stateAfter replies n with
  | trying a =>
    rw [at_n] at place
    have number : n + 2 = 2 * a.number := place
    have last : given a.number = reply := if_neg (by omega)
    rw [Query.next, Query.next, last]
  | pausing number due => rfl
  | ended e => rfl
  | lost => rfl

end Query

namespace Errand
variable {settings : QuerySettings} {now : Instant} {e : Errand}

/-- Whether an errand is where its query can be: within an attempt or a wait of it, which is not
over before `now`. -/
structure OnCourse (settings : QuerySettings) (now : Instant) (e : Errand) : Prop where
  started : Query.start? settings e.query.started = some e.query
  reached : e.query.Reaches e.state
  underWay : (∃ a, e.state = .trying a) ∨ ∃ number due, e.state = .pausing number due
  ahead : now.nanos ≤ e.wake.nanos

/-- Whether an errand has gone on as its query does, or broken down. -/
inductive Proceeded (settings : QuerySettings) (now : Instant) (e : Errand) : Prop
  | underWay (onCourse : e.OnCourse settings now)
  | finished (outcome : QueryEnd) (ended : e.state = .ended outcome)
    (started : Query.start? settings e.query.started = some e.query) (reached : e.query.Reaches e.state)
  | broken (lost : e.state = .lost)

theorem OnCourse.mono {later : Instant} (onCourse : e.OnCourse settings now) (ahead : later.nanos ≤ e.wake.nanos) :
    e.OnCourse settings later := { onCourse with ahead }

/-- An attempt that begins now is not over yet. -/
theorem onCourse_of_attempt {a : Attempt} (started : Query.start? settings e.query.started = some e.query)
    (reached : e.query.Reaches e.state) (trying : e.state = .trying a) (begins : a.began = now) :
    e.OnCourse settings now := by
  refine ⟨started, reached, .inl ⟨a, trying⟩, ?_⟩
  rw [wake, trying, ← begins]
  show a.began.nanos ≤ (if a.admits e.delay then a.replied e.delay else a.cutOff).nanos
  split
  · exact a.began_le_replied e.delay
  · exact a.began_le_cutOff

/-- What follows an attempt that ends now is a wait that is not over yet, or the end of the errand. -/
theorem proceeded_afterAttempt {number : Nat} {result : AttemptResult}
    (started : Query.start? settings e.query.started = some e.query)
    (reached : e.query.Reaches (e.query.afterAttempt number now result)) :
    { e with state := e.query.afterAttempt number now result }.Proceeded settings now := by
  cases follows : e.query.afterAttempt number now result with
  | trying a => exact absurd follows (e.query.afterAttempt_ne_trying _ _ _ _)
  | pausing n due =>
    obtain ⟨-, rfl⟩ := Query.afterAttempt_pausing follows
    rw [follows] at reached
    refine .underWay ⟨started, reached, .inr ⟨n, _, rfl⟩, ?_⟩
    exact Nat.le_trans (Nat.le_add_right _ _) (Instant.le_ceilMilli _)
  | ended outcome =>
    rw [follows] at reached
    exact .finished outcome rfl started reached
  | lost => exact .broken rfl

/-- An attempt that is due goes on as its query does after the reply that comes now. -/
theorem OnCourse.replied {a : Attempt} (onCourse : e.OnCourse settings now) (due : e.wake = now)
    (trying : e.state = .trying a) (inTime : a.admits e.delay = true) (result : AttemptResult) :
    { e with state := e.query.afterAttempt a.number now result }.Proceeded settings now := by
  have now_eq : now = a.replied e.delay := by
    rw [← due, wake, trying]
    exact if_pos inTime
  have goesOn : e.query.next (fun _ => .after e.delay result) (.trying a) =
      e.query.afterAttempt a.number now result := by
    rw [Query.next, Attempt.outcome_of_admits inTime, now_eq]
  refine proceeded_afterAttempt onCourse.started ?_
  rw [← goesOn, ← trying]
  exact onCourse.reached.next _

/-- An attempt that is cut off goes on as its query does when no reply comes. -/
theorem OnCourse.cut {a : Attempt} (onCourse : e.OnCourse settings now) (due : e.wake = now)
    (trying : e.state = .trying a) (late : ¬ a.admits e.delay = true) :
    { e with state := e.query.afterAttempt a.number now (.error .timedOut) }.Proceeded settings now := by
  have now_eq : now = a.cutOff := by
    rw [← due, wake, trying]
    exact if_neg late
  have goesOn : e.query.next (fun _ => .never) (.trying a) = e.query.afterAttempt a.number now (.error .timedOut) := by
    rw [Query.next, Attempt.outcome, now_eq]
  refine proceeded_afterAttempt onCourse.started ?_
  rw [← goesOn, ← trying]
  exact onCourse.reached.next _

/-- After a wait the query makes its next attempt. -/
theorem OnCourse.retried {number : Nat} {deadline : Instant} (onCourse : e.OnCourse settings now) (due : e.wake = now)
    (pausing : e.state = .pausing number deadline) :
    e.query.Reaches (.trying (e.query.attempt (number + 1) now)) := by
  have now_eq : now = deadline.ceilMilli := by rw [← due, wake, pausing]
  have goesOn : e.query.next (fun _ => .never) (.pausing number deadline) =
      .trying (e.query.attempt (number + 1) now) := by rw [Query.next, now_eq]
  rw [← goesOn, ← pausing]
  exact onCourse.reached.next _

end Errand

end AdmissionCache
