import AdmissionCache.Proofs.Query.Retries
import AdmissionCache.Proofs.Query.Waits
import AdmissionCache.Settings.Service
import AdmissionCache.Settings.Sources

namespace AdmissionCache

/-- No attempt ends before it began. -/
theorem Attempt.began_le_outcome (a : Attempt) (r : Reply) : a.began.nanos ≤ (a.outcome r).1.nanos := by
  cases r with
  | never => exact a.began_le_cutOff
  | after delay result =>
    by_cases inTime : a.admits delay = true
    · rw [outcome_of_admits inTime]
      exact a.began_le_replied delay
    · rw [outcome_of_not_admits inTime]
      exact a.began_le_cutOff

/-- No query makes more than `most` attempts, whatever the authority does and however long one
looks. -/
def QuerySettings.AttemptsBounded (settings : QuerySettings) (most : Nat) : Prop :=
  ∀ now q authority request m, Query.start? settings now = some q →
    (q.exchange authority request m).1.length ≤ most

namespace Query

open RetryPlan (exponentBound)

/-- The most attempts that there can be from the one of the given number on if it begins at `now`:
one for every exponent still to come, and one for every nanosecond until the timer of the deadline. -/
def attemptsFrom (q : Query) (number : Nat) (now : Instant) : Nat :=
  (exponentBound - number) + (q.limit.nanos - now.nanos) + 1

/-- The most attempts that are left in a state. -/
def attemptsLeft (q : Query) : QueryState → Nat
  | .trying a => q.attemptsFrom a.number a.began
  | .pausing number due => q.attemptsFrom (number + 1) due.ceilMilli
  | .ended _ => 0
  | .lost => 0

variable {q : Query}

/-- The end of a wait leaves fewer attempts than the beginning of the attempt before it: either the
exponent grows, or the wait is one of the longest and time has passed. -/
theorem attemptsFrom_lt {number : Nat} {began now : Instant}
    (lasting : 0 < (q.settings.plan.wait exponentBound).nanos) (later : began.nanos ≤ now.nanos)
    (inTime : (now.after (q.settings.plan.wait number)).nanos ≤ q.deadline.nanos) :
    q.attemptsFrom (number + 1) (now.after (q.settings.plan.wait number)).ceilMilli < q.attemptsFrom number began := by
  have due : now.nanos + (q.settings.plan.wait number).nanos ≤
      (now.after (q.settings.plan.wait number)).ceilMilli.nanos := Instant.le_ceilMilli _
  have within : (now.after (q.settings.plan.wait number)).ceilMilli.nanos ≤ q.limit.nanos :=
    Instant.ceilMilli_mono inTime
  unfold attemptsFrom
  by_cases growing : number < exponentBound
  · omega
  · have longest : q.settings.plan.wait number = q.settings.plan.wait exponentBound :=
      RetryPlan.wait_congr _ (by omega)
    have passed : 0 < (q.settings.plan.wait number).nanos := longest ▸ lasting
    omega

theorem attemptsLeft_afterAttempt_lt {number : Nat} {began now : Instant} (result : AttemptResult)
    (lasting : 0 < (q.settings.plan.wait exponentBound).nanos) (later : began.nanos ≤ now.nanos) :
    q.attemptsLeft (q.afterAttempt number now result) < q.attemptsFrom number began := by
  have some : 0 < q.attemptsFrom number began := Nat.succ_pos _
  cases reached : q.afterAttempt number now result with
  | trying a =>
    unfold afterAttempt at reached
    split at reached
    · cases reached
    · split at reached
      · split at reached
        · cases reached
        · split at reached <;> cases reached
      · cases reached
  | pausing n due =>
    have inTime := due_le_deadline reached
    obtain ⟨rfl, rfl⟩ := afterAttempt_pausing reached
    exact attemptsFrom_lt lasting later inTime
  | ended e => exact some
  | lost => exact some

/-- The attempts made from a state on are not more than those left in it. -/
theorem course_length_le (lasting : 0 < (q.settings.plan.wait exponentBound).nanos) (replies : Nat → Reply)
    (m : Nat) (state : QueryState) : (q.course replies m state).1.length ≤ q.attemptsLeft state := by
  induction m generalizing state with
  | zero => exact Nat.zero_le _
  | succ m ih =>
    cases state with
    | trying a =>
      have later := ih (q.next replies (.trying a))
      have fewer : q.attemptsLeft (q.next replies (.trying a)) < q.attemptsLeft (.trying a) :=
        attemptsLeft_afterAttempt_lt _ lasting (a.began_le_outcome _)
      exact Nat.succ_le_of_lt (Nat.lt_of_le_of_lt later fewer)
    | pausing number due => exact ih (q.next replies (.pausing number due))
    | ended e => exact Nat.zero_le _
    | lost => exact Nat.zero_le _

theorem exchange_length (authority : Nat → ConfigsRequest → Reply) (request : ConfigsRequest) (m : Nat) :
    (q.exchange authority request m).1.length = (q.course (authority · request) m q.first).1.length :=
  List.length_map ..

theorem exchange_length_le {settings : QuerySettings} (lasting : 0 < (settings.plan.wait exponentBound).nanos) :
    settings.AttemptsBounded (exponentBound + settings.queryTimeout.nanos + Duration.nanosPerMilli) := by
  intro now q authority request m started
  have shape := start?_eq_some started
  have own : q.settings = settings := by rw [shape]
  have limit : q.limit.nanos < now.nanos + settings.queryTimeout.nanos + Duration.nanosPerMilli := by
    rw [shape]
    exact Instant.ceilMilli_lt _
  have begins : q.started = now := by rw [shape]
  have few := course_length_le (own ▸ lasting) (authority · request) m q.first
  have all : q.attemptsLeft q.first = (exponentBound - 1) + (q.limit.nanos - q.started.nanos) + 1 := rfl
  have one : 1 ≤ exponentBound := by decide
  rw [begins] at all
  rw [exchange_length]
  omega

/-- If no wait takes time, all attempts begin when the query does. -/
theorem beginning_of_no_waits (waitless : ∀ n, q.settings.plan.wait n = .zero)
    (shown : q.started.ceilMilli = q.started) (n : Nat) : q.beginning n = q.started := by
  induction n with
  | zero => rfl
  | succ n ih =>
    have still : (q.beginning n).after .zero = q.beginning n := rfl
    rw [beginning, waitless, still, ih, shown]

/-- The answer of an authority that is out of service. -/
def refusal : AttemptResult := .error (.refused ⟨503⟩)

theorem triesAgain_refusal : TriesAgain refusal := ⟨.refused ⟨503⟩, rfl, by decide⟩

/-- Without waits, an authority that refuses every attempt at once is asked for ever. -/
theorem not_attemptsBounded {settings : QuerySettings} (waitless : ∀ n, settings.plan.wait n = .zero)
    (inRange : settings.queryTimeout.nanos < Instant.bound) (most : Nat) : ¬ settings.AttemptsBounded most := by
  intro bounded
  have fits : Instant.origin.nanos + settings.queryTimeout.nanos < Instant.bound := by
    rw [Instant.origin, Nat.zero_add]
    exact inRange
  let q : Query := ⟨settings, .origin, Instant.origin.after settings.queryTimeout⟩
  have started : start? settings .origin = some q := by
    rw [start?, Instant.add?, if_pos fits]
    rfl
  have shown : q.started.ceilMilli = q.started := by
    show Instant.origin.ceilMilli = Instant.origin
    decide
  have inTime (n : Nat) : (q.beginning n).nanos + (settings.plan.wait (n + 1)).nanos ≤ q.deadline.nanos := by
    rw [beginning_of_no_waits waitless shown, waitless]
    exact Nat.zero_le _
  have many := @course_retries q (fun _ => .after .zero refusal) (fun _ => refusal) fits (fun _ => rfl)
    (most + 1) 0 (fun _ _ => triesAgain_refusal) (fun n _ => inTime n)
  have few := bounded _ q (fun _ _ => .after .zero refusal) (.ofBatch []) (2 * (most + 1) + 0) started
  have length : (q.exchange (fun _ _ => .after .zero refusal) (.ofBatch []) (2 * (most + 1) + 0)).1.length =
      (most + 1) + (q.course (fun _ => .after .zero refusal) 0
        (.trying (q.attempt (most + 1 + 1) (q.beginning (most + 1))))).1.length := by
    rw [exchange_length, many, List.length_append, List.length_map, List.length_range]
  omega

end Query

namespace Settings

theorem one_le_magnitude_of_grows {multiplier : Binary64} (growing : grows multiplier = true) :
    1 ≤ multiplier.magnitude := by
  rw [← Binary64.magnitude_one]
  exact Binary64.magnitude_le_of_lt (Binary64.nearest_isNegative ..) growing

theorem grows_of_fault?_eq_none {s : Settings} (accepted : s.fault? = none) :
    grows s.authority.plan.multiplier = true := by
  by_contra! still
  have shrinks : (!grows s.authority.plan.multiplier) = true := by
    rw [Bool.eq_false_of_not_eq_true still]
    rfl
  unfold fault? at accepted
  rw [if_pos shrinks] at accepted
  repeat' split at accepted
  all_goals cases accepted

theorem sources_query {s : Settings} {storeAnswers : Bool} {sources : SourceSettings}
    (built : s.sources storeAnswers = .ok sources) :
    sources.query = ⟨s.limits.queryTimeout, s.authority.timeout, s.authority.plan⟩ := by
  unfold Settings.sources at built
  split at built <;> cases built
  rfl

/-- There is an endpoint below the URL that the authority has by default. -/
theorem sources_eq_ok {s : Settings} (usual : s.authority.url = ({} : AuthoritySettings).url) (storeAnswers : Bool) :
    ∃ sources, s.sources storeAnswers = .ok sources := by
  have below : ({} : AuthoritySettings).url.endpoint.isOk = true := by decide +kernel
  rw [← usual] at below
  rw [sources]
  cases placed : s.authority.url.endpoint with
  | ok endpoint => exact ⟨_, rfl⟩
  | error fault =>
    rw [placed] at below
    cases below

/-- For valid settings there is a number of attempts that no query exceeds, whatever the authority
does, exactly if the clock cannot show the deadline of any query or the longest waits take time. -/
theorem attempts_bounded_iff (s : Settings) (storeAnswers : Bool) (sources : SourceSettings)
    (accepted : s.fault? = none) (built : s.sources storeAnswers = .ok sources) :
    (∃ most, sources.query.AttemptsBounded most) ↔
      Instant.bound ≤ s.limits.queryTimeout.nanos ∨
        s.authority.plan.maximum ≠ .zero ∧
          (s.authority.plan.initial ≠ .zero ∨
            (s.authority.plan.multiplier.pow RetryPlan.exponentBound).isFinite = false) := by
  have grows := one_le_magnitude_of_grows (grows_of_fault?_eq_none accepted)
  rw [← RetryPlan.wait_exponentBound_pos_iff grows, sources_query built]
  constructor
  · rintro ⟨most, bounded⟩
    by_contra! both
    obtain ⟨inRange, short⟩ := both
    have waitless := RetryPlan.wait_eq_zero grows (Nat.not_lt.mpr short)
    exact Query.not_attemptsBounded waitless inRange most bounded
  · rintro (endless | lasting)
    · refine ⟨0, fun now q authority request m started => ?_⟩
      have inRange := Query.start?_deadline_lt started
      rw [Query.start?_eq_some started] at inRange
      exact absurd inRange (Nat.not_lt.mpr (Nat.le_trans endless (Nat.le_add_left _ _)))
    · exact ⟨_, Query.exchange_length_le lasting⟩

/-- The attempts of the default settings are bounded. -/
theorem default_attempts_bounded :
    let s : Settings := {}
    s.fault? = none ∧ ∃ sources, s.sources false = .ok sources ∧
      ∃ most, sources.query.AttemptsBounded most := by
  intro s
  have accepted : s.fault? = none := by decide +kernel
  obtain ⟨sources, built⟩ := sources_eq_ok (s := s) rfl false
  exact ⟨accepted, sources, built,
    (attempts_bounded_iff s false sources accepted built).mpr (.inr ⟨by decide, .inl (by decide)⟩)⟩

/-- A maximum of nothing is accepted, and an authority that refuses every attempt at once is then
asked for ever, although every query has a deadline. -/
theorem endless_attempts :
    let b : Json := .object [("upstream", .object [("max_backoff", .number (.integer 0))])]
    let s : Settings := { authority := { plan := { maximum := .zero } } }
    read b = .ok s ∧ s.fault? = none ∧ ∃ sources, s.sources false = .ok sources ∧
      ∀ most, ¬ sources.query.AttemptsBounded most := by
  intro b s
  have waitless (n : Nat) : s.authority.plan.wait n = .zero := RetryPlan.wait_of_no_maximum rfl n
  have inRange : s.limits.queryTimeout.nanos < Instant.bound := by decide +kernel
  obtain ⟨sources, built⟩ := sources_eq_ok (s := s) rfl false
  have query := sources_query built
  refine ⟨by rfl, by decide +kernel, sources, built, fun most => ?_⟩
  rw [query]
  exact Query.not_attemptsBounded waitless inRange most

end Settings

end AdmissionCache
