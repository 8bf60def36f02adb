import AdmissionCache.Proofs.Service.Learning
import Mathlib.Order.Bounds.Defs

namespace AdmissionCache

/-- The instants from which the age of a configuration could count that was delivered at
`delivered`: that one, and those of its renewals. -/
def confirmations (key : ProjectKey) (delivered : Instant) (later : List Entry) : Set Nat :=
  { n | n = delivered.nanos ∨ ∃ e ∈ later, ∃ renewed, e.renewal? key = some renewed ∧ n = renewed.nanos }

/-- A configuration was delivered for the key, only renewals have changed what is known
about the key since, and `f` is the latest confirmation. -/
def RestsOn (log : List Entry) (key : ProjectKey) (config : ProjectConfig) (f : Instant) : Prop :=
  ∃ before e after delivered, log = before ++ e :: after ∧ e.delivery? key = some (config, delivered) ∧
    (∀ later ∈ after, later.changes key = true → (later.renewal? key).isSome = true) ∧
    IsGreatest (confirmations key delivered after) f.nanos

/-- A batch sent at `f` found the key missing, and nothing was applied for the key since. -/
def MissRestsOn (log : List Entry) (key : ProjectKey) (f : Instant) : Prop :=
  ∃ before batch after, log = before ++ .applied batch f key .notFound true :: after ∧
    ∀ later ∈ after, later.touches key = false

/-- What a decision at `t` may rest on. -/
def Decision.Supported (policy : Policy) (log : List Entry) (key : ProjectKey) (t : Instant) :
    Decision → Prop
  | .useFresh config => ∃ f, RestsOn log key config f ∧ f.nanos ≤ t.nanos ∧
      t.nanos - f.nanos < policy.expiry.nanos
  | .useStale config => ∃ f, RestsOn log key config f ∧ f.nanos ≤ t.nanos ∧
      policy.expiry.nanos ≤ t.nanos - f.nanos ∧
      t.nanos - f.nanos < policy.expiry.nanos + policy.grace.nanos
  | .notFound => ∃ f, MissRestsOn log key f ∧ f.nanos ≤ t.nanos ∧
      t.nanos - f.nanos < policy.missExpiry.nanos
  | .unknown => True

section Growth
variable {log new : List Entry} {key : ProjectKey} {config : ProjectConfig} {f : Instant}

theorem Entry.changes_of_renewal {e : Entry} {renewed : Instant} (renewal : e.renewal? key = some renewed) :
    e.changes key = true := by
  obtain ⟨_, _, rfl⟩ := renewal_cases renewal
  simp only [changes, decide_true, Bool.and_true]

theorem RestsOn.quiet (rests : RestsOn log key config f) (quiet : ∀ e ∈ new, e.changes key = false) :
    RestsOn (log ++ new) key config f := by
  obtain ⟨before, e, after, delivered, rfl, delivery, renewals, ⟨reached, latest⟩⟩ := rests
  have append : before ++ e :: after ++ new = before ++ e :: (after ++ new) := by
    rw [List.append_assoc, List.cons_append]
  refine ⟨before, e, after ++ new, delivered, append, delivery, ?_, ?_, ?_⟩
  · intro later member changed
    rcases List.mem_append.mp member with old | recent
    · exact renewals later old changed
    · rw [quiet later recent] at changed
      cases changed
  · rcases reached with first | ⟨later, member, renewed, renewal, same⟩
    · exact Or.inl first
    · exact Or.inr ⟨later, List.mem_append_left _ member, renewed, renewal, same⟩
  · rintro n (first | ⟨later, member, renewed, renewal, same⟩)
    · exact latest (Or.inl first)
    · rcases List.mem_append.mp member with old | recent
      · exact latest (Or.inr ⟨later, old, renewed, renewal, same⟩)
      · have changed := Entry.changes_of_renewal renewal
        rw [quiet later recent] at changed
        cases changed

theorem RestsOn.delivered {e : Entry} (delivery : e.delivery? key = some (config, f)) :
    RestsOn (log ++ [e]) key config f := by
  refine ⟨log, e, [], f, rfl, delivery, List.forall_mem_nil _, Or.inl rfl, ?_⟩
  rintro n (first | ⟨_, member, _⟩)
  · exact Nat.le_of_eq first
  · cases member

theorem RestsOn.renewed {e : Entry} {renewed : Instant} (rests : RestsOn log key config f)
    (renewal : e.renewal? key = some renewed) (later : f.nanos ≤ renewed.nanos) :
    RestsOn (log ++ [e]) key config renewed := by
  obtain ⟨before, first, after, delivered, rfl, delivery, renewals, ⟨_, latest⟩⟩ := rests
  have append : before ++ first :: after ++ [e] = before ++ first :: (after ++ [e]) := by
    rw [List.append_assoc, List.cons_append]
  refine ⟨before, first, after ++ [e], delivered, append, delivery, ?_, ?_, ?_⟩
  · intro other member changed
    rcases List.mem_append.mp member with old | recent
    · exact renewals other old changed
    · rw [List.mem_singleton.mp recent, renewal]; rfl
  · exact Or.inr ⟨e, List.mem_append_right _ (List.mem_singleton_self e), renewed, renewal, rfl⟩
  · rintro n (start | ⟨other, member, again, renewal', same⟩)
    · have bound := latest (Or.inl start)
      omega
    · rcases List.mem_append.mp member with old | recent
      · have bound := latest (Or.inr ⟨other, old, again, renewal', same⟩)
        omega
      · rw [List.mem_singleton.mp recent, renewal] at renewal'
        cases renewal'
        exact Nat.le_of_eq same

theorem MissRestsOn.quiet (rests : MissRestsOn log key f) (quiet : ∀ e ∈ new, e.touches key = false) :
    MissRestsOn (log ++ new) key f := by
  obtain ⟨before, batch, after, rfl, silent⟩ := rests
  refine ⟨before, batch, after ++ new, by rw [List.append_assoc, List.cons_append], ?_⟩
  intro later member
  rcases List.mem_append.mp member with old | recent
  · exact silent later old
  · exact quiet later recent

end Growth

namespace Service

/-- Whatever configuration is known rests on the chronicle. -/
def Backed (log : List Entry) (s : Service) : Prop :=
  ∀ key config f, s.cache.knows key = .loaded config f → RestsOn log key config f

theorem Backed.move {log new : List Entry} {s s' : Service} {e : Event} (backed : Backed log s)
    (orderly : s.Orderly) (move : Move s e new s') : Backed (log ++ new) s' := by
  intro key config f known
  cases move.learned orderly key with
  | same kept quiet =>
    rw [kept] at known
    exact (backed key config f known).quiet quiet
  | forgotten nothing _ =>
    rw [nothing] at known
    cases known
  | @applied b r learned before after _ _ settled knows _ silentBefore silentAfter =>
    rw [knows] at known
    obtain ⟨lesson, _⟩ := Knowledge.settle_eq_some settled
    have parted : log ++ (before ++ .applied b.id b.stamp key r true :: after) =
        log ++ before ++ [.applied b.id b.stamp key r true] ++ after := by
      simp only [List.append_assoc, List.singleton_append]
    rw [parted]
    refine RestsOn.quiet ?_ fun e member => Entry.changes_of_untouched (silentAfter e member)
    subst known
    cases r with
    | config c =>
      cases lesson
      exact .delivered (if_pos rfl)
    | unchanged revision =>
      obtain ⟨c, learnedAt, old, _, notLater, same⟩ := Knowledge.settle_unchanged settled
      cases same
      have rests := (backed key config learnedAt old).quiet fun e member =>
        Entry.changes_of_untouched (silentBefore e member)
      exact rests.renewed (if_pos rfl) notLater
    | notFound => cases lesson
    | pending => cases lesson
    | failed => cases lesson
  | @overridden c now before after knows _ silentAfter =>
    rw [knows] at known
    cases known
    have parted : log ++ (before ++ .overridden key config f :: after) =
        log ++ before ++ [.overridden key config f] ++ after := by
      simp only [List.append_assoc, List.singleton_append]
    have delivery : (Entry.overridden key config f).delivery? key = some (config, f) := if_pos rfl
    rw [parted]
    exact (RestsOn.delivered delivery).quiet fun e member =>
      Entry.changes_of_untouched (silentAfter e member)

theorem start_backed (policy : Policy) (settings : ServiceSettings) (withOverrides : Bool) :
    Backed [] (start policy settings withOverrides) := by
  intro key config f known
  cases known

/-- What every run keeps. -/
structure Faithful (policy : Policy) (log : List Entry) (s : Service) : Prop where
  owned : s.Owned
  recorded : Recorded log s
  backed : Backed log s
  policy : s.cache.policy = policy

theorem Faithful.move {policy : Policy} {log new : List Entry} {s s' : Service} {e : Event}
    (faithful : Faithful policy log s) (move : Move s e new s') : Faithful policy (log ++ new) s' where
  owned := faithful.owned.move move
  recorded := faithful.recorded.move faithful.owned.orderly move
  backed := faithful.backed.move faithful.owned.orderly move
  policy := move.policy.trans faithful.policy

theorem start_faithful (policy : Policy) (settings : ServiceSettings) (withOverrides : Bool) :
    Faithful policy [] (start policy settings withOverrides) where
  owned := start_owned ..
  recorded := start_recorded ..
  backed := start_backed policy settings withOverrides
  policy := rfl

theorem run_faithful (policy : Policy) (settings : ServiceSettings) (withOverrides : Bool) (events : List Event) :
    Faithful policy ((start policy settings withOverrides).chronicle events)
      ((start policy settings withOverrides).run events) := by
  have next : ∀ log s, ∀ e ∈ events, Faithful policy log s → Faithful policy (log ++ s.entries e) (s.step e) :=
    fun log s e _ faithful => faithful.move (s.step_move e)
  have kept := run_induction next (start_faithful policy settings withOverrides)
  rw [List.nil_append] at kept
  exact kept

/-- What holds of a run up to `t`. A miss that still counts at `t` was never fetched again:
a lookup claims a key only once its miss has expired. -/
structure Timely (t : Instant) (log : List Entry) (s : Service) : Prop where
  stamps : ∀ b ∈ s.batches, b.stamp.nanos ≤ t.nanos
  learned : ∀ key f, (s.cache.knows key).learnedAt? = some f → f.nanos ≤ t.nanos
  missing : ∀ key f, s.cache.knows key = .missing f → s.cache.policy.missExpired f t = false →
    s.cache.inFlight key = false ∧ MissRestsOn log key f

section Timely
variable {t : Instant} {log new : List Entry} {s s' : Service} {e : Event}

theorem lesson_learnedAt {stamp : Instant} {r : Resolution} {k learned : Knowledge}
    (lesson : r.lesson stamp k = some learned) : learned.learnedAt? = some stamp := by
  unfold Resolution.lesson at lesson
  split at lesson
  · cases lesson; rfl
  · split at lesson
    · cases lesson; rfl
    · cases lesson
  · cases lesson; rfl
  · cases lesson

theorem lesson_missing {stamp f : Instant} {r : Resolution} {k : Knowledge}
    (lesson : r.lesson stamp k = some (.missing f)) : r = .notFound ∧ f = stamp := by
  unfold Resolution.lesson at lesson
  split at lesson
  · cases lesson
  · split at lesson
    · cases lesson
    · cases lesson
  · cases lesson; exact ⟨rfl, rfl⟩
  · cases lesson

/-- A lookup leaves a key alone whose miss still counts at a later instant. -/
theorem unclaimed_of_missing {key : ProjectKey} {f now : Instant} {cache : Cache} {l : Lookup}
    (known : s.cache.knows key = .missing f) (counts : s.cache.policy.missExpired f t = false)
    (earlier : now.nanos ≤ t.nanos) (got : s.cache.get key now = .ok (cache, l)) :
    l.scheduleFetch = false := by
  obtain ⟨wants, read, schedule⟩ := (Cache.get_looked got).decision
  have still : s.cache.policy.missExpired f now = false := by
    rw [Policy.missExpired_eq_false] at counts ⊢
    omega
  rw [known, Knowledge.read, still] at read
  generalize l.decision = d at read
  cases read
  exact schedule

theorem batch_stamps (move : Move s e new s') (stamps : ∀ b ∈ s.batches, b.stamp.nanos ≤ t.nanos)
    (ordered : ∀ now, e.time? = some now → now.nanos ≤ t.nanos) :
    ∀ b ∈ s'.batches, b.stamp.nanos ≤ t.nanos := by
  intro b' member
  rcases move.batch_origin member with ⟨b, old, step⟩ | ⟨_, _, rfl, _⟩
  · exact step.same.2.1 ▸ stamps b old
  · exact ordered _ rfl

theorem Timely.move (timely : Timely t log s) (owned : s.Owned) (move : Move s e new s')
    (ordered : ∀ now, e.time? = some now → now.nanos ≤ t.nanos) : Timely t (log ++ new) s' := by
  refine ⟨batch_stamps move timely.stamps ordered, ?_, ?_⟩
  · intro key f known
    cases move.learned owned.orderly key with
    | same kept _ =>
      rw [kept] at known
      exact timely.learned key f known
    | forgotten nothing _ =>
      rw [nothing] at known
      cases known
    | applied member _ settled knows _ _ _ =>
      rw [knows, lesson_learnedAt (Knowledge.settle_eq_some settled).1] at known
      cases known
      exact timely.stamps _ member
    | overridden knows _ _ =>
      rw [knows] at known
      cases known
      exact ordered _ (move.overridden_time (List.mem_append_right _ List.mem_cons_self))
  · intro key f known counts
    rw [move.policy] at counts
    cases move.learned owned.orderly key with
    | same kept quiet =>
      rw [kept] at known
      obtain ⟨unmarked, rests⟩ := timely.missing key f known counts
      have unclaimed : ∀ purpose now cache l, e = .look purpose key now →
          s.cache.get key now = .ok (cache, l) → l.scheduleFetch = false := by
        intro purpose now cache l look got
        exact unclaimed_of_missing known counts (ordered now (by rw [look]; rfl)) got
      obtain ⟨flag, touched⟩ := move.undisturbed owned unmarked unclaimed
      refine ⟨flag, rests.quiet fun entry member => ?_⟩
      cases touches : entry.touches key with
      | false => rfl
      | true =>
        have changed := touched entry member touches
        rw [quiet entry member] at changed
        cases changed
    | forgotten nothing _ =>
      rw [nothing] at known
      cases known
    | @applied b r learned before after _ _ settled knows ended _ silent =>
      rw [knows] at known
      subst known
      obtain ⟨rfl, rfl⟩ := lesson_missing (Knowledge.settle_eq_some settled).1
      refine ⟨ended nofun, log ++ before, b.id, after, ?_, silent⟩
      rw [List.append_assoc]
    | overridden knows _ _ =>
      rw [knows] at known
      cases known

theorem start_timely (policy : Policy) (settings : ServiceSettings) (withOverrides : Bool) :
    Timely t [] (start policy settings withOverrides) where
  stamps _ member := nomatch member
  learned _ _ known := nomatch known
  missing _ _ known := nomatch known

theorem run_timely (policy : Policy) (settings : ServiceSettings) (withOverrides : Bool) {events : List Event}
    (ordered : ∀ e ∈ events, ∀ now, e.time? = some now → now.nanos ≤ t.nanos) :
    Timely t ((start policy settings withOverrides).chronicle events)
      ((start policy settings withOverrides).run events) := by
  let Kept (log : List Entry) (s : Service) : Prop := s.Owned ∧ Timely t log s
  have next : ∀ log s, ∀ e ∈ events, Kept log s → Kept (log ++ s.entries e) (s.step e) := by
    rintro log s e member ⟨owned, timely⟩
    have moved := s.step_move e
    exact ⟨owned.move moved, timely.move owned moved (ordered e member)⟩
  have first : Kept [] (start policy settings withOverrides) := ⟨start_owned .., start_timely ..⟩
  have kept := run_induction next first
  rw [List.nil_append] at kept
  exact kept.2

theorem look_supported (purpose : Purpose) (key : ProjectKey) (bounded : s.cache.policy.Bounded)
    (backed : Backed log s) (timely : Timely t log s) :
    ∃ s' d, s.look purpose key t = .ok (s', d) ∧ d.Supported s.cache.policy log key t := by
  obtain ⟨_, readable⟩ := Cache.read_eq_ok bounded key t
  obtain ⟨s', d, looked⟩ := look_ok_of_read readable purpose
  obtain ⟨wants, read⟩ := look_read looked
  refine ⟨s', d, looked, ?_⟩
  cases known : s.cache.knows key with
  | nothing =>
    rw [known] at read
    cases read
    trivial
  | missing f =>
    rw [known, Knowledge.read] at read
    have notLater := timely.learned key f (by rw [known]; rfl)
    split at read
    · cases read
      trivial
    · rename_i counts
      cases read
      rw [Bool.not_eq_true] at counts
      exact ⟨f, (timely.missing key f known counts).2, notLater, Policy.missExpired_eq_false.mp counts⟩
  | loaded config f =>
    have rests := backed key config f known
    have notLater := timely.learned key f (by rw [known]; rfl)
    have sum : s.cache.policy.expiry.add? s.cache.policy.grace =
        some ⟨s.cache.policy.expiry.nanos + s.cache.policy.grace.nanos⟩ := if_pos bounded
    by_cases fresh : t.nanos - f.nanos < s.cache.policy.expiry.nanos
    · have classified : s.cache.policy.classify f t = .ok .fresh := if_pos fresh
      rw [known, Knowledge.read, classified] at read
      cases read
      exact ⟨f, rests, notLater, fresh⟩
    · by_cases stale : t.nanos - f.nanos < s.cache.policy.expiry.nanos + s.cache.policy.grace.nanos
      · have classified : s.cache.policy.classify f t = .ok .stale := by
          simp only [Policy.classify, Instant.since, fresh, if_false, sum, stale, if_true]
        rw [known, Knowledge.read, classified] at read
        cases read
        exact ⟨f, rests, notLater, by omega, stale⟩
      · have classified : s.cache.policy.classify f t = .ok .expired := by
          simp only [Policy.classify, Instant.since, fresh, if_false, sum, stale]
        rw [known, Knowledge.read, classified] at read
        cases read
        trivial

end Timely

/-- Every lookup at an instant that no event of the run lies behind gives a decision that
rests on evidence for that key, no older than the policy allows; and everything that was
applied was told before to a batch that was sent before with the key. -/
theorem look_rests_on_recent_evidence (policy : Policy) (settings : ServiceSettings) (withOverrides : Bool)
    (events : List Event) (purpose : Purpose) (key : ProjectKey) (t : Instant) (bounded : policy.Bounded)
    (ordered : ∀ e ∈ events, ∀ now, e.time? = some now → now.nanos ≤ t.nanos) :
    EachExplained ((start policy settings withOverrides).chronicle events) ∧
    ∃ s' d, ((start policy settings withOverrides).run events).look purpose key t = .ok (s', d) ∧
      d.Supported policy ((start policy settings withOverrides).chronicle events) key t := by
  have faithful := run_faithful policy settings withOverrides events
  have timely := run_timely policy settings withOverrides ordered
  have supported := look_supported purpose key (by rw [faithful.policy]; exact bounded) faithful.backed timely
  rw [faithful.policy] at supported
  exact ⟨faithful.recorded.explained, supported⟩

theorem miss_rests_on_its_batch :
    let s := start ⟨.ofSecs 60, .zero, .ofSecs 10⟩ { batchSize := 10, queryTimeout := .ofSecs 30 } false
    let events := [.look .lookup "a" .origin, .advance 0, .receive, .dispatch (.ofMillis 100),
      .consult 0 fun _ => .ok none, .answer 0 (.ok {}), .complete 0 (.ofMillis 400)]
    EachExplained (s.chronicle events) ∧
    ∃ s' d, (s.run events).look .check "a" (.ofMillis 5000) = .ok (s', d) ∧
      d.Supported ⟨.ofSecs 60, .zero, .ofSecs 10⟩ (s.chronicle events) "a" (.ofMillis 5000) := by
  refine look_rests_on_recent_evidence _ _ _ _ _ _ _ (by decide) ?_
  simp [Event.time?, Instant.origin, Instant.ofMillis, Duration.nanosPerMilli]

end Service

end AdmissionCache
