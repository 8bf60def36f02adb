import AdmissionCache.Proofs.Service.Deferral
import AdmissionCache.Proofs.Service.Evidence
import AdmissionCache.Proofs.Service.Revisions

namespace AdmissionCache

/-- Whether the entry says that the override of the key changed. -/
def Entry.rules (key : ProjectKey) : Entry → Bool
  | .overridden k _ _ => k = key
  | .withdrawn k => k = key
  | _ => false

/-- For how long what a batch finds out about a key keeps others from asking for it again. A key
that is unchanged has to be accepted for that. -/
def Resolution.period? (p : Policy) (taken : Bool) : Resolution → Option Duration
  | .config _ => some p.expiry
  | .unchanged _ => if taken then some p.expiry else none
  | .notFound => some p.missExpiry
  | .pending => none
  | .failed => none

namespace Knowledge
variable {p : Policy} {f t : Instant} {period : Duration} {k : Knowledge}

/-- What is known was learned by a batch sent at `f` and counts for the period. -/
def CountsFor (p : Policy) (f : Instant) (period : Duration) : Knowledge → Prop
  | .nothing => False
  | .missing checkedAt => checkedAt = f ∧ period = p.missExpiry
  | .loaded _ fetchedAt => fetchedAt = f ∧ period = p.expiry

/-- Until the period is over no fetch is wanted. -/
theorem CountsFor.unwanted (counts : k.CountsFor p f period) (since : f.nanos ≤ t.nanos)
    (early : t.nanos < f.nanos + period.nanos) : ∃ d, k.read p t = .ok ⟨d, false⟩ := by
  cases k with
  | nothing => exact counts.elim
  | missing checkedAt =>
    obtain ⟨rfl, rfl⟩ := counts
    have lasting : p.missExpired checkedAt t = false := Policy.missExpired_eq_false.mpr (by omega)
    rw [read, lasting]
    exact ⟨_, rfl⟩
  | loaded config fetchedAt =>
    obtain ⟨rfl, rfl⟩ := counts
    have fresh : p.classify fetchedAt t = .ok .fresh := by rw [Policy.classify_eq, if_pos (by omega)]
    rw [read, fresh]
    exact ⟨_, rfl⟩

/-- From then on a fetch is wanted. -/
theorem CountsFor.wanted (counts : k.CountsFor p f period) (bounded : p.Bounded)
    (late : f.nanos + period.nanos ≤ t.nanos) : ∃ d, k.read p t = .ok ⟨d, true⟩ := by
  cases k with
  | nothing => exact counts.elim
  | missing checkedAt =>
    obtain ⟨rfl, rfl⟩ := counts
    have expired : p.missExpired checkedAt t = true := by
      rw [← Bool.not_eq_false, Policy.missExpired_eq_false]
      omega
    rw [read, expired]
    exact ⟨_, rfl⟩
  | loaded config fetchedAt =>
    obtain ⟨rfl, rfl⟩ := counts
    obtain ⟨freshness, classified⟩ := Policy.classify_eq_ok bounded fetchedAt t
    rw [read, classified]
    cases freshness with
    | fresh =>
      rw [Policy.classify_eq, if_neg (by omega), if_pos bounded] at classified
      split at classified <;> cases classified
    | stale => exact ⟨_, rfl⟩
    | expired => exact ⟨_, rfl⟩

/-- What a batch finds out counts, provided that nothing later is known. -/
theorem after_countsFor {r : Resolution} (upTo : k.UpTo f)
    (lasting : r.period? p (k.settle f (r.lesson f)).isSome = some period) :
    (k.after f r).CountsFor p f period := by
  cases r with
  | config config =>
    cases lasting
    rw [after, upTo.settle]
    exact ⟨rfl, rfl⟩
  | unchanged revision =>
    cases settled : k.settle f ((Resolution.unchanged revision).lesson f) with
    | none =>
      rw [settled] at lasting
      cases lasting
    | some learned =>
      rw [settled] at lasting
      cases lasting
      obtain ⟨config, _, _, _, _, rfl⟩ := settle_unchanged settled
      rw [after, settled]
      exact ⟨rfl, rfl⟩
  | notFound =>
    cases lasting
    rw [after, upTo.settle]
    exact ⟨rfl, rfl⟩
  | pending => cases lasting
  | failed => cases lasting

end Knowledge

namespace Service

/-- A lookup of the key at `t` goes well, and it schedules a fetch or not, as `wanted` says. -/
def Schedules (s : Service) (key : ProjectKey) (t : Instant) (wanted : Bool) : Prop :=
  ∃ cache l, s.cache.get key t = .ok (cache, l) ∧ l.scheduleFetch = wanted

section Schedules
variable {s : Service} {key : ProjectKey} {t : Instant} {d : Decision} {wants : Bool}

theorem cache_look {now : Instant} {cache : Cache} {l : Lookup} (got : s.cache.get key now = .ok (cache, l))
    (purpose : Purpose) : (s.step (.look purpose key now)).cache = cache := by
  simp only [step, look, got]
  rfl

theorem get_schedules {cache : Cache} {l : Lookup} (known : (s.cache.knows key).read s.cache.policy t = .ok ⟨d, wants⟩)
    (got : s.cache.get key t = .ok (cache, l)) : l.scheduleFetch = (wants && !s.cache.inFlight key) := by
  obtain ⟨wants', read, schedule⟩ := (Cache.get_looked got).decision
  rw [known] at read
  cases read
  exact schedule

/-- A lookup schedules a fetch if what is known wants one and none is under way. -/
theorem schedules_of_read (known : (s.cache.knows key).read s.cache.policy t = .ok ⟨d, wants⟩) :
    s.Schedules key t (wants && !s.cache.inFlight key) := by
  have readable := Cache.read_eq s.cache key t
  rw [known] at readable
  obtain ⟨cache, l, got⟩ := Cache.get_ok_of_read readable
  exact ⟨cache, l, got, get_schedules known got⟩

end Schedules

section Steps
variable {s s' : Service} {e : Event} {new : List Entry} {key : ProjectKey}

theorem Move.applied_running (move : Move s e new s') {i : Nat} {stamp : Instant} {r : Resolution} {taken : Bool}
    (member : .applied i stamp key r taken ∈ new) : s.status = .running := by
  cases move.added member
  cases move with
  | idle => cases member
  | applied running _ _ => exact running
  | released running _ _ => exact running

/-- As long as its batch is on its way, nothing later than the batch is learned about a key. -/
theorem upTo_of_lasting {events : List Event} {b : Batch} (owned : s.Owned) (upTo : (s.cache.knows key).UpTo b.stamp)
    (running : (s.run events).status = .running) (member : b ∈ (s.run events).batches) (old : b.id < s.dispatched)
    (own : key ∈ b.keys) (unruled : ∀ x ∈ s.chronicle events, x.rules key = false) :
    ((s.run events).cache.knows key).UpTo b.stamp := by
  induction events generalizing s with
  | nil => exact upTo
  | cons e rest ih =>
    have move := s.step_move e
    rw [chronicle, List.forall_mem_append] at unruled
    have next : ((s.step e).cache.knows key).UpTo b.stamp := by
      generalize s.entries e = new, move.learned owned.orderly key = learned at unruled
      cases learned with
      | same kept _ =>
        rw [kept]
        exact upTo
      | forgotten nothing _ =>
        rw [nothing]
        intro learnedAt learned
        cases learned
      | @applied other r lesson before after there found settled knows _ _ _ =>
        have lasting : b ∈ (s.run (e :: rest)).batches := member
        obtain ⟨first, here, id, stamp, keys, _⟩ := run_batch_origin lasting old
        have once := (owned.balanced (move.ran (run_ran running))).once
        rw [List.append_nil] at once
        have ours : key ∈ s.keysAt (.batch first.id) :=
          List.mem_flatMap.mpr ⟨first, List.mem_filter.mpr ⟨here, decide_eq_true rfl⟩, keys ▸ own⟩
        have theirs : key ∈ s.keysAt (.batch other.id) :=
          List.mem_flatMap.mpr ⟨other, List.mem_filter.mpr ⟨there, decide_eq_true rfl⟩,
            owned.orderly.mem_keys_of_found there found⟩
        have number : other.id = first.id := Place.batch.inj (place_unique once ours theirs)
        have same : other = first := owned.orderly.eq_of_id here there number
        subst same
        rw [knows]
        intro learnedAt learned
        rw [lesson_learnedAt (Knowledge.settle_eq_some settled).1] at learned
        cases learned
        exact Nat.le_of_eq (congrArg Instant.nanos stamp)
      | overridden _ _ _ =>
        have unruled := unruled.1 _ (List.mem_append_right _ List.mem_cons_self)
        exact absurd rfl (of_decide_eq_false unruled)
    exact ih (owned.move move) next running member (Nat.lt_of_lt_of_le old move.dispatched_le) unruled.2

/-- What is applied for a key is what its batch found out, and it ends the fetch unless the key
is pending. -/
theorem Owned.complete_applied {id : Nat} {now f : Instant} {r : Resolution} {taken : Bool} (owned : s.Owned)
    (applied : .applied id f key r taken ∈ s.entries (.complete id now)) :
    (∃ b ∈ s.batches, b.id = id ∧ b.stamp = f ∧ key ∈ b.keys) ∧
      taken = ((s.cache.knows key).settle f (r.lesson f)).isSome ∧
      (s.step (.complete id now)).cache.knows key = (s.cache.knows key).after f r ∧
      (r ≠ .pending → (s.step (.complete id now)).cache.inFlight key = false) := by
  have move := s.step_move (.complete id now)
  generalize s.entries (.complete id now) = new, s.step (.complete id now) = s' at applied move
  cases move with
  | idle => cases applied
  | @applied _ _ b resolutions _ found progress =>
    have member := (mem_of_batch? found).1
    obtain ⟨resolved, inside, _, same⟩ := mem_applications applied
    cases same
    have accounted := owned.orderly.resolved member progress
    have distinct := accounted.nodup_iff.mpr (owned.orderly.distinct b member)
    obtain ⟨knows, flag, before, after, split, silentBefore, silentAfter⟩ :=
      applyAll_own (s := s.dropBatch b.id) b.id b.stamp now distinct inside
    have noted : (Entry.applied b.id b.stamp resolved.1 resolved.2 taken).touches resolved.1 = true :=
      decide_eq_true rfl
    refine ⟨⟨b, member, rfl, rfl, accounted.mem_iff.mp (List.mem_map_of_mem inside)⟩, ?_, knows, flag⟩
    rw [split] at applied
    rcases List.mem_append.mp applied with early | late
    · rw [silentBefore _ early] at noted
      cases noted
    · rcases List.mem_cons.mp late with here | later
      · cases here
        rfl
      · rw [silentAfter _ later] at noted
        cases noted
  | released _ _ _ =>
    obtain ⟨_, _, differ⟩ := List.mem_map.mp applied
    cases differ

/-- Nothing is learned about a key that nobody fetches, but a sweep may forget what is known. -/
theorem Move.unlearned (move : Move s e new s') (owned : s.Owned) (unmarked : s.cache.inFlight key = false)
    (unruled : ∀ x ∈ new, x.rules key = false) :
    s'.cache.knows key = s.cache.knows key ∨ s'.cache.knows key = .nothing ∧
      ∃ now visited, e = .sweep now visited ∧ (s.cache.knows key).Faded s.cache.policy now := by
  cases move.learned owned.orderly key with
  | same kept _ => exact Or.inl kept
  | forgotten nothing cause =>
    rcases cause with withdrawn | swept
    · exact absurd rfl (of_decide_eq_false (unruled _ withdrawn))
    · exact Or.inr ⟨nothing, swept⟩
  | applied there found _ _ _ _ _ =>
    have running := move.applied_running (List.mem_append_right _ List.mem_cons_self)
    exact absurd (owned.orderly.mem_keys_of_found there found) (owned.not_mem_keys running unmarked there)
  | overridden _ _ _ =>
    exact absurd rfl (of_decide_eq_false (unruled _ (List.mem_append_right _ List.mem_cons_self)))

/-- A key about which nothing is known any more stays so until a lookup asks for it. -/
theorem run_forgotten {events : List Event} (owned : s.Owned) (unmarked : s.cache.inFlight key = false)
    (nothing : s.cache.knows key = .nothing) (unasked : ∀ purpose now, .look purpose key now ∉ events)
    (unruled : ∀ x ∈ s.chronicle events, x.rules key = false) :
    (s.run events).cache.inFlight key = false ∧ (s.run events).cache.knows key = .nothing := by
  induction events generalizing s with
  | nil => exact ⟨unmarked, nothing⟩
  | cons e rest ih =>
    have move := s.step_move e
    rw [chronicle, List.forall_mem_append] at unruled
    have still := move.undisturbed owned unmarked fun purpose now _ _ look _ =>
      absurd (List.mem_cons.mpr (Or.inl look.symm)) (unasked purpose now)
    have unknown : (s.step e).cache.knows key = .nothing := by
      rcases move.unlearned owned unmarked unruled.1 with kept | ⟨forgotten, _⟩
      · exact kept.trans nothing
      · exact forgotten
    exact ih (owned.move move) still.1 unknown
      (fun purpose now inside => unasked purpose now (List.mem_cons_of_mem _ inside)) unruled.2

/-- As long as the key is only looked up within the period nobody fetches it, and what is known
about it stays until the period is over. -/
theorem run_spaced {events : List Event} {f t : Instant} {period : Duration} {k : Knowledge} (owned : s.Owned)
    (unmarked : s.cache.inFlight key = false) (known : s.cache.knows key = k)
    (counts : k.CountsFor s.cache.policy f period) (order : ClockOrder events t)
    (since : ∀ e ∈ events, ∀ now, e.time? = some now → f.nanos ≤ now.nanos)
    (early : ∀ purpose now, .look purpose key now ∈ events → now.nanos < f.nanos + period.nanos)
    (unruled : ∀ x ∈ s.chronicle events, x.rules key = false) :
    (s.run events).cache.inFlight key = false ∧ ((s.run events).cache.knows key = k ∨
      (s.run events).cache.knows key = .nothing ∧ f.nanos + period.nanos ≤ t.nanos) := by
  induction events generalizing s with
  | nil => exact ⟨unmarked, Or.inl known⟩
  | cons e rest ih =>
    have move := s.step_move e
    rw [List.forall_mem_cons] at since
    rw [chronicle, List.forall_mem_append] at unruled
    have unclaimed : ∀ purpose now cache l, e = .look purpose key now → s.cache.get key now = .ok (cache, l) →
        l.scheduleFetch = false := by
      rintro purpose now cache l rfl got
      obtain ⟨d, unwanted⟩ := counts.unwanted (since.1 now rfl) (early purpose now List.mem_cons_self)
      rw [← known] at unwanted
      exact get_schedules unwanted got
    have still := (move.undisturbed owned unmarked unclaimed).1
    have order' : ClockOrder rest t := order.tail
    have later : ∀ purpose now, .look purpose key now ∈ rest → now.nanos < f.nanos + period.nanos :=
      fun purpose now inside => early purpose now (List.mem_cons_of_mem _ inside)
    rcases move.unlearned owned unmarked unruled.1 with kept | ⟨nothing, now, visited, rfl, faded⟩
    · rw [← move.policy] at counts
      exact ih (owned.move move) still (kept.trans known) counts order' since.2 later unruled.2
    · have passed : f.nanos + period.nanos ≤ now.nanos := by
        by_contra within
        obtain ⟨d, unwanted⟩ := counts.unwanted (since.1 now rfl) (Nat.lt_of_not_le within)
        rw [Knowledge.Faded, known, unwanted] at faded
        cases faded
      have unasked : ∀ purpose at', .look purpose key at' ∉ rest := by
        intro purpose at' inside
        have after := order.since rfl _ inside at' rfl
        have before := later purpose at' inside
        omega
      obtain ⟨flag, forgotten⟩ := run_forgotten (owned.move move) still nothing unasked unruled.2
      exact ⟨flag, Or.inr ⟨forgotten, Nat.le_trans passed (order.le rfl)⟩⟩

/-- A batch that is sent takes no key along that nobody has asked for. -/
theorem Owned.not_sent (owned : s.Owned) (unmarked : s.cache.inFlight key = false) {i : Nat} {t : Instant}
    {keys : List ProjectKey} (sent : .sent i t keys ∈ s.entries (.dispatch t)) : key ∉ keys := by
  intro inside
  have sending := (s.step_move (.dispatch t)).sending sent
  have held : key ∈ s.custody := List.mem_append_left _ (sending.queued key inside)
  rw [owned.marked_of_custody sending.running held] at unmarked
  cases unmarked

/-- While the fetch that a lookup has scheduled goes on, no lookup schedules another one. -/
theorem Owned.unscheduled {t : Instant} {purpose : Purpose} {rest : List Event} (owned : s.Owned)
    (bounded : s.cache.policy.Bounded) (schedules : s.Schedules key t true)
    (running : ((s.step (.look purpose key t)).run rest).status = .running)
    (unended : .ended ∉ (s.step (.look purpose key t)).turns key rest) (t' : Instant) :
    ((s.step (.look purpose key t)).run rest).Schedules key t' false := by
  obtain ⟨cache, l, got, scheduled⟩ := schedules
  have marked : (s.step (.look purpose key t)).cache.inFlight key = true := by
    rw [cache_look got, (Cache.get_looked got).inFlight, scheduled, decide_eq_true rfl]
    exact Bool.or_true _
  have still := run_marked (owned.move (step_move ..)) marked running unended
  have sound : ((s.step (.look purpose key t)).run rest).cache.policy.Bounded := by
    rw [run_policy, (step_move ..).policy]
    exact bounded
  obtain ⟨reading, readable⟩ := Cache.read_eq_ok sound key t'
  obtain ⟨wants, known, _⟩ := Cache.read_decision readable
  have idle := schedules_of_read known
  rw [still, Bool.not_true, Bool.and_false] at idle
  exact idle

end Steps

/-- What a fetch leaves when it is applied: nobody fetches the key, and what is known about it
counts from the dispatch. -/
theorem settled_by_fetch {s : Service} {key : ProjectKey} {f now : Instant} {id : Nat} {keys : List ProjectKey}
    {r : Resolution} {taken : Bool} {period : Duration} {middle : List Event} (owned : s.Owned)
    (upTo : (s.cache.knows key).UpTo f) (sent : .sent id f keys ∈ s.entries (.dispatch f))
    (applied : .applied id f key r taken ∈ (s.run (.dispatch f :: middle)).entries (.complete id now))
    (lasting : r.period? s.cache.policy taken = some period)
    (unruled : ∀ x ∈ s.chronicle (.dispatch f :: middle), x.rules key = false) :
    ((s.run (.dispatch f :: middle)).step (.complete id now)).cache.inFlight key = false ∧
      (((s.run (.dispatch f :: middle)).step (.complete id now)).cache.knows key).CountsFor
        s.cache.policy f period := by
  have dispatched := s.step_move (.dispatch f)
  have sending := dispatched.sending sent
  have owned₁ : (s.step (.dispatch f)).Owned := owned.move dispatched
  have owned₂ : (s.run (.dispatch f :: middle)).Owned := owned.run _
  have running := ((s.run (.dispatch f :: middle)).step_move (.complete id now)).applied_running applied
  obtain ⟨⟨b, member, rfl, rfl, inside⟩, accepted, knows, ended⟩ := owned₂.complete_applied applied
  obtain ⟨b', there, _, number, _⟩ := sending.batch
  have old : b.id < (s.step (.dispatch b.stamp)).dispatched := number ▸ owned₁.orderly.used b' there
  have known₁ : ((s.step (.dispatch b.stamp)).cache.knows key).UpTo b.stamp := by
    rw [sending.cache]
    exact upTo
  rw [chronicle, List.forall_mem_append] at unruled
  have known₂ : ((s.run (.dispatch b.stamp :: middle)).cache.knows key).UpTo b.stamp :=
    upTo_of_lasting (s := s.step (.dispatch b.stamp)) owned₁ known₁ running member old inside unruled.2
  subst accepted
  have unended : r ≠ .pending := by
    rintro rfl
    cases lasting
  refine ⟨ended unended, ?_⟩
  rw [knows]
  exact Knowledge.after_countsFor known₂ lasting

/-- Say that a fetch of the key was sent at `f` and has been applied as a configuration, as
accepted to be unchanged, or as missing, and that the override of the key has not changed since
`f`. Until the period of what was found out is over, no lookup schedules a fetch of the key and no
batch is sent with it. The first lookup after that schedules a fetch, and while that goes on no
other lookup does so. -/
theorem refetched_after_period (policy : Policy) (settings : ServiceSettings) (withOverrides : Bool)
    (before middle later : List Event) (key : ProjectKey) (f now t : Instant) (id : Nat) (keys : List ProjectKey)
    (r : Resolution) (taken : Bool) (period : Duration) (bounded : policy.Bounded)
    (order : ClockOrder (before ++ .dispatch f :: (middle ++ .complete id now :: later)) t)
    (sent : .sent id f keys ∈ ((start policy settings withOverrides).run before).entries (.dispatch f))
    (applied : .applied id f key r taken ∈
      ((start policy settings withOverrides).run (before ++ .dispatch f :: middle)).entries (.complete id now))
    (lasting : r.period? policy taken = some period)
    (unruled : ∀ x ∈ ((start policy settings withOverrides).run before).chronicle
      (.dispatch f :: (middle ++ .complete id now :: later)), x.rules key = false) :
    let s := (start policy settings withOverrides).run
      (before ++ .dispatch f :: (middle ++ .complete id now :: later))
    (t.nanos < f.nanos + period.nanos →
      s.Schedules key t false ∧ ∀ i keys, .sent i t keys ∈ s.entries (.dispatch t) → key ∉ keys) ∧
    (f.nanos + period.nanos ≤ t.nanos →
      (∀ purpose t', .look purpose key t' ∈ later → t'.nanos < f.nanos + period.nanos) →
      s.Schedules key t true ∧ ∀ purpose rest, ((s.step (.look purpose key t)).run rest).status = .running →
        .ended ∉ (s.step (.look purpose key t)).turns key rest →
        ∀ t', ((s.step (.look purpose key t)).run rest).Schedules key t' false) := by
  intro s
  let s₀ := (start policy settings withOverrides).run before
  let s₃ := (s₀.run (.dispatch f :: middle)).step (.complete id now)
  have owned₀ : s₀.Owned := (start_owned policy settings withOverrides).run before
  have policy₀ : s₀.cache.policy = policy := run_policy _ before
  have parted : Event.dispatch f :: (middle ++ .complete id now :: later) =
      (.dispatch f :: middle) ++ (.complete id now :: later) := (List.cons_append ..).symm
  have reached : s = s₃.run later := by
    have split : s = s₀.run (.dispatch f :: (middle ++ .complete id now :: later)) := run_append ..
    rw [split, parted, run_append]
    rfl
  have upTo : (s₀.cache.knows key).UpTo f :=
    (run_timely policy settings withOverrides (order.upTo rfl).each_le).learned key
  rw [run_append] at applied
  rw [parted, chronicle_append, List.forall_mem_append] at unruled
  obtain ⟨unruled₁, unruled₂⟩ := unruled
  rw [chronicle, List.forall_mem_append] at unruled₂
  rw [← policy₀] at lasting
  obtain ⟨unmarked₃, counts⟩ := settled_by_fetch owned₀ upTo sent applied lasting unruled₁
  have owned₃ : s₃.Owned := owned₀.run _ |>.move (step_move ..)
  have policy₃ : s₃.cache.policy = policy :=
    ((step_move ..).policy.trans (run_policy ..)).trans policy₀
  have policyₛ : s.cache.policy = policy := run_policy ..
  have ownedₛ : s.Owned := (start_owned policy settings withOverrides).run _
  rw [policy₀, ← policy₃] at counts
  have order₃ : ClockOrder later t := order.suffix.tail.suffix.tail
  have since : f.nanos ≤ t.nanos := order.suffix.le rfl
  have since₃ : ∀ e ∈ later, ∀ now, e.time? = some now → f.nanos ≤ now.nanos := fun e inside =>
    order.suffix.since rfl e (List.mem_append_right _ (List.mem_cons_of_mem _ inside))
  have spaced (early : ∀ purpose t', .look purpose key t' ∈ later → t'.nanos < f.nanos + period.nanos) :
      s.cache.inFlight key = false ∧ (s.cache.knows key = s₃.cache.knows key ∨
        s.cache.knows key = .nothing ∧ f.nanos + period.nanos ≤ t.nanos) := by
    rw [reached]
    exact run_spaced owned₃ unmarked₃ rfl counts order₃ since₃ early unruled₂.2
  rw [policy₃, ← policyₛ] at counts
  constructor
  · intro within
    have early : ∀ purpose t', .look purpose key t' ∈ later → t'.nanos < f.nanos + period.nanos :=
      fun purpose t' inside => Nat.lt_of_le_of_lt (order₃.each_le _ inside t' rfl) within
    obtain ⟨unmarked, known | ⟨_, passed⟩⟩ := spaced early
    · obtain ⟨d, unwanted⟩ := counts.unwanted since within
      rw [← known] at unwanted
      exact ⟨schedules_of_read unwanted, fun i keys sent => ownedₛ.not_sent unmarked sent⟩
    · omega
  · intro late early
    obtain ⟨unmarked, known⟩ := spaced early
    have wanted : ∃ d, (s.cache.knows key).read s.cache.policy t = .ok ⟨d, true⟩ := by
      rcases known with kept | ⟨nothing, _⟩
      · rw [kept]
        exact counts.wanted (policyₛ ▸ bounded) late
      · rw [nothing]
        exact ⟨_, rfl⟩
    obtain ⟨d, wanted⟩ := wanted
    have schedules := schedules_of_read wanted
    rw [unmarked] at schedules
    refine ⟨schedules, fun purpose rest running unended t' => ?_⟩
    exact ownedₛ.unscheduled (policyₛ ▸ bounded) schedules running unended t'

/-- A configuration that expires after a second is fetched again by the first lookup from then on,
after a check and a sweep within that second. -/
theorem refetched_once_expired :
    let s := start ⟨.ofSecs 1, .ofSecs 1, .ofSecs 10⟩ { batchSize := 10, queryTimeout := .ofSecs 30 } false
    let before : List Event := [.look .lookup "a" .origin, .advance 0, .receive]
    let middle : List Event := [.consult 0 fun _ => .ok none,
      .answer 0 (.ok { configs := KeyMap.ofList [("a", some (.object []))] })]
    let later : List Event := [.look .check "a" (.ofMillis 500), .sweep (.ofMillis 600),
      .look .lookup "b" (.ofMillis 1000)]
    let s' := s.run (before ++ .dispatch .origin :: (middle ++ .complete 0 (.ofMillis 100) :: later))
    let again : List Event := [.advance 2, .receive, .dispatch (.ofMillis 1100)]
    s'.Schedules "a" (.ofMillis 1000) true ∧
      ((s'.step (.look .lookup "a" (.ofMillis 1000))).run again).Schedules "a" (.ofMillis 1200) false := by
  intro s before middle later s' again
  have order : ClockOrder (before ++ .dispatch .origin :: (middle ++ .complete 0 (.ofMillis 100) :: later))
      (.ofMillis 1000) := by
    unfold ClockOrder
    decide +kernel
  have sent : (s.run before).entries (.dispatch .origin) = [.sent 0 .origin ["a"]] := by
    unfold s before; cbv
  have applied : (s.run (before ++ .dispatch .origin :: middle)).entries (.complete 0 (.ofMillis 100)) =
      [.applied 0 .origin "a" (.config ⟨[]⟩) true] := by
    unfold s before middle; cbv
  have quiet : ((s.run before).chronicle
      (.dispatch .origin :: (middle ++ .complete 0 (.ofMillis 100) :: later))).all (fun x => !x.rules "a") = true := by
    decide +kernel
  have early : ∀ purpose t', .look purpose "a" t' ∈ later →
      t'.nanos < Instant.origin.nanos + (Duration.ofSecs 1).nanos := by
    intro purpose t' inside
    have first : purpose = .check ∧ t' = .ofMillis 500 := by simpa [later] using inside
    rw [first.2]
    decide
  have unruled : ∀ x ∈ (s.run before).chronicle
      (.dispatch .origin :: (middle ++ .complete 0 (.ofMillis 100) :: later)), x.rules "a" = false := by
    intro x inside
    simpa using List.all_eq_true.mp quiet x inside
  obtain ⟨_, afterwards⟩ := refetched_after_period ⟨.ofSecs 1, .ofSecs 1, .ofSecs 10⟩
    { batchSize := 10, queryTimeout := .ofSecs 30 } false before middle later "a" .origin (.ofMillis 100)
    (.ofMillis 1000) 0 ["a"] (.config ⟨[]⟩) true (.ofSecs 1) (by decide) order
    (by rw [sent]; exact List.mem_singleton_self _) (by rw [applied]; exact List.mem_singleton_self _) rfl unruled
  obtain ⟨first, others⟩ := afterwards (by decide) early
  refine ⟨first, others .lookup again ?_ ?_ _⟩
  · decide +kernel
  · decide +kernel

end Service

end AdmissionCache
