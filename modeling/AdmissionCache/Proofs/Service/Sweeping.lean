import AdmissionCache.Proofs.Service.Evidence
import AdmissionCache.Proofs.Service.Parallel
import Mathlib.Data.List.Induction

namespace AdmissionCache

/-- Whether an event may change what is known. -/
def Event.teaches : Event → Bool
  | .complete _ _ => true
  | .reload _ _ => true
  | .sweep _ _ => true
  | _ => false

namespace Service

section Teaching
variable {s₁ s₂ s s' : Service} {e : Event} {new : List Entry} {key : ProjectKey} {t : Instant}

theorem Move.knows_kept (move : Move s e new s') (quiet : e.teaches = false) (key : ProjectKey) :
    s'.cache.knows key = s.cache.knows key := by
  cases move with
  | claimed got _ => exact (Cache.get_looked got).knows key
  | looked got _ _ => exact (Cache.get_looked got).knows key
  | freed _ _ => exact Cache.knows_fail ..
  | dispatched _ _ all =>
    obtain ⟨_, _, after⟩ := all.rest
    rw [after]
  | applied _ _ _ => cases quiet
  | released _ _ _ => cases quiet
  | reloaded _ _ _ => cases quiet
  | swept _ _ => cases quiet
  | unswept _ _ => cases quiet
  | _ => rfl

/-- What one event does to the knowledge of two services about a key: the same. -/
inductive Taught (s₁ s₂ s₁' s₂' : Service) (key : ProjectKey) : Prop
  | kept : s₁'.cache.knows key = s₁.cache.knows key → s₂'.cache.knows key = s₂.cache.knows key →
      Taught s₁ s₂ s₁' s₂' key
  | replaced : s₂'.cache.knows key = s₁'.cache.knows key → Taught s₁ s₂ s₁' s₂' key
  | applied {b : Batch} {r} : s₁.status = .running → b ∈ s₁.batches → (key, r) ∈ b.found →
      s₁'.cache.knows key = (s₁.cache.knows key).after b.stamp r →
      s₂'.cache.knows key = (s₂.cache.knows key).after b.stamp r → Taught s₁ s₂ s₁' s₂' key

theorem Parallel.taught_complete (parallel : Parallel s₁ s₂) (orderly : s₁.Orderly) (id : Nat) (now : Instant)
    (key : ProjectKey) : Taught s₁ s₂ (s₁.step (.complete id now)) (s₂.step (.complete id now)) key := by
  by_cases running : s₁.status = .running
  · have running₂ := parallel.status.trans running
    have same : s₂.batch? id = s₁.batch? id := by
      rw [parallel.rest]
      rfl
    simp only [Service.step, whileRunning_of_running running, whileRunning_of_running running₂, Service.complete, same]
    cases found : s₁.batch? id with
    | none => exact .kept rfl rfl
    | some b =>
      have member := (mem_of_batch? found).1
      cases progress : b.progress with
      | «open» left findings =>
        simp only [progress]
        exact .kept rfl rfl
      | resolved resolutions =>
        simp only [progress]
        by_cases own : key ∈ resolutions.map (·.1)
        · obtain ⟨⟨k, r⟩, inside, rfl⟩ := List.mem_map.mp own
          have distinct : (resolutions.map (·.1)).Nodup :=
            (orderly.resolved member progress).nodup_iff.mpr (orderly.distinct b member)
          have found : (k, r) ∈ b.found := by simpa only [Batch.found, progress] using inside
          exact .applied running member found
            (applyAll_own (s := s₁.dropBatch id) id b.stamp now distinct inside).1
            (applyAll_own (s := s₂.dropBatch id) id b.stamp now distinct inside).1
        · exact .kept (applyAll_other (s := s₁.dropBatch id) id b.stamp now own).1
            (applyAll_other (s := s₂.dropBatch id) id b.stamp now own).1
      | lost =>
        simp only [progress]
        exact .kept (knows_releaseAll ..) (knows_releaseAll ..)
  · have ended₂ : ¬ s₂.status = .running := fun running₂ => running (parallel.status.symm.trans running₂)
    rw [Service.step, Service.step, whileRunning_of_not_running running, whileRunning_of_not_running ended₂]
    exact .kept rfl rfl

theorem Parallel.taught_reload (parallel : Parallel s₁ s₂) (directory : Directory) (now : Instant)
    (key : ProjectKey) : Taught s₁ s₂ (s₁.step (.reload directory now)) (s₂.step (.reload directory now)) key := by
  by_cases running : s₁.status = .running
  · have running₂ := parallel.status.trans running
    have same : s₂.overrides = s₁.overrides := by
      rw [parallel.rest]
    cases loaded : s₁.overrides with
    | none =>
      simp only [Service.step, whileRunning_of_running running, whileRunning_of_running running₂, Service.reload, loaded,
        same.trans loaded]
      exact .kept rfl rfl
    | some previous =>
      cases scanned : previous.reload directory with
      | error e =>
        simp only [Service.step, whileRunning_of_running running, whileRunning_of_running running₂, Service.reload, loaded,
          same.trans loaded, Service.record, scanned]
        exact .kept rfl rfl
      | ok result =>
        obtain ⟨next, changes⟩ := result
        simp only [Service.step, whileRunning_of_running running, whileRunning_of_running running₂, Service.reload, loaded,
          same.trans loaded, Service.record, scanned]
        have knows₁ := knows_install s₁.cache now changes key
        have knows₂ := knows_install s₂.cache now changes key
        by_cases removed : key ∈ changes.removed
        · rw [if_pos removed] at knows₁ knows₂
          exact .replaced (knows₂.trans knows₁.symm)
        · rw [if_neg removed] at knows₁ knows₂
          cases updated : changes.updated.get? key with
          | none =>
            rw [updated] at knows₁ knows₂
            exact .kept knows₁ knows₂
          | some config =>
            rw [updated] at knows₁ knows₂
            exact .replaced (knows₂.trans knows₁.symm)
  · have ended₂ : ¬ s₂.status = .running := fun running₂ => running (parallel.status.symm.trans running₂)
    rw [Service.step, Service.step, whileRunning_of_not_running running, whileRunning_of_not_running ended₂]
    exact .kept rfl rfl

theorem Parallel.taught (parallel : Parallel s₁ s₂) (orderly : s₁.Orderly) (other : e.isSweep = false)
    (key : ProjectKey) : Taught s₁ s₂ (s₁.step e) (s₂.step e) key := by
  cases quiet : e.teaches with
  | false => exact .kept ((s₁.step_move e).knows_kept quiet key) ((s₂.step_move e).knows_kept quiet key)
  | true =>
    cases e with
    | complete id now => exact parallel.taught_complete orderly id now key
    | reload directory now => exact parallel.taught_reload directory now key
    | sweep now => cases other
    | _ => cases quiet

end Teaching

/-- Whatever either service knows about the key counts no longer, and every batch on its way
was sent without a revision and after it was learned. -/
structure Adrift (t : Instant) (s₁ s₂ : Service) (key : ProjectKey) : Prop where
  faded₁ : (s₁.cache.knows key).Faded s₁.cache.policy t
  faded₂ : (s₂.cache.knows key).Faded s₁.cache.policy t
  unsent : s₁.status = .running → ∀ b ∈ s₁.batches, key ∈ b.keys →
    b.SentWithout key ∧ (s₁.cache.knows key).UpTo b.stamp ∧ (s₂.cache.knows key).UpTo b.stamp

/-- From `t` on the services cannot be told apart. -/
structure Alike (t : Instant) (s₁ s₂ : Service) : Prop where
  parallel : Parallel s₁ s₂
  knows : ∀ key, s₂.cache.knows key = s₁.cache.knows key ∨ Adrift t s₁ s₂ key

/-- What a run up to `t` keeps, as far as it matters here. No batch was told by the authority
that a key is unchanged which it was sent no revision of. -/
structure Fair (t : Instant) (s : Service) : Prop where
  owned : s.Owned
  learned : ∀ key, (s.cache.knows key).UpTo t
  bounded : s.cache.policy.Bounded
  fair : ∀ b ∈ s.batches, ∀ key, (key, .unchanged none) ∉ b.found

section Alike
variable {s₁ s₂ : Service} {e : Event} {key : ProjectKey} {t now : Instant}

theorem Adrift.symm (adrift : Adrift t s₁ s₂ key) (parallel : Parallel s₁ s₂) : Adrift t s₂ s₁ key := by
  refine ⟨?_, ?_, ?_⟩
  · rw [parallel.policy]
    exact adrift.faded₂
  · rw [parallel.policy]
    exact adrift.faded₁
  · intro running b member own
    rw [parallel.status] at running
    rw [parallel.batches] at member
    obtain ⟨without, upTo₁, upTo₂⟩ := adrift.unsent running b member own
    exact ⟨without, upTo₂, upTo₁⟩

theorem Alike.symm (alike : Alike t s₁ s₂) : Alike t s₂ s₁ := by
  refine ⟨alike.parallel.symm, fun key => ?_⟩
  rcases alike.knows key with same | adrift
  · exact Or.inl same.symm
  · exact Or.inr (adrift.symm alike.parallel)

theorem Alike.later (alike : Alike now s₁ s₂) (later : now.nanos ≤ t.nanos) : Alike t s₁ s₂ := by
  refine ⟨alike.parallel, fun key => ?_⟩
  rcases alike.knows key with same | adrift
  · exact Or.inl same
  · exact Or.inr ⟨adrift.faded₁.later later, adrift.faded₂.later later, adrift.unsent⟩

/-- Services alike read the same. -/
theorem Alike.reads (alike : Alike now s₁ s₂) (key : ProjectKey) (later : now.nanos ≤ t.nanos) :
    s₂.cache.read key t = s₁.cache.read key t := by
  rw [Cache.read_eq, Cache.read_eq, alike.parallel.policy, alike.parallel.marks]
  rcases (alike.later later).knows key with same | adrift
  · rw [same]
  · have faded₁ : (s₁.cache.knows key).read s₁.cache.policy t = .ok ⟨.unknown, true⟩ := adrift.faded₁
    have faded₂ : (s₂.cache.knows key).read s₁.cache.policy t = .ok ⟨.unknown, true⟩ := adrift.faded₂
    rw [faded₁, faded₂]

/-- A sweep of one of the services changes nothing between them: what it removes counts no
longer, and no batch is on its way that brings news of it. -/
theorem Alike.swept (alike : Alike t s₁ s₂) (fair : Fair t s₁) (later : now.nanos ≤ t.nanos)
    (visited : List ProjectKey) : Alike t (s₁.step (.sweep now visited)) s₂ := by
  refine ⟨alike.parallel.swept fair.bounded visited, fun key => ?_⟩
  have moved := s₁.step_move (.sweep now visited)
  have batches : (s₁.step (.sweep now visited)).batches = s₁.batches :=
    (alike.parallel.swept fair.bounded visited).batches.symm.trans alike.parallel.batches
  have kept (same : (s₁.step (.sweep now visited)).cache.knows key = s₁.cache.knows key) :
      s₂.cache.knows key = (s₁.step (.sweep now visited)).cache.knows key ∨ Adrift t (s₁.step (.sweep now visited)) s₂ key := by
    rcases alike.knows key with equal | adrift
    · exact Or.inl (equal.trans same.symm)
    · right
      refine ⟨?_, ?_, fun running b member own => ?_⟩
      · rw [same, moved.policy]
        exact adrift.faded₁
      · rw [moved.policy]
        exact adrift.faded₂
      · rw [batches] at member
        rw [same]
        exact adrift.unsent (moved.ran running) b member own
  by_cases running : s₁.status = .running
  · obtain ⟨cache, removed, gone⟩ := Cache.evictExpired_eq_ok fair.bounded now
    have after : (s₁.step (.sweep now visited)).cache = cache := by
      simp only [step, whileRunning_of_running running, sweep, gone, record]
    rcases (Cache.evictExpired_swept gone).knows key with same | ⟨forgotten, unmarked, faded⟩
    · exact kept (by rw [after, same])
    · right
      refine ⟨?_, ?_, fun _ b member own => ?_⟩
      · rw [after, forgotten]
        exact Knowledge.faded_nothing ..
      · rw [moved.policy]
        rcases alike.knows key with equal | adrift
        · rw [equal]
          exact faded.later later
        · exact adrift.faded₂
      · rw [batches] at member
        exact absurd own (fair.owned.not_mem_keys running unmarked member)
  · refine kept ?_
    rw [step, whileRunning_of_not_running running]

/-- A key stays adrift in a step that teaches nothing about it. -/
theorem Adrift.step (adrift : Adrift t s₁ s₂ key) (fair₁ : Fair t s₁) (fair₂ : Fair t s₂)
    (ordered : ∀ now, e.time? = some now → now = t) {s₂' : Service}
    (kept₁ : (s₁.step e).cache.knows key = s₁.cache.knows key)
    (kept₂ : s₂'.cache.knows key = s₂.cache.knows key) : Adrift t (s₁.step e) s₂' key := by
  have moved := s₁.step_move e
  refine ⟨?_, ?_, fun running b' member own => ?_⟩
  · rw [kept₁, moved.policy]
    exact adrift.faded₁
  · rw [kept₂, moved.policy]
    exact adrift.faded₂
  · rw [kept₁, kept₂]
    rcases moved.batch_origin member with ⟨b, old, step⟩ | ⟨_, asked, rfl, told, progress⟩
    · obtain ⟨_, stamp, keys⟩ := step.same
      obtain ⟨before, upTo₁, upTo₂⟩ := adrift.unsent (moved.ran running) b old (keys ▸ own)
      rw [← stamp]
      exact ⟨step.sentWithout before, upTo₁, upTo₂⟩
    · have here := ordered b'.stamp rfl
      have unknown : s₁.cache.knownRevision key b'.stamp = .ok none := by
        have faded : (s₁.cache.knows key).read s₁.cache.policy t = .ok ⟨.unknown, true⟩ := adrift.faded₁
        rw [Cache.knownRevision, Cache.peek, Cache.read_eq, here, faded]
        rfl
      rw [here]
      exact ⟨.of_asked told progress unknown, fair₁.learned key, fair₂.learned key⟩

/-- What a batch brings for a key that is adrift leaves both services with the same, or adds
nothing. -/
theorem Adrift.after (adrift : Adrift t s₁ s₂ key) (fair : Fair t s₁) (running : s₁.status = .running)
    {b : Batch} (member : b ∈ s₁.batches) {r : Resolution} (found : (key, r) ∈ b.found) :
    (s₂.cache.knows key).after b.stamp r = (s₁.cache.knows key).after b.stamp r ∨
      ∀ k : Knowledge, k.after b.stamp r = k := by
  have own := fair.owned.orderly.mem_keys_of_found member found
  obtain ⟨without, upTo₁, upTo₂⟩ := adrift.unsent running b member own
  cases r with
  | config config =>
    left
    rw [Knowledge.after, Knowledge.after, upTo₁.settle, upTo₂.settle]
    rfl
  | notFound =>
    left
    rw [Knowledge.after, Knowledge.after, upTo₁.settle, upTo₂.settle]
    rfl
  | unchanged revision =>
    obtain rfl := without.found revision found
    exact absurd found (fair.fair b member key)
  | pending =>
    right
    intro k
    rw [Knowledge.after, Knowledge.settle_pending, Option.getD_none]
  | failed =>
    right
    intro k
    rw [Knowledge.after, Knowledge.settle_failed, Option.getD_none]

theorem Alike.step (alike : Alike t s₁ s₂) (fair₁ : Fair t s₁) (fair₂ : Fair t s₂) (other : e.isSweep = false)
    (ordered : ∀ now, e.time? = some now → now = t) : Alike t (s₁.step e) (s₂.step e) := by
  have reads (key : ProjectKey) (now : Instant) (time : e.time? = some now) :
      s₂.cache.read key now = s₁.cache.read key now := by
    rw [ordered now time]
    exact alike.reads key (Nat.le_refl _)
  refine ⟨alike.parallel.step other reads, fun key => ?_⟩
  have taught := alike.parallel.taught fair₁.owned.orderly other key
  rcases alike.knows key with same | adrift
  · cases taught with
    | kept knows₁ knows₂ => exact Or.inl (knows₂.trans (same.trans knows₁.symm))
    | replaced equal => exact Or.inl equal
    | applied _ _ _ knows₁ knows₂ =>
      rw [same] at knows₂
      exact Or.inl (knows₂.trans knows₁.symm)
  · cases taught with
    | kept knows₁ knows₂ => exact Or.inr (adrift.step fair₁ fair₂ ordered knows₁ knows₂)
    | replaced equal => exact Or.inl equal
    | applied running member found knows₁ knows₂ =>
      rcases adrift.after fair₁ running member found with equal | nothing
      · exact Or.inl (knows₂.trans (equal.trans knows₁.symm))
      · exact Or.inr (adrift.step fair₁ fair₂ ordered (knows₁.trans (nothing _)) (knows₂.trans (nothing _)))

end Alike

end Service

theorem ClockOrder.init {events : List Event} {e : Event} {t : Instant} (order : ClockOrder (events ++ [e]) t) :
    ClockOrder events t := by
  rw [ClockOrder, List.filterMap_append] at order
  exact order.sublist ((List.sublist_append_left ..).append_right _)

/-- A run in clock order is so up to its last event, if that goes by an instant. -/
theorem ClockOrder.before {events : List Event} {e : Event} {t now : Instant} (order : ClockOrder (events ++ [e]) t)
    (time : e.time? = some now) : ClockOrder events now ∧ now.nanos ≤ t.nanos := by
  have member : e ∈ events ++ [e] := List.mem_append_right _ (List.mem_singleton_self e)
  exact ⟨order.upTo time, order.each_le e member now time⟩

namespace Service

/-- What can be seen of a run: what lookups answer, which batches are sent, and how the keys
read from the end of a completion on. -/
inductive Sight
  | answered (result : Except PeriodOverflow Lookup)
  | sent (batches : List Batch)
  | left (readings : ProjectKey → Duration → Except PeriodOverflow Reading)

/-- How the keys read some time after `now`. -/
def readings (s : Service) (now : Instant) (key : ProjectKey) (later : Duration) : Except PeriodOverflow Reading :=
  s.cache.read key (now.after later)

/-- What can be seen of an event. -/
def sight? (s : Service) : Event → Option Sight
  | .look _ key now => some (.answered ((s.cache.get key now).map (·.2)))
  | .dispatch now => some (.sent ((s.step (.dispatch now)).batches.drop s.batches.length))
  | .complete id now => some (.left ((s.step (.complete id now)).readings now))
  | _ => none

/-- What can be seen of a run. -/
def sights (s : Service) : List Event → List Sight
  | [] => []
  | e :: rest => (s.sight? e).toList ++ (s.step e).sights rest

theorem sights_append (s : Service) (earlier later : List Event) :
    s.sights (earlier ++ later) = s.sights earlier ++ (s.run earlier).sights later := by
  induction earlier generalizing s with
  | nil => rfl
  | cons e rest ih =>
    rw [List.cons_append, sights, sights, ih, List.append_assoc]
    rfl

theorem sights_concat (s : Service) (events : List Event) (e : Event) :
    s.sights (events ++ [e]) = s.sights events ++ ((s.run events).sight? e).toList := by
  rw [sights_append, sights, sights, List.append_nil]

theorem run_concat (s : Service) (events : List Event) (e : Event) :
    s.run (events ++ [e]) = (s.run events).step e := by
  rw [run_append]
  rfl

/-- Two sequences of events that differ in sweeps only, taken from their ends. -/
inductive Aligned : List Event → List Event → Prop
  | nil : Aligned [] []
  | left {as bs} (now visited) : Aligned as bs → Aligned (as ++ [.sweep now visited]) bs
  | right {as bs} (now visited) : Aligned as bs → Aligned as (bs ++ [.sweep now visited])
  | both {as bs e} : e.isSweep = false → Aligned as bs → Aligned (as ++ [e]) (bs ++ [e])

theorem eq_sweep {e : Event} (sweep : e.isSweep = true) : ∃ now visited, e = .sweep now visited := by
  cases e with
  | sweep now visited => exact ⟨now, visited, rfl⟩
  | _ => cases sweep

theorem aligned_of_filter {events₁ events₂ : List Event}
    (same : events₁.filter (!·.isSweep) = events₂.filter (!·.isSweep)) : Aligned events₁ events₂ := by
  induction events₁ using List.reverseRecOn generalizing events₂ with
  | nil =>
    induction events₂ using List.reverseRecOn with
    | nil => exact .nil
    | append_singleton rest e ih =>
      rw [List.filter_append] at same
      obtain ⟨earlier, last⟩ := List.append_eq_nil_iff.mp same.symm
      cases sweep : e.isSweep with
      | false =>
        rw [List.filter_singleton, sweep] at last
        cases last
      | true =>
        obtain ⟨now, visited, rfl⟩ := eq_sweep sweep
        exact .right now visited (ih earlier.symm)
  | append_singleton first e ih =>
    cases sweep : e.isSweep with
    | true =>
      obtain ⟨now, visited, rfl⟩ := eq_sweep sweep
      rw [List.filter_append, List.filter_singleton] at same
      exact .left now visited (ih ((List.append_nil _).symm.trans same))
    | false =>
      induction events₂ using List.reverseRecOn with
      | nil =>
        rw [List.filter_append, List.filter_singleton, sweep] at same
        exact absurd same (by simp)
      | append_singleton rest other inner =>
        cases otherSweep : other.isSweep with
        | true =>
          obtain ⟨now, visited, rfl⟩ := eq_sweep otherSweep
          refine .right now visited (inner ?_)
          rw [same, List.filter_append, List.filter_singleton]
          exact List.append_nil _
        | false =>
          rw [List.filter_append, List.filter_append, List.filter_singleton, List.filter_singleton, sweep,
            otherSweep] at same
          obtain ⟨earlier, last⟩ := List.append_inj' same rfl
          cases last
          exact .both sweep (ih earlier)

section Runs
variable {policy : Policy} {settings : ServiceSettings} {withOverrides : Bool}

theorem told_unchanged_none {s : Service} {events : List Event} {i : Nat} {key : ProjectKey} {source : SourceName}
    (member : .told i key (.unchanged none) source ∈ s.chronicle events) : source = .authority := by
  induction events generalizing s with
  | nil => cases member
  | cons e rest ih =>
    rcases List.mem_append.mp member with now | later
    · exact (s.step_move e).told_unchanged_none now
    · exact ih later

theorem run_fair {events : List Event} {t : Instant} (bounded : policy.Bounded) (order : ClockOrder events t)
    (fair : ∀ b ∈ ((start policy settings withOverrides).run events).batches, ∀ key,
      (key, .unchanged none) ∉ b.found) : Fair t ((start policy settings withOverrides).run events) := by
  have faithful := run_faithful policy settings withOverrides events
  have timely := run_timely policy settings withOverrides order.each_le
  refine ⟨faithful.owned, fun key f known => timely.learned key f known, ?_, fair⟩
  rw [faithful.policy]
  exact bounded

/-- An authority that never calls a key unchanged without a revision tells no batch so. -/
theorem not_found_unchanged_none {events : List Event}
    (fair : ∀ i key, .told i key (.unchanged none) .authority ∉ (start policy settings withOverrides).chronicle events) :
    ∀ b ∈ ((start policy settings withOverrides).run events).batches, ∀ key, (key, .unchanged none) ∉ b.found := by
  intro b member key found
  have faithful := run_faithful policy settings withOverrides events
  obtain ⟨source, told⟩ := faithful.recorded.told b member _ found
  obtain rfl := told_unchanged_none told
  exact fair b.id key told

theorem Alike.sight {s₁ s₂ : Service} {e : Event} {t : Instant} (alike : Alike t s₁ s₂)
    (after : Alike t (s₁.step e) (s₂.step e)) (ordered : ∀ now, e.time? = some now → now = t) :
    s₂.sight? e = s₁.sight? e := by
  cases e with
  | look purpose key now =>
    rw [ordered now rfl, sight?, sight?, Cache.get_answer, Cache.get_answer, alike.reads key (Nat.le_refl _)]
  | dispatch now =>
    rw [sight?, sight?, alike.parallel.batches, after.parallel.batches]
  | complete id now =>
    obtain rfl := ordered now rfl
    have same : (s₂.step (.complete id now)).readings now = (s₁.step (.complete id now)).readings now := by
      funext key later
      exact after.reads key (Nat.le_add_right _ _)
    rw [sight?, sight?, same]
  | _ => rfl

/-- Two runs that differ in sweeps only stay alike, and look alike. -/
theorem Aligned.alike {events₁ events₂ : List Event} (aligned : Aligned events₁ events₂) {t : Instant}
    (bounded : policy.Bounded) (order₁ : ClockOrder events₁ t) (order₂ : ClockOrder events₂ t)
    (fair : ∀ i key, .told i key (.unchanged none) .authority ∉
      (start policy settings withOverrides).chronicle events₁) :
    Alike t ((start policy settings withOverrides).run events₁) ((start policy settings withOverrides).run events₂) ∧
      (start policy settings withOverrides).sights events₂ = (start policy settings withOverrides).sights events₁ := by
  induction aligned generalizing t with
  | nil => exact ⟨⟨.refl _, fun _ => Or.inl rfl⟩, rfl⟩
  | @left first second now visited aligned ih =>
    have fairBefore : ∀ i key, .told i key (.unchanged none) .authority ∉
        (start policy settings withOverrides).chronicle first := by
      intro i key member
      rw [chronicle_append] at fair
      exact fair i key (List.mem_append_left _ member)
    obtain ⟨alike, same⟩ := ih order₁.init order₂ fairBefore
    have fair₁ := run_fair bounded order₁.init (not_found_unchanged_none fairBefore)
    rw [run_concat, sights_concat]
    exact ⟨alike.swept fair₁ (order₁.before rfl).2 visited, same.trans (List.append_nil _).symm⟩
  | @right first second now visited aligned ih =>
    obtain ⟨alike, same⟩ := ih order₁ order₂.init fair
    have fair₂ : Fair t ((start policy settings withOverrides).run second) := by
      refine run_fair bounded order₂.init ?_
      rw [alike.parallel.batches]
      exact not_found_unchanged_none fair
    rw [run_concat, sights_concat]
    exact ⟨(alike.symm.swept fair₂ (order₂.before rfl).2 visited).symm, (List.append_nil _).trans same⟩
  | @both first second e other aligned ih =>
    have fairBefore : ∀ i key, .told i key (.unchanged none) .authority ∉
        (start policy settings withOverrides).chronicle first := by
      intro i key member
      rw [chronicle_append] at fair
      exact fair i key (List.mem_append_left _ member)
    have stepped {now : Instant} (before₁ : ClockOrder first now) (before₂ : ClockOrder second now)
        (ordered : ∀ time, e.time? = some time → time = now) :
        Alike now (((start policy settings withOverrides).run first).step e)
            (((start policy settings withOverrides).run second).step e) ∧
          (start policy settings withOverrides).sights (second ++ [e]) =
            (start policy settings withOverrides).sights (first ++ [e]) := by
      obtain ⟨alike, same⟩ := ih before₁ before₂ fairBefore
      have unfound := not_found_unchanged_none fairBefore
      have fair₁ := run_fair bounded before₁ unfound
      rw [← alike.parallel.batches] at unfound
      have fair₂ := run_fair bounded before₂ unfound
      have after := alike.step fair₁ fair₂ other ordered
      refine ⟨after, ?_⟩
      rw [sights_concat, sights_concat, same, alike.sight after ordered]
    rw [run_concat, run_concat]
    cases time : e.time? with
    | none => exact stepped order₁.init order₂.init (by rw [time]; exact nofun)
    | some now =>
      obtain ⟨before₁, later⟩ := order₁.before time
      have ordered : ∀ t', e.time? = some t' → t' = now := by
        rw [time]
        exact fun t' same => (Option.some.inj same).symm
      obtain ⟨after, same⟩ := stepped before₁ (order₂.before time).1 ordered
      exact ⟨after.later later, same⟩

end Runs

theorem answered_ok {s : Service} {events : List Event} (bounded : s.cache.policy.Bounded)
    {answer : Except PeriodOverflow Lookup} (seen : .answered answer ∈ s.sights events) :
    ∃ l, answer = .ok l := by
  induction events generalizing s with
  | nil => cases seen
  | cons e rest ih =>
    rcases List.mem_append.mp seen with first | later
    · cases e with
      | look purpose key now =>
        obtain rfl := Sight.answered.inj (Option.some.inj (Option.mem_toList.mp first))
        obtain ⟨r, read⟩ := Cache.read_eq_ok bounded key now
        rw [Cache.get_answer, read]
        exact ⟨_, rfl⟩
      | dispatch now => cases Option.mem_toList.mp first
      | complete id now => cases Option.mem_toList.mp first
      | _ => cases first
    · exact ih ((s.step_move e).policy ▸ bounded) later

/-- Of two runs that differ only in when they sweep, every lookup gives the same answer, the
same batches are sent, and every completion leaves what can be used; the services end alike,
but for what sweeps count. -/
theorem sweeps_unobservable (policy : Policy) (settings : ServiceSettings) (withOverrides : Bool)
    (events₁ events₂ : List Event) (t : Instant) (bounded : policy.Bounded) (order₁ : ClockOrder events₁ t)
    (order₂ : ClockOrder events₂ t) (same : events₁.filter (!·.isSweep) = events₂.filter (!·.isSweep))
    (fair : ∀ i key, .told i key (.unchanged none) .authority ∉
      (start policy settings withOverrides).chronicle events₁) :
    let s := start policy settings withOverrides
    s.sights events₂ = s.sights events₁ ∧
    (∀ answer, .answered answer ∈ s.sights events₁ → ∃ l, answer = .ok l) ∧
    Parallel (s.run events₁) (s.run events₂) ∧ (s.run events₂).readings t = (s.run events₁).readings t := by
  intro s
  obtain ⟨alike, seen⟩ := (aligned_of_filter same).alike bounded order₁ order₂ fair
  refine ⟨seen, fun answer => answered_ok bounded, alike.parallel, ?_⟩
  funext key later
  exact alike.reads key (Nat.le_add_right _ _)

/-- The authority says that something without a revision is unchanged. -/
def tellsUnrevised : Entry → Bool
  | .told _ _ (.unchanged none) .authority => true
  | _ => false

/-- An expired configuration is removed by a sweep in one run only; then the key is fetched
again in both. -/
theorem fetched_again_with_and_without_sweep :
    let s := start ⟨.ofSecs 1, .zero, .ofSecs 10⟩ { batchSize := 10, queryTimeout := .ofSecs 30 } false
    let delivery : Except QueryFault ConfigsResponse := .ok { configs := KeyMap.ofList [("a", some (.object []))] }
    let loaded := [.look .lookup "a" .origin, .advance 0, .receive, .dispatch .origin, .consult 0 fun _ => .ok none,
      .answer 0 delivery, .complete 0 (.ofMillis 100)]
    let again := [.look .lookup "a" (.ofMillis 4000), .advance 0, .receive, .dispatch (.ofMillis 4000),
      .consult 1 fun _ => .ok none, .answer 1 delivery, .complete 1 (.ofMillis 4100)]
    (s.sights (loaded ++ .sweep (.ofMillis 3000) :: again) = s.sights (loaded ++ again) ∧
      (∀ answer, .answered answer ∈ s.sights (loaded ++ again) → ∃ l, answer = .ok l) ∧
      Parallel (s.run (loaded ++ again)) (s.run (loaded ++ .sweep (.ofMillis 3000) :: again)) ∧
      (s.run (loaded ++ .sweep (.ofMillis 3000) :: again)).readings (.ofMillis 4200) =
        (s.run (loaded ++ again)).readings (.ofMillis 4200)) ∧
    (s.run (loaded ++ [.sweep (.ofMillis 3000)])).cache.size = 0 ∧ (s.run loaded).cache.size = 1 := by
  intro s delivery loaded again
  have order₁ : ClockOrder (loaded ++ again) (.ofMillis 4200) := by
    unfold ClockOrder
    decide +kernel
  have order₂ : ClockOrder (loaded ++ .sweep (.ofMillis 3000) :: again) (.ofMillis 4200) := by
    unfold ClockOrder
    decide +kernel
  have revisions : (s.chronicle (loaded ++ again)).all (!tellsUnrevised ·) = true := by decide +kernel
  have fair : ∀ i key, .told i key (.unchanged none) .authority ∉ s.chronicle (loaded ++ again) := by
    intro i key member
    cases List.all_eq_true.mp revisions _ member
  refine ⟨sweeps_unobservable _ _ _ _ _ _ (by decide) order₁ order₂ rfl fair, ?_⟩
  decide +kernel

end Service

end AdmissionCache
