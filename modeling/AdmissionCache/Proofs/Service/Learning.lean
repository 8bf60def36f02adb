import AdmissionCache.Proofs.Service.Ownership
import AdmissionCache.Proofs.Service.Provenance

namespace AdmissionCache

theorem Entry.changes_of_untouched {key : ProjectKey} {e : Entry} (untouched : e.touches key = false) :
    e.changes key = false := by
  cases changed : e.changes key with
  | false => rfl
  | true => exact untouched ▸ (Entry.touches_of_changes changed).symm

namespace Service

/-- All that can become of the knowledge about a key in one step. It is forgotten when an
override is removed, or when a sweep finds that it counts no longer. -/
inductive Learned (s s' : Service) (cause : Event) (key : ProjectKey) : List Entry → Prop
  | same {new} : s'.cache.knows key = s.cache.knows key → (∀ e ∈ new, e.changes key = false) →
      Learned s s' cause key new
  | forgotten {new} : s'.cache.knows key = .nothing →
      (.withdrawn key ∈ new ∨
        ∃ now visited, cause = .sweep now visited ∧ (s.cache.knows key).Faded s.cache.policy now) →
      Learned s s' cause key new
  | applied {b : Batch} {r learned before after} : b ∈ s.batches → (key, r) ∈ b.found →
      (s.cache.knows key).settle b.stamp (r.lesson b.stamp) = some learned →
      s'.cache.knows key = learned → (r ≠ .pending → s'.cache.inFlight key = false) →
      (∀ e ∈ before, e.touches key = false) → (∀ e ∈ after, e.touches key = false) →
      Learned s s' cause key (before ++ .applied b.id b.stamp key r true :: after)
  | overridden {config now before after} : s'.cache.knows key = .loaded config now →
      (∀ e ∈ before, e.touches key = false) → (∀ e ∈ after, e.touches key = false) →
      Learned s s' cause key (before ++ .overridden key config now :: after)

section Steps
variable {s s' : Service} {e : Event} {new : List Entry} {key : ProjectKey}

theorem Learned.ofApplied {b : Batch} {resolutions : List Resolved} {now : Instant} (orderly : s.Orderly)
    (member : b ∈ s.batches) (progress : b.progress = .resolved resolutions) :
    Learned s ((s.dropBatch b.id).applyAll b.stamp now resolutions) e key
      (applications b.id b.stamp now resolutions (s.dropBatch b.id)) := by
  by_cases own : key ∈ resolutions.map (·.1)
  · obtain ⟨⟨k, r⟩, inside, rfl⟩ := List.mem_map.mp own
    have distinct : (resolutions.map (·.1)).Nodup :=
      (orderly.resolved member progress).nodup_iff.mpr (orderly.distinct b member)
    obtain ⟨knows, flag, before, after, split, silentBefore, silentAfter⟩ :=
      applyAll_own (s := s.dropBatch b.id) b.id b.stamp now distinct inside
    rw [cache_dropBatch] at knows split
    rw [split]
    cases settled : (s.cache.knows k).settle b.stamp (r.lesson b.stamp) with
    | none =>
      refine .same (knows.trans ?_) ?_
      · rw [Knowledge.after, settled, Option.getD_none]
      · intro e member
        rcases List.mem_append.mp member with old | new
        · exact Entry.changes_of_untouched (silentBefore e old)
        · rcases List.mem_cons.mp new with rfl | later
          · exact Bool.and_false _
          · exact Entry.changes_of_untouched (silentAfter e later)
    | some learned =>
      have found : (k, r) ∈ b.found := by simpa only [Batch.found, progress] using inside
      refine .applied member found settled (knows.trans ?_) flag silentBefore silentAfter
      rw [Knowledge.after, settled, Option.getD_some]
  · obtain ⟨knows, _, silent⟩ :=
      applyAll_other (s := s.dropBatch b.id) b.id b.stamp now own
    exact .same knows fun e member => Entry.changes_of_untouched (silent e member)

theorem Learned.ofReloaded {changes : OverrideChanges} {now : Instant} {next : Snapshot}
    {samples : List Sample} :
    Learned s { s with overrides := some next, cache := install s.cache changes now, samples } e key
      (OverrideChanges.entries changes now) := by
  have knows := knows_install s.cache now changes key
  by_cases removed : key ∈ changes.removed
  · rw [if_pos removed] at knows
    refine .forgotten knows (Or.inl ?_)
    exact List.mem_append_right _ (List.mem_map_of_mem removed)
  · rw [if_neg removed] at knows
    have withdrawn : ∀ e ∈ changes.removed.map Entry.withdrawn, e.touches key = false := by
      intro e member
      obtain ⟨other, inside, rfl⟩ := List.mem_map.mp member
      exact decide_eq_false fun same => removed (same ▸ inside)
    cases updated : changes.updated.get? key with
    | none =>
      rw [updated] at knows
      refine .same knows fun e member => Entry.changes_of_untouched ?_
      rcases mem_changes_entries member with ⟨u, inside, rfl⟩ | ⟨other, inside, rfl⟩
      · refine decide_eq_false fun same => ?_
        have present := (changes.updated.mem_toList_iff u.1 u.2).mp inside
        rw [same, updated] at present
        cases present
      · exact withdrawn _ (List.mem_map_of_mem inside)
    | some config =>
      rw [updated] at knows
      obtain ⟨before, after, parted⟩ :=
        List.append_of_mem ((changes.updated.mem_toList_iff key config).mpr updated)
      have others := changes.updated.keys_nodup
      have listed : changes.updated.keys = before.map (·.1) ++ key :: after.map (·.1) := by
        rw [KeyMap.keys, ← KeyMap.toList, parted, List.map_append, List.map_cons]
      rw [listed, List.nodup_middle, List.nodup_cons, List.mem_append, not_or] at others
      have silent (entries : List (String × ProjectConfig)) (absent : key ∉ entries.map (·.1)) :
          ∀ e ∈ entries.map fun u => Entry.overridden u.1 u.2 now, e.touches key = false := by
        intro e member
        obtain ⟨u, inside, rfl⟩ := List.mem_map.mp member
        exact decide_eq_false fun same => absent (same ▸ List.mem_map_of_mem inside)
      have split : OverrideChanges.entries changes now = before.map (fun u => .overridden u.1 u.2 now) ++
          .overridden key config now ::
            (after.map (fun u => .overridden u.1 u.2 now) ++ changes.removed.map .withdrawn) := by
        rw [OverrideChanges.entries, parted, List.map_append, List.map_cons, List.append_assoc,
          List.cons_append]
      rw [split]
      refine .overridden knows (silent before others.1.1) fun e member => ?_
      rcases List.mem_append.mp member with later | gone
      · exact silent after others.1.2 e later
      · exact withdrawn e gone

theorem Learned.ofSwept {now : Instant} {visited : List ProjectKey} (swept : Cache.Swept s.cache now s'.cache) :
    Learned s s' (.sweep now visited) key [] := by
  rcases swept.knows key with kept | ⟨forgotten, _, faded⟩
  · exact .same kept (List.forall_mem_nil _)
  · exact .forgotten forgotten (Or.inr ⟨now, visited, rfl, faded⟩)

theorem Move.learned (move : Move s e new s') (orderly : s.Orderly) (key : ProjectKey) :
    Learned s s' e key new := by
  cases move with
  | claimed got _ => exact .same ((Cache.get_looked got).knows key) (List.forall_mem_nil _)
  | looked got _ _ => exact .same ((Cache.get_looked got).knows key) (List.forall_mem_nil _)
  | freed _ _ => exact .same (Cache.knows_fail ..) (List.forall_mem_nil _)
  | dispatched _ _ all =>
    obtain ⟨_, _, after⟩ := all.rest
    refine .same (by rw [after]) fun e member => ?_
    obtain ⟨_, _, rfl⟩ := List.mem_map.mp member
    rfl
  | consulted _ _ =>
    refine .same rfl fun e member => ?_
    obtain ⟨_, _, rfl⟩ := List.mem_map.mp member
    rfl
  | answered _ _ =>
    refine .same rfl fun e member => ?_
    obtain ⟨_, _, rfl⟩ := List.mem_map.mp member
    rfl
  | applied _ found progress => exact .ofApplied orderly (mem_of_batch? found).1 progress
  | released _ _ _ =>
    refine .same (knows_releaseAll ..) fun e member => ?_
    obtain ⟨_, _, rfl⟩ := List.mem_map.mp member
    rfl
  | reloaded _ _ _ => exact .ofReloaded
  | swept _ gone => exact .ofSwept (Cache.evictExpired_swept gone)
  | unswept _ _ => exact .ofSwept (Cache.abandonSweep_swept ..)
  | _ => exact .same rfl (List.forall_mem_nil _)

theorem look_ok_of_read {now : Instant} {r : Reading} (read : s.cache.read key now = .ok r) (purpose : Purpose) :
    ∃ s' d, s.look purpose key now = .ok (s', d) := by
  obtain ⟨cache, l, got⟩ := Cache.get_ok_of_read read
  rw [look, got]
  exact ⟨_, _, rfl⟩

/-- A lookup answers with what is known when it reads. -/
theorem look_read {purpose : Purpose} {now : Instant} {d : Decision}
    (looked : s.look purpose key now = .ok (s', d)) :
    ∃ wants, (s.cache.knows key).read s.cache.policy now = .ok ⟨d, wants⟩ := by
  unfold look at looked
  cases got : s.cache.get key now with
  | error e => rw [got] at looked; cases looked
  | ok answer =>
    obtain ⟨cache, l⟩ := answer
    rw [got] at looked
    cases looked
    obtain ⟨wants, read, _⟩ := (Cache.get_looked got).decision
    exact ⟨wants, read⟩

/-- A lookup decides by what is known. -/
theorem look_decision (s : Service) (purpose : Purpose) (key : ProjectKey) (t : Instant) :
    (s.look purpose key t).map (·.2) = ((s.cache.knows key).read s.cache.policy t).map (·.decision) := by
  cases looked : s.look purpose key t with
  | ok answer =>
    obtain ⟨wants, read⟩ := look_read looked
    rw [read]
    rfl
  | error fault =>
    cases read : (s.cache.knows key).read s.cache.policy t with
    | error fault' =>
      cases fault
      cases fault'
      rfl
    | ok r =>
      have readable := Cache.read_eq s.cache key t
      rw [read] at readable
      obtain ⟨s', d, found⟩ := look_ok_of_read readable purpose
      rw [looked] at found
      cases found

theorem Owned.not_mem_keys (owned : s.Owned) (running : s.status = .running)
    (unmarked : s.cache.inFlight key = false) {b : Batch} (member : b ∈ s.batches) : key ∉ b.keys := by
  intro inside
  have taken : key ∈ s.underway ++ [] := by
    rw [List.append_nil]
    exact List.mem_append_right _ (List.mem_flatMap.mpr ⟨b, member, inside⟩)
  rw [(owned.balanced running).marked, unmarked] at taken
  cases taken

/-- While nobody fetches a key, nothing happens to it but changes of the overrides. -/
theorem Move.undisturbed (move : Move s e new s') (owned : s.Owned) (unmarked : s.cache.inFlight key = false)
    (unclaimed : ∀ purpose now cache l, e = .look purpose key now →
      s.cache.get key now = .ok (cache, l) → l.scheduleFetch = false) :
    s'.cache.inFlight key = false ∧ ∀ e ∈ new, e.touches key = true → e.changes key = true := by
  cases move with
  | @claimed purpose k now cache l _ got wanted =>
    refine ⟨?_, List.forall_mem_nil _⟩
    rw [(Cache.get_looked got).inFlight, unmarked, Bool.false_or, wanted, Bool.and_true]
    refine decide_eq_false fun same => ?_
    subst same
    have idle := unclaimed purpose now cache l rfl got
    rw [wanted] at idle
    cases idle
  | looked got unwanted _ =>
    refine ⟨?_, List.forall_mem_nil _⟩
    rw [(Cache.get_looked got).inFlight, unmarked, unwanted, Bool.and_false, Bool.or_false]
  | freed _ _ =>
    refine ⟨?_, List.forall_mem_nil _⟩
    rw [Cache.inFlight_fail, unmarked, ite_self]
  | dispatched _ _ all =>
    obtain ⟨_, _, after⟩ := all.rest
    refine ⟨by rw [after]; exact unmarked, fun e member touched => ?_⟩
    obtain ⟨_, _, rfl⟩ := List.mem_map.mp member
    cases touched
  | consulted _ _ =>
    refine ⟨unmarked, fun e member touched => ?_⟩
    obtain ⟨_, _, rfl⟩ := List.mem_map.mp member
    cases touched
  | answered _ _ =>
    refine ⟨unmarked, fun e member touched => ?_⟩
    obtain ⟨_, _, rfl⟩ := List.mem_map.mp member
    cases touched
  | @applied _ now b resolutions running found progress =>
    have member := (mem_of_batch? found).1
    have foreign : key ∉ resolutions.map (·.1) := fun inside =>
      owned.not_mem_keys running unmarked member ((owned.orderly.resolved member progress).mem_iff.mp inside)
    obtain ⟨_, flag, silent⟩ := applyAll_other (s := s.dropBatch b.id) b.id b.stamp now foreign
    refine ⟨flag.trans unmarked, fun e member touched => ?_⟩
    rw [silent e member] at touched
    cases touched
  | @released _ now b running found _ =>
    have foreign := owned.not_mem_keys running unmarked (mem_of_batch? found).1
    refine ⟨(inFlight_releaseAll foreign).trans unmarked, fun e member touched => ?_⟩
    obtain ⟨k, inside, rfl⟩ := List.mem_map.mp member
    exact absurd (of_decide_eq_true touched ▸ inside) foreign
  | reloaded _ _ _ =>
    refine ⟨(inFlight_install ..).trans unmarked, fun e member touched => ?_⟩
    rcases mem_changes_entries member with ⟨_, _, rfl⟩ | ⟨_, _, rfl⟩
    · exact touched
    · exact touched
  | swept _ gone => exact ⟨((Cache.evictExpired_swept gone).inFlight key).trans unmarked, List.forall_mem_nil _⟩
  | unswept _ _ => exact ⟨((Cache.abandonSweep_swept ..).inFlight key).trans unmarked, List.forall_mem_nil _⟩
  | _ => exact ⟨unmarked, List.forall_mem_nil _⟩

end Steps

end Service

end AdmissionCache
