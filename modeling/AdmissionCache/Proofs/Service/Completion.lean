import AdmissionCache.Proofs.Service.Moves

namespace AdmissionCache

theorem Cache.put_eq (c : Cache) (key : ProjectKey) (config : ProjectConfig) (stamp : Instant) :
    c.put key config stamp = c.complete key stamp ((Resolution.config config).lesson stamp) := rfl

theorem Cache.refresh_eq (c : Cache) (key : ProjectKey) (revision : Option Revision) (stamp : Instant) :
    c.refresh key revision stamp =
      c.complete key stamp ((Resolution.unchanged revision).lesson stamp) := by
  unfold refresh
  congr 1
  funext k
  cases k <;> rfl

theorem Cache.putMissing_eq (c : Cache) (key : ProjectKey) (stamp : Instant) :
    c.putMissing key stamp = c.complete key stamp (Resolution.notFound.lesson stamp) := rfl

/-- Knowledge as it is after a resolution was applied. -/
def Knowledge.after (stamp : Instant) (r : Resolution) (k : Knowledge) : Knowledge :=
  (k.settle stamp (r.lesson stamp)).getD k

theorem Knowledge.settle_pending (stamp : Instant) (k : Knowledge) :
    k.settle stamp (Resolution.pending.lesson stamp) = none := by
  cases k <;> exact ite_self _

theorem Knowledge.settle_failed (stamp : Instant) (k : Knowledge) :
    k.settle stamp (Resolution.failed.lesson stamp) = none := by
  cases k <;> exact ite_self _

/-- A key that is called unchanged keeps its configuration, whose age counts anew. -/
theorem Knowledge.settle_unchanged {stamp : Instant} {revision : Option Revision} {k learned : Knowledge}
    (settled : k.settle stamp ((Resolution.unchanged revision).lesson stamp) = some learned) :
    ∃ config f, k = .loaded config f ∧ config.revision? = revision ∧ f.nanos ≤ stamp.nanos ∧
      learned = .loaded config stamp := by
  obtain ⟨lesson, notLater⟩ := settle_eq_some settled
  cases k with
  | loaded config f =>
    rw [Resolution.lesson] at lesson
    split at lesson
    · rename_i same
      exact ⟨config, f, rfl, same, notLater f rfl, (Option.some.inj lesson).symm⟩
    · cases lesson
  | nothing => cases lesson
  | missing checkedAt => cases lesson

theorem Knowledge.after_unchanged (config : ProjectConfig) {f stamp : Instant} (earlier : f.nanos ≤ stamp.nanos) :
    (Knowledge.loaded config f).after stamp (.unchanged config.revision?) = .loaded config stamp := by
  have upTo : (Knowledge.loaded config f).UpTo stamp := by
    rintro _ same
    cases same
    exact earlier
  rw [after, upTo.settle, Resolution.lesson, if_pos rfl, Option.getD_some]

theorem Cache.takes_eq (c : Cache) (stamp : Instant) (r : Resolved) :
    c.takes stamp r = ((c.knows r.1).settle stamp (r.2.lesson stamp)).isSome := by
  obtain ⟨key, resolution⟩ := r
  cases resolution with
  | config config => simp only [takes, put_eq, taken_complete]
  | unchanged revision => simp only [takes, refresh_eq, taken_complete]
  | notFound => simp only [takes, putMissing_eq, taken_complete]
  | pending => simp only [takes, Knowledge.settle_pending, Option.isSome_none]
  | failed => simp only [takes, Knowledge.settle_failed, Option.isSome_none]

namespace Service

section Apply
variable (s : Service) (stamp now : Instant) (r : Resolved)

/-- A resolution only changes what is known about its own key. -/
theorem knows_apply (key : ProjectKey) :
    (s.apply stamp now r).cache.knows key =
      if key = r.1 then (s.cache.knows key).after stamp r.2 else s.cache.knows key := by
  obtain ⟨k, resolution⟩ := r
  have completed (learn : Knowledge → Option Knowledge) :
      (s.cache.complete k stamp learn).1.knows key =
        if key = k then ((s.cache.knows key).settle stamp learn).getD (s.cache.knows key)
        else s.cache.knows key := by
    rw [Cache.knows_complete]
    split
    · rename_i same; rw [same]
    · rfl
  cases resolution with
  | config config => simp only [apply, Cache.put_eq]; exact completed _
  | unchanged revision => simp only [apply, Cache.refresh_eq]; exact completed _
  | notFound => simp only [apply, Cache.putMissing_eq]; exact completed _
  | pending =>
    simp only [Knowledge.after, Knowledge.settle_pending, Option.getD_none, ite_self, apply, applyPending]
    split
    · rfl
    · exact Cache.knows_fail ..
  | failed =>
    simp only [Knowledge.after, Knowledge.settle_failed, Option.getD_none, ite_self]
    exact Cache.knows_fail ..

/-- Whether a resolution puts its key off: the key is pending, and since the dispatch of the first
batch that found it so the time of a query is not over. -/
def PutsOff : Prop :=
  r.2 = .pending ∧ (now.since ((s.pendingSince.get? r.1).getD stamp)).nanos < s.settings.queryTimeout.nanos

/-- What is applied for a key either puts it off, or ends its fetch. -/
theorem apply_deferral :
    (s.PutsOff stamp now r ∧ (s.apply stamp now r).queued = s.queued.insert r.1 ∧
      (s.apply stamp now r).pendingSince =
        s.pendingSince.insert r.1 ((s.pendingSince.get? r.1).getD stamp) ∧
      ∀ key, (s.apply stamp now r).cache.inFlight key = s.cache.inFlight key) ∨
    (¬ s.PutsOff stamp now r ∧ (s.apply stamp now r).queued = s.queued ∧
      (s.apply stamp now r).pendingSince = s.pendingSince.erase r.1 ∧
      ∀ key, (s.apply stamp now r).cache.inFlight key = if key = r.1 then false else s.cache.inFlight key) := by
  obtain ⟨k, resolution⟩ := r
  cases resolution with
  | config config =>
    simp only [apply, Cache.put_eq]
    exact Or.inr ⟨by rintro ⟨⟨⟩, _⟩, trivial, trivial, fun key => Cache.inFlight_complete ..⟩
  | unchanged revision =>
    simp only [apply, Cache.refresh_eq]
    exact Or.inr ⟨by rintro ⟨⟨⟩, _⟩, trivial, trivial, fun key => Cache.inFlight_complete ..⟩
  | notFound =>
    simp only [apply, Cache.putMissing_eq]
    exact Or.inr ⟨by rintro ⟨⟨⟩, _⟩, trivial, trivial, fun key => Cache.inFlight_complete ..⟩
  | pending =>
    simp only [apply, applyPending]
    split
    · rename_i early
      exact Or.inl ⟨⟨rfl, early⟩, rfl, rfl, fun _ => rfl⟩
    · rename_i late
      exact Or.inr ⟨fun off => late off.2, rfl, rfl, fun key => Cache.inFlight_fail ..⟩
  | failed => exact Or.inr ⟨by rintro ⟨⟨⟩, _⟩, rfl, rfl, fun key => Cache.inFlight_fail ..⟩

/-- What is applied for a key ends its fetch, unless the key is pending and goes back into
the queue. -/
theorem apply_custody :
    ((s.apply stamp now r).queued = s.queued ∧
      ∀ key, (s.apply stamp now r).cache.inFlight key =
        if key = r.1 then false else s.cache.inFlight key) ∨
    (r.2 = .pending ∧ (s.apply stamp now r).queued = s.queued.insert r.1 ∧
      ∀ key, (s.apply stamp now r).cache.inFlight key = s.cache.inFlight key) := by
  rcases s.apply_deferral stamp now r with ⟨⟨pending, _⟩, queued, _, marks⟩ | ⟨_, queued, _, marks⟩
  · exact Or.inr ⟨pending, queued, marks⟩
  · exact Or.inl ⟨queued, marks⟩

@[simp] theorem policy_apply : (s.apply stamp now r).cache.policy = s.cache.policy := by
  obtain ⟨k, resolution⟩ := r
  cases resolution with
  | config config => rfl
  | unchanged revision => rfl
  | notFound => rfl
  | pending =>
    simp only [apply, applyPending]
    split
    · rfl
    · exact Cache.policy_fail ..
  | failed => exact Cache.policy_fail ..

theorem inFlight_apply_of_ne {key : ProjectKey} (differ : key ≠ r.1) :
    (s.apply stamp now r).cache.inFlight key = s.cache.inFlight key := by
  rcases s.apply_custody stamp now r with ⟨_, marks⟩ | ⟨_, _, marks⟩
  · rw [marks, if_neg differ]
  · exact marks key

end Apply

section Batchwise
variable {s : Service} (batch : Nat) (stamp now : Instant) {resolutions : List Resolved} {key : ProjectKey}

/-- A batch does nothing to keys that it does not resolve. -/
theorem applyAll_other (absent : key ∉ resolutions.map (·.1)) :
    (s.applyAll stamp now resolutions).cache.knows key = s.cache.knows key ∧
    (s.applyAll stamp now resolutions).cache.inFlight key = s.cache.inFlight key ∧
    ∀ e ∈ applications batch stamp now resolutions s, e.touches key = false := by
  induction resolutions generalizing s with
  | nil => exact ⟨rfl, rfl, List.forall_mem_nil _⟩
  | cons r rest ih =>
    rw [List.map_cons, List.mem_cons, not_or] at absent
    obtain ⟨knows, flag, silent⟩ := ih (s := s.apply stamp now r) absent.2
    refine ⟨knows.trans ?_, flag.trans (inFlight_apply_of_ne _ _ _ _ absent.1), ?_⟩
    · rw [knows_apply, if_neg absent.1]
    · intro e member
      rcases List.mem_cons.mp member with rfl | later
      · simpa [Entry.touches] using fun same : r.1 = key => absent.1 same.symm
      · exact silent e later

/-- What a batch does to a key that it resolves is decided by what is known about the key
when the batch is applied, whatever the batch teaches about other keys. -/
theorem applyAll_own {r : Resolution} (distinct : (resolutions.map (·.1)).Nodup)
    (inside : (key, r) ∈ resolutions) :
    (s.applyAll stamp now resolutions).cache.knows key = (s.cache.knows key).after stamp r ∧
    (r ≠ .pending → (s.applyAll stamp now resolutions).cache.inFlight key = false) ∧
    ∃ before after, applications batch stamp now resolutions s =
        before ++ .applied batch stamp key r
          ((s.cache.knows key).settle stamp (r.lesson stamp)).isSome :: after ∧
      (∀ e ∈ before, e.touches key = false) ∧ ∀ e ∈ after, e.touches key = false := by
  induction resolutions generalizing s with
  | nil => cases inside
  | cons head rest ih =>
    rw [List.map_cons, List.nodup_cons] at distinct
    rcases List.mem_cons.mp inside with rfl | later
    · obtain ⟨knows, flag, silent⟩ :=
        applyAll_other (s := s.apply stamp now (key, r)) batch stamp now distinct.1
      refine ⟨knows.trans ?_, fun ended => flag.trans ?_, [], _, ?_, List.forall_mem_nil _, silent⟩
      · rw [knows_apply, if_pos rfl]
      · rcases s.apply_custody stamp now (key, r) with ⟨_, marks⟩ | ⟨pending, _⟩
        · rw [marks, if_pos rfl]
        · exact absurd pending ended
      · rw [applications, Cache.takes_eq, List.nil_append]
    · have differ : key ≠ head.1 := fun same => distinct.1 (same ▸ List.mem_map_of_mem later)
      obtain ⟨knows, flag, before, after, split, silent⟩ :=
        ih (s := s.apply stamp now head) distinct.2 later
      rw [knows_apply, if_neg differ] at knows split
      refine ⟨knows, flag, _ :: before, after, congrArg _ split, fun e member => ?_, silent.2⟩
      rcases List.mem_cons.mp member with rfl | old
      · simpa [Entry.touches] using fun same : head.1 = key => differ same.symm
      · exact silent.1 e old

end Batchwise

/-- A batch that broke down teaches nothing. -/
theorem knows_releaseAll (s : Service) (keys : List ProjectKey) (key : ProjectKey) :
    (s.releaseAll keys).cache.knows key = s.cache.knows key := by
  induction keys generalizing s with
  | nil => rfl
  | cons first rest ih =>
    rw [releaseAll_cons, ih]
    exact Cache.knows_fail ..

@[simp] theorem policy_applyAll (s : Service) (stamp now : Instant) (resolutions : List Resolved) :
    (s.applyAll stamp now resolutions).cache.policy = s.cache.policy := by
  induction resolutions generalizing s with
  | nil => rfl
  | cons r rest ih => rw [applyAll_cons, ih, policy_apply]

@[simp] theorem policy_releaseAll (s : Service) (keys : List ProjectKey) :
    (s.releaseAll keys).cache.policy = s.cache.policy := by
  induction keys generalizing s with
  | nil => rfl
  | cons key rest ih =>
    rw [releaseAll_cons, ih]
    exact Cache.policy_fail ..

theorem inFlight_releaseAll {s : Service} {keys : List ProjectKey} {key : ProjectKey} (absent : key ∉ keys) :
    (s.releaseAll keys).cache.inFlight key = s.cache.inFlight key := by
  induction keys generalizing s with
  | nil => rfl
  | cons first rest ih =>
    rw [List.mem_cons, not_or] at absent
    rw [releaseAll_cons, ih absent.2]
    exact (Cache.inFlight_fail ..).trans (if_neg absent.1)

section Install
variable (c : Cache) (now : Instant)

theorem slot?_foldl_applyOverride {entries : List (String × ProjectConfig)}
    (sorted : entries.Pairwise (fun a b => a.1 < b.1)) (key : ProjectKey) :
    (entries.foldl (fun c e => c.applyOverride e.1 e.2 now) c).slot? key =
      ((KeyMap.lookup entries key).map (⟨.loaded · now, c.inFlight key⟩)).or (c.slot? key) := by
  induction entries generalizing c with
  | nil => rfl
  | cons head rest ih =>
    obtain ⟨k, config⟩ := head
    rw [List.pairwise_cons] at sorted
    rw [List.foldl_cons, ih _ sorted.2, Cache.inFlight_applyOverride, Cache.slot?_applyOverride, KeyMap.lookup]
    by_cases here : key = k
    · subst here
      rw [KeyMap.lookup_eq_none_of_lt sorted.1, if_pos rfl, if_pos rfl]
      rfl
    · rw [if_neg here, if_neg here]

theorem slot?_foldl_invalidate (keys : List ProjectKey) (key : ProjectKey) :
    (keys.foldl Cache.invalidate c).slot? key =
      if key ∈ keys then (c.slot? key).map ({ · with knowledge := .nothing }) else c.slot? key := by
  induction keys generalizing c with
  | nil => rfl
  | cons k rest ih =>
    rw [List.foldl_cons, ih, Cache.slot?_invalidate]
    by_cases here : key = k
    · rw [if_pos here, if_pos (List.mem_cons.mpr (Or.inl here)), ← here]
      cases c.slot? key <;> exact ite_self _
    · rw [if_neg here]
      simp only [List.mem_cons, here, false_or]

/-- All that the changes of the overrides do to the slot of a key. -/
theorem slot?_install (changes : OverrideChanges) (key : ProjectKey) :
    (install c changes now).slot? key =
      let updated := ((changes.updated.get? key).map (⟨.loaded · now, c.inFlight key⟩)).or (c.slot? key)
      if key ∈ changes.removed then updated.map ({ · with knowledge := .nothing }) else updated := by
  rw [install, slot?_foldl_invalidate, KeyMap.toList, slot?_foldl_applyOverride c now changes.updated.sorted]
  rfl

/-- A removed override leaves nothing known, one that was added or changed its
configuration; what is known about other keys stays. -/
theorem knows_install (changes : OverrideChanges) (key : ProjectKey) :
    (install c changes now).knows key =
      if key ∈ changes.removed then .nothing
      else (changes.updated.get? key).elim (c.knows key) fun config => .loaded config now := by
  simp only [Cache.knows, Cache.slotOrNew, slot?_install]
  split
  · cases changes.updated.get? key <;> cases c.slot? key <;> rfl
  · cases changes.updated.get? key <;> rfl

theorem inFlight_install (changes : OverrideChanges) (key : ProjectKey) :
    (install c changes now).inFlight key = c.inFlight key := by
  simp only [Cache.inFlight, Cache.slotOrNew, slot?_install]
  split
  · cases changes.updated.get? key <;> cases c.slot? key <;> rfl
  · cases changes.updated.get? key <;> rfl

@[simp] theorem policy_install (changes : OverrideChanges) : (install c changes now).policy = c.policy := by
  have updated (entries : List (String × ProjectConfig)) (c : Cache) :
      (entries.foldl (fun c e => c.applyOverride e.1 e.2 now) c).policy = c.policy := by
    induction entries generalizing c with
    | nil => rfl
    | cons e rest ih => rw [List.foldl_cons, ih, Cache.policy_applyOverride]
  have removed (keys : List ProjectKey) (c : Cache) :
      (keys.foldl Cache.invalidate c).policy = c.policy := by
    induction keys generalizing c with
    | nil => rfl
    | cons k rest ih => rw [List.foldl_cons, ih, Cache.policy_invalidate]
  rw [install, removed, updated]

end Install

section Constant
variable {s s' : Service} {e : Event} {log : List Entry}

theorem Move.policy (move : Move s e log s') : s'.cache.policy = s.cache.policy := by
  cases move with
  | claimed got _ => exact (Cache.get_looked got).policy
  | looked got _ _ => exact (Cache.get_looked got).policy
  | freed _ _ => exact Cache.policy_fail ..
  | dispatched _ _ all =>
    obtain ⟨_, _, after⟩ := all.rest
    rw [after]
  | applied _ _ _ => exact policy_applyAll ..
  | released _ _ _ => exact policy_releaseAll ..
  | reloaded _ _ _ => exact policy_install ..
  | swept _ gone => exact (Cache.evictExpired_swept gone).policy
  | unswept _ _ => exact (Cache.abandonSweep_swept ..).policy
  | _ => rfl

theorem Move.settings (move : Move s e log s') : s'.settings = s.settings := by
  cases move with
  | dispatched _ _ all =>
    obtain ⟨_, _, after⟩ := all.rest
    rw [after]
  | @applied _ now b resolutions _ _ _ =>
    obtain ⟨_, _, _, _, after⟩ := applyAll_eq (s.dropBatch b.id) b.stamp now resolutions
    rw [after]; rfl
  | @released _ _ b _ _ _ =>
    obtain ⟨_, _, after⟩ := releaseAll_eq (s.dropBatch b.id) b.keys
    rw [after]; rfl
  | _ => rfl

theorem run_policy (s : Service) (events : List Event) : (s.run events).cache.policy = s.cache.policy := by
  induction events generalizing s with
  | nil => rfl
  | cons e rest ih => exact (ih (s.step e)).trans (s.step_move e).policy

theorem run_settings (s : Service) (events : List Event) : (s.run events).settings = s.settings := by
  induction events generalizing s with
  | nil => rfl
  | cons e rest ih => exact (ih (s.step e)).trans (s.step_move e).settings

end Constant

end Service

end AdmissionCache
