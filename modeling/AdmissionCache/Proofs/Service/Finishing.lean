import AdmissionCache.Proofs.Service.Learning
import AdmissionCache.Proofs.Service.Precedence

namespace AdmissionCache

/-- Whether an event only tells a batch something. -/
def Event.tells : Event → Bool
  | .consult .. => true
  | .answer .. => true
  | _ => false

theorem Event.time?_of_tells {e : Event} (tells : e.tells = true) : e.time? = none := by
  cases e with
  | consult => rfl
  | answer => rfl
  | _ => cases tells

namespace Service

section Tell
variable {s s' : Service} {e : Event} {new : List Entry}

theorem Move.telling (move : Move s e new s') (tells : e.tells = true) :
    s'.cache = s.cache ∧ s'.status = s.status ∧ ∀ x ∈ new, ∃ i key r source, x = .told i key r source := by
  cases move with
  | idle => exact ⟨rfl, rfl, List.forall_mem_nil _⟩
  | consulted _ _ =>
    refine ⟨rfl, rfl, fun x member => ?_⟩
    obtain ⟨_, _, rfl⟩ := List.mem_map.mp member
    exact ⟨_, _, _, _, rfl⟩
  | answered _ _ =>
    refine ⟨rfl, rfl, fun x member => ?_⟩
    obtain ⟨_, _, rfl⟩ := List.mem_map.mp member
    exact ⟨_, _, _, _, rfl⟩
  | _ => cases tells

theorem run_telling {events : List Event} (tell : ∀ e ∈ events, e.tells = true) :
    (s.run events).cache = s.cache ∧ (s.run events).status = s.status ∧
      ∀ x ∈ s.chronicle events, ∃ i key r source, x = .told i key r source := by
  induction events generalizing s with
  | nil => exact ⟨rfl, rfl, List.forall_mem_nil _⟩
  | cons e rest ih =>
    rw [List.forall_mem_cons] at tell
    obtain ⟨cache, status, told⟩ := (s.step_move e).telling tell.1
    obtain ⟨cache', status', told'⟩ := ih (s := s.step e) tell.2
    exact ⟨cache'.trans cache, status'.trans status, List.forall_mem_append.mpr ⟨told, told'⟩⟩

theorem consultations_tell {id : Nat} {contents : ProjectKey → StoreContent} {batch : List AskedKey} :
    ∀ e ∈ consultations id contents batch, e.tells = true := by
  intro e member
  obtain ⟨_, _, rfl⟩ := List.mem_map.mp member
  rfl

end Tell

section Finish
variable {s : Service} {b : Batch} {left : List AskedKey} {findings : Findings}

/-- The events tell the batch all that it waits for. -/
structure Finished (s : Service) (b : Batch) (events : List Event) (resolutions : List Resolved) : Prop where
  tell : ∀ e ∈ events, e.tells = true
  batch : (s.run events).batch? b.id = some { b with progress := .resolved resolutions }

theorem finished_answer (found : s.batch? b.id = some b) (progress : b.progress = .open [] findings)
    (result : Except QueryFault ConfigsResponse) :
    Finished s b [.answer b.id result] (findings.answered result) :=
  ⟨List.forall_mem_singleton.mpr rfl, batch?_answer found progress result⟩

/-- Every batch in hand can finish whatever happens to others. -/
theorem exists_finished (found : s.batch? b.id = some b) (progress : b.progress = .open left findings) :
    ∃ events resolutions, Finished s b events resolutions ∧ ∀ r ∈ findings.resolved, r ∈ resolutions := by
  cases left with
  | nil => exact ⟨_, _, finished_answer found progress (.ok {}), fun r inside => List.mem_append_left _ inside⟩
  | cons asked left =>
    let silence : ProjectKey → StoreContent := fun _ _ => .ok none
    have consulted := run_consultations silence found (progress.trans (BatchProgress.after_cons ..).symm)
    generalize folded : (asked :: left).foldl _ findings = f at consulted
    have grows : findings.resolved ⊆ f.resolved := by
      rw [← folded, Findings.foldl_add]
      exact List.subset_append_left ..
    by_cases remaining : f.remaining = []
    · rw [BatchProgress.after_nil remaining] at consulted
      refine ⟨consultations b.id silence (asked :: left), _, ⟨consultations_tell, consulted⟩, ?_⟩
      exact fun _ inside => grows inside
    · rw [BatchProgress.after_nil_of_ne remaining] at consulted
      have answered := finished_answer (b := { b with progress := .open [] f }) consulted rfl (.ok {})
      refine ⟨consultations b.id silence (asked :: left) ++ [.answer b.id (.ok {})], f.answered (.ok {}), ⟨?_, ?_⟩, ?_⟩
      · exact List.forall_mem_append.mpr ⟨consultations_tell, answered.tell⟩
      · rw [run_append]
        exact answered.batch
      · exact fun _ inside => List.mem_append_left _ (grows inside)

/-- A batch that was just sent can finish as the sources say. -/
theorem exists_conducted {asked : List AskedKey} (found : s.batch? b.id = some b)
    (progress : b.progress = .open asked {}) (nonempty : asked ≠ []) (contents : ProjectKey → StoreContent)
    (authority : ConfigsRequest → Except QueryFault ConfigsResponse) :
    ∃ events, Finished s b events
      (resolveBatch (fun key => s.nearSources (contents key)) authority asked).resolved := by
  obtain ⟨_, conducted⟩ := @conduct_eq s b contents authority asked found progress nonempty
  rw [conduct, ← run_append] at conducted
  refine ⟨_, List.forall_mem_append.mpr ⟨consultations_tell, fun e member => ?_⟩, conducted⟩
  obtain ⟨_, _, rfl⟩ := List.mem_map.mp member
  rfl

theorem exists_resolved {r : Resolved} (orderly : s.Orderly) (member : b ∈ s.batches) (found : r ∈ b.found) :
    ∃ events resolutions, Finished s b events resolutions ∧ r ∈ resolutions := by
  cases progress : b.progress with
  | «open» left findings =>
    obtain ⟨events, resolutions, finished, kept⟩ := exists_finished (orderly.batch?_eq member) progress
    rw [Batch.found, progress] at found
    exact ⟨events, resolutions, finished, kept r found⟩
  | resolved resolutions =>
    rw [Batch.found, progress] at found
    have finished : Finished s b [] resolutions := by
      refine ⟨List.forall_mem_nil _, ?_⟩
      rw [← progress]
      exact orderly.batch?_eq member
    exact ⟨[], resolutions, finished, found⟩
  | lost =>
    rw [Batch.found, progress] at found
    cases found

theorem complete_step {resolutions : List Resolved} (orderly : s.Orderly) (running : s.status = .running)
    (member : b ∈ s.batches) (progress : b.progress = .resolved resolutions) (now : Instant) :
    s.step (.complete b.id now) = (s.dropBatch b.id).applyAll b.stamp now resolutions ∧
    s.entries (.complete b.id now) = applications b.id b.stamp now resolutions (s.dropBatch b.id) := by
  have found := orderly.batch?_eq member
  constructor
  · simp only [step, whileRunning_of_running running, complete, found, progress]
  · simp only [entries, if_pos running, found, Option.elim_some, completions, progress]

theorem complete_own {resolutions : List Resolved} {key : ProjectKey} {r : Resolution} (orderly : s.Orderly)
    (running : s.status = .running) (member : b ∈ s.batches) (progress : b.progress = .resolved resolutions)
    (resolved : (key, r) ∈ resolutions) (now : Instant) :
    (s.step (.complete b.id now)).cache.knows key = (s.cache.knows key).after b.stamp r ∧
      (r ≠ .pending → (s.step (.complete b.id now)).cache.inFlight key = false) := by
  have distinct := (orderly.resolved member progress).nodup_iff.mpr (orderly.distinct b member)
  obtain ⟨knows, flag, _⟩ := applyAll_own (s := s.dropBatch b.id) b.id b.stamp now distinct resolved
  rw [(complete_step orderly running member progress now).1]
  exact ⟨knows, flag⟩

/-- What a batch teaches a key when it is finished at once is found by a lookup, if it may be
used, and nothing but the batch has a part in it. -/
theorem Finished.taught {events : List Event} {resolutions : List Resolved} {key : ProjectKey} {r : Resolution}
    {config : ProjectConfig} {fetchedAt now : Instant} (finished : Finished s b events resolutions)
    (orderly : s.Orderly) (running : s.status = .running) (resolved : (key, r) ∈ resolutions)
    (learned : (s.cache.knows key).after b.stamp r = .loaded config fetchedAt)
    (usable : s.cache.policy.Usable fetchedAt now) :
    ∃ events s' d, (∀ e ∈ events, ∀ t, e.time? = some t → t = now) ∧
      (s.run events).look .lookup key now = .ok (s', d) ∧ d.config? = some config ∧
      ∀ e ∈ s.chronicle events, (∃ i k r' source, e = .told i k r' source) ∨
        ∃ stamp k r' taken, e = .applied b.id stamp k r' taken ∧ (k = key → r' = r) := by
  obtain ⟨cache, status, told⟩ := run_telling (s := s) finished.tell
  have orderly' := orderly.run events
  have lasting := (mem_of_batch? finished.batch).1
  have applied := (complete_step orderly' (status.trans running) lasting rfl now).2
  obtain ⟨knows, _⟩ := complete_own orderly' (status.trans running) lasting rfl resolved now
  rw [cache, learned] at knows
  have policy : ((s.run events).step (.complete b.id now)).cache.policy = s.cache.policy := by
    rw [(Service.step_move _ _).policy, cache]
  rw [← policy] at usable
  obtain ⟨reading, known, used⟩ := Knowledge.read_usable usable config
  rw [← knows] at known
  have readable := Cache.read_eq ((s.run events).step (.complete b.id now)).cache key now
  rw [known] at readable
  obtain ⟨s', d, looked⟩ := look_ok_of_read readable .lookup
  obtain ⟨wants, read⟩ := look_read looked
  rw [known] at read
  cases read
  refine ⟨events ++ [.complete b.id now], s', d, ?_, ?_, used, fun e inside => ?_⟩
  · intro e inside t time
    rcases List.mem_append.mp inside with early | last
    · rw [Event.time?_of_tells (finished.tell e early)] at time
      cases time
    · rw [List.mem_singleton.mp last] at time
      exact (Option.some.inj time).symm
  · rw [run_append]
    exact looked
  · rw [chronicle_append, chronicle, chronicle, List.append_nil, applied] at inside
    rcases List.mem_append.mp inside with early | late
    · exact Or.inl (told e early)
    · obtain ⟨r', member, taken, rfl⟩ := mem_applications late
      have distinct := (orderly'.resolved lasting rfl).nodup_iff.mpr (orderly'.distinct _ lasting)
      refine Or.inr ⟨_, _, _, _, rfl, fun own => ?_⟩
      rw [List.inj_on_of_nodup_map distinct member resolved own]

end Finish

end Service

end AdmissionCache
