import AdmissionCache.Proofs.Service.Revisions

namespace AdmissionCache

/-- Whether a sample is one of those that a sweep records. -/
def Sample.ofSweep (sample : Sample) : Bool := sample.metric = .evictions || sample.metric = .cacheSize

/-- Whether an event is a sweep. -/
def Event.isSweep : Event → Bool
  | .sweep _ _ => true
  | _ => false

namespace Service

/-- The services differ only in what their caches know, and in what sweeps recorded. -/
structure Parallel (s₁ s₂ : Service) : Prop where
  rest : s₂ = { s₁ with cache := s₂.cache, samples := s₂.samples }
  samples : s₂.samples.filter (!·.ofSweep) = s₁.samples.filter (!·.ofSweep)
  policy : s₂.cache.policy = s₁.cache.policy
  marks : ∀ key, s₂.cache.inFlight key = s₁.cache.inFlight key

namespace Parallel
variable {s₁ s₂ : Service}

theorem refl (s : Service) : Parallel s s := ⟨rfl, rfl, rfl, fun _ => rfl⟩

theorem symm (parallel : Parallel s₁ s₂) : Parallel s₂ s₁ := by
  obtain ⟨rest, samples, policy, marks⟩ := parallel
  refine ⟨?_, samples.symm, policy.symm, fun key => (marks key).symm⟩
  rw [rest]

theorem status (parallel : Parallel s₁ s₂) : s₂.status = s₁.status := by
  rw [parallel.rest]

theorem batches (parallel : Parallel s₁ s₂) : s₂.batches = s₁.batches := by
  rw [parallel.rest]

theorem split (parallel : Parallel s₁ s₂) : ∃ cache samples, s₂ = { s₁ with cache, samples } :=
  ⟨_, _, parallel.rest⟩

/-- What both services do alike keeps them parallel. -/
theorem next {s₁' s₂' : Service} (parallel : Parallel s₁ s₂) (recorded : List Sample)
    (rest : s₂' = { s₁' with cache := s₂'.cache, samples := s₂'.samples })
    (samples₁ : s₁'.samples = s₁.samples ++ recorded) (samples₂ : s₂'.samples = s₂.samples ++ recorded)
    (policy : s₂'.cache.policy = s₁'.cache.policy)
    (marks : ∀ key, s₂'.cache.inFlight key = s₁'.cache.inFlight key) : Parallel s₁' s₂' := by
  refine ⟨rest, ?_, policy, marks⟩
  rw [samples₁, samples₂, List.filter_append, List.filter_append, parallel.samples]

/-- A change that has nothing to do with the cache or the samples. -/
theorem change (parallel : Parallel s₁ s₂) {f : Service → Service}
    (apart : ∀ (s : Service) cache samples, f { s with cache, samples } = { f s with cache, samples }) :
    Parallel (f s₁) (f s₂) := by
  have kept (s : Service) : (f s).cache = s.cache ∧ (f s).samples = s.samples := by
    have same : f s = { f s with cache := s.cache, samples := s.samples } := apart s s.cache s.samples
    constructor
    · rw [same]
    · rw [same]
  have rest : f s₂ = { f s₁ with cache := s₂.cache, samples := s₂.samples } := by
    rw [parallel.rest]
    exact apart s₁ s₂.cache s₂.samples
  refine parallel.next [] ?_ ?_ ?_ ?_ ?_
  · rw [(kept s₂).1, (kept s₂).2]
    exact rest
  · rw [(kept s₁).2, List.append_nil]
  · rw [(kept s₂).2, List.append_nil]
  · rw [(kept s₁).1, (kept s₂).1]
    exact parallel.policy
  · intro key
    rw [(kept s₁).1, (kept s₂).1]
    exact parallel.marks key

theorem record (parallel : Parallel s₁ s₂) (recorded : List Sample) :
    Parallel (s₁.record recorded) (s₂.record recorded) := by
  refine parallel.next recorded ?_ rfl rfl parallel.policy parallel.marks
  rw [Service.record, parallel.rest]
  rfl

/-- A change of the caches that marks the same keys. -/
theorem recache (parallel : Parallel s₁ s₂) {c₁ c₂ : Cache} (policy : c₂.policy = c₁.policy)
    (marks : ∀ key, c₂.inFlight key = c₁.inFlight key) :
    Parallel { s₁ with cache := c₁ } { s₂ with cache := c₂ } := by
  refine parallel.next [] ?_ (List.append_nil _).symm (List.append_nil _).symm policy marks
  rw [parallel.rest]

theorem giveUp (parallel : Parallel s₁ s₂) (key : ProjectKey) : Parallel (s₁.giveUp key) (s₂.giveUp key) := by
  refine parallel.recache ?_ fun k => ?_
  · rw [Cache.policy_fail, Cache.policy_fail, parallel.policy]
  · rw [Cache.inFlight_fail, Cache.inFlight_fail, parallel.marks]

theorem apply (parallel : Parallel s₁ s₂) (stamp now : Instant) (r : Resolved) :
    Parallel (s₁.apply stamp now r) (s₂.apply stamp now r) := by
  obtain ⟨key, resolution⟩ := r
  let settle (s : Service) : Service := { s with pendingSince := s.pendingSince.erase key }
  have settled : Parallel (settle s₁) (settle s₂) := parallel.change fun _ _ _ => rfl
  have completed (learn : Knowledge → Option Knowledge) :
      Parallel { settle s₁ with cache := (s₁.cache.complete key stamp learn).1 }
        { settle s₂ with cache := (s₂.cache.complete key stamp learn).1 } := by
    refine settled.recache parallel.policy fun k => ?_
    rw [Cache.inFlight_complete, Cache.inFlight_complete, parallel.marks]
  cases resolution with
  | config config => exact completed _
  | unchanged revision => exact completed _
  | notFound => exact completed _
  | failed => exact settled.giveUp key
  | pending =>
    let Waiting (s : Service) : Prop :=
      (now.since ((s.pendingSince.get? key).getD stamp)).nanos < s.settings.queryTimeout.nanos
    have same : Waiting s₂ = Waiting s₁ := by
      rw [parallel.rest]
    by_cases waiting : Waiting s₁
    · have waiting₂ : Waiting s₂ := same ▸ waiting
      rw [Service.apply, applyPending, if_pos waiting, Service.apply, applyPending, if_pos waiting₂]
      exact parallel.change (f := fun s => { s with
        pendingSince := s.pendingSince.insert key ((s.pendingSince.get? key).getD stamp)
        queued := s.queued.insert key }) fun _ _ _ => rfl
    · have ended₂ : ¬ Waiting s₂ := same ▸ waiting
      rw [Service.apply, applyPending, if_neg waiting, Service.apply, applyPending, if_neg ended₂]
      exact (settled.record _).giveUp key

theorem applyAll (parallel : Parallel s₁ s₂) (stamp now : Instant) (resolutions : List Resolved) :
    Parallel (s₁.applyAll stamp now resolutions) (s₂.applyAll stamp now resolutions) := by
  induction resolutions generalizing s₁ s₂ with
  | nil => exact parallel
  | cons r rest ih => exact ih (parallel.apply stamp now r)

theorem releaseAll (parallel : Parallel s₁ s₂) (keys : List ProjectKey) :
    Parallel (s₁.releaseAll keys) (s₂.releaseAll keys) := by
  induction keys generalizing s₁ s₂ with
  | nil => exact parallel
  | cons key rest ih =>
    let settle (s : Service) : Service := { s with pendingSince := s.pendingSince.erase key }
    have settled : Parallel (settle s₁) (settle s₂) := parallel.change fun _ _ _ => rfl
    exact ih (settled.giveUp key)

theorem whileRunning (parallel : Parallel s₁ s₂) (f : Service → Service) (after : Parallel (f s₁) (f s₂)) :
    Parallel (s₁.whileRunning f) (s₂.whileRunning f) := by
  unfold Service.whileRunning
  rw [parallel.status]
  split
  · exact after
  · exact parallel

theorem look (parallel : Parallel s₁ s₂) {key : ProjectKey} {now : Instant}
    (reads : s₂.cache.read key now = s₁.cache.read key now) (purpose : Purpose) :
    Parallel (s₁.step (.look purpose key now)) (s₂.step (.look purpose key now)) := by
  have answers : (s₂.cache.get key now).map (·.2) = (s₁.cache.get key now).map (·.2) := by
    rw [Cache.get_answer, Cache.get_answer, reads]
  simp only [step, Service.look]
  cases got₁ : s₁.cache.get key now with
  | error e =>
    cases got₂ : s₂.cache.get key now with
    | error e => exact parallel
    | ok answer =>
      rw [got₁, got₂] at answers
      cases answers
  | ok answer₁ =>
    cases got₂ : s₂.cache.get key now with
    | error e =>
      rw [got₁, got₂] at answers
      cases answers
    | ok answer₂ =>
      obtain ⟨c₁, l⟩ := answer₁
      obtain ⟨c₂, l'⟩ := answer₂
      rw [got₁, got₂] at answers
      obtain rfl : l' = l := Except.ok.inj answers
      have looked₁ := Cache.get_looked got₁
      have looked₂ := Cache.get_looked got₂
      have recached : Parallel { s₁ with cache := c₁ } { s₂ with cache := c₂ } := by
        refine parallel.recache ?_ fun other => ?_
        · rw [looked₁.policy, looked₂.policy, parallel.policy]
        · rw [looked₁.inFlight, looked₂.inFlight, parallel.marks]
      have called (calls : List Call → List Call) : Parallel { s₁ with cache := c₁, calls := calls s₁.calls }
          { s₂ with cache := c₂, calls := calls s₂.calls } :=
        recached.change (f := fun s => { s with calls := calls s.calls }) fun _ _ _ => rfl
      cases purpose with
      | lookup =>
        exact (called fun calls =>
          if l'.scheduleFetch then calls ++ [⟨.lookup, key, l'.decision, .claimed⟩] else calls).record l'.samples
      | check =>
        exact (called fun calls =>
          if l'.scheduleFetch then calls ++ [⟨.check, key, l'.decision, .claimed⟩]
          else calls ++ [⟨.check, key, l'.decision, .decided⟩]).record l'.samples

theorem judge (parallel : Parallel s₁ s₂) (key : ProjectKey) (d : Decision) :
    Parallel (s₁.judge key d) (s₂.judge key d) := by
  cases judged : d.admission.outcome? key with
  | none =>
    simp only [Service.judge, judged]
    exact parallel
  | some outcome =>
    have same : s₂.settings.sink = s₁.settings.sink := by
      rw [parallel.rest]
    simp only [Service.judge, judged, Service.emit]
    cases sink : s₁.settings.sink with
    | channel =>
      simp only [same.trans sink]
      exact parallel.change (f := fun s => { s with outcomes := s.outcomes ++ [outcome] }) fun _ _ _ => rfl
    | counter =>
      simp only [same.trans sink]
      exact parallel.record _

theorem advance (parallel : Parallel s₁ s₂) (n : Nat) : Parallel (s₁.advance n) (s₂.advance n) := by
  have replaced (calls : List Call) {s₁ s₂ : Service} (parallel : Parallel s₁ s₂) :
      Parallel (s₁.replaceCall n calls) (s₂.replaceCall n calls) :=
    parallel.change (f := fun s => s.replaceCall n calls) fun _ _ _ => rfl
  have same : s₂.calls[n]? = s₁.calls[n]? := by
    rw [parallel.rest]
  cases atCall : s₁.calls[n]? with
  | none =>
    simp only [Service.advance, atCall, same.trans atCall]
    exact parallel
  | some call =>
    simp only [Service.advance, atCall, same.trans atCall]
    cases call.stage with
    | claimed =>
      cases listening : s₁.status.listens with
      | true =>
        have listening₂ : s₂.status.listens = true := by
          rw [parallel.status, listening]
        simp only [listening₂, if_true]
        have mailed := parallel.change (f := fun s => { s with mail := s.mail ++ [.fetch call.key] }) fun _ _ _ => rfl
        exact replaced call.rest mailed
      | false =>
        have deaf₂ : s₂.status.listens = false := by
          rw [parallel.status, listening]
        simp only [deaf₂, Bool.false_eq_true, if_false]
        exact replaced _ parallel
    | refused => exact replaced call.rest (parallel.giveUp call.key)
    | decided => exact (replaced [] parallel).judge call.key call.decision

theorem receive (parallel : Parallel s₁ s₂) : Parallel s₁.receive s₂.receive := by
  have same : s₂.mail = s₁.mail := by
    rw [parallel.rest]
  cases mail : s₁.mail with
  | nil =>
    simp only [Service.receive, mail, same.trans mail]
    exact parallel
  | cons command rest =>
    simp only [Service.receive, mail, same.trans mail]
    cases command with
    | fetch key =>
      exact parallel.change (f := fun s => { s with mail := rest, queued := s.queued.insert key }) fun _ _ _ => rfl
    | stop => exact parallel.change (f := fun s => { s with mail := rest, status := .stopping }) fun _ _ _ => rfl

theorem startBatches (parallel : Parallel s₁ s₂) {now : Instant}
    (revisions : ∀ key, s₂.cache.knownRevision key now = s₁.cache.knownRevision key now)
    (pieces : List (List ProjectKey)) :
    Parallel (Service.startBatches now pieces s₁) (Service.startBatches now pieces s₂) := by
  induction pieces generalizing s₁ s₂ with
  | nil => exact parallel
  | cons keys rest ih =>
    have same : s₂.askFor now keys = s₁.askFor now keys := by
      simp only [askFor, revisions]
    cases told : s₁.askFor now keys with
    | error e =>
      simp only [Service.startBatches, told, same.trans told]
      exact parallel.change (f := fun s => { s with status := .crashed }) fun _ _ _ => rfl
    | ok asked =>
      simp only [Service.startBatches, told, same.trans told]
      have started := parallel.change (f := fun s => { s with
        batches := s.batches ++ [⟨s.dispatched, now, asked.map (·.1), .open asked {}⟩]
        dispatched := s.dispatched + 1 }) fun _ _ _ => rfl
      exact ih (started.record [⟨.batchSize, [], asked.length⟩]) revisions

theorem dispatch (parallel : Parallel s₁ s₂) {now : Instant}
    (revisions : ∀ key, s₂.cache.knownRevision key now = s₁.cache.knownRevision key now) :
    Parallel (s₁.dispatch now) (s₂.dispatch now) := by
  have emptied := parallel.change (f := fun s => { s with queued := ∅ }) fun _ _ _ => rfl
  have started := emptied.startBatches revisions (pieces s₁.settings.batchSize s₁.queued.keys)
  have crashed := emptied.change (f := fun s => { s with status := .crashed }) fun _ _ _ => rfl
  obtain ⟨cache, samples, rfl⟩ := parallel.split
  by_cases idle : s₁.queued.isEmpty = true
  · simp only [Service.dispatch, idle, if_true]
    exact parallel
  · by_cases nothing : s₁.settings.batchSize = 0
    · simp only [Service.dispatch, idle, Bool.false_eq_true, if_false, nothing, if_true]
      exact crashed
    · simp only [Service.dispatch, idle, Bool.false_eq_true, if_false, nothing]
      exact started

theorem setBatch (parallel : Parallel s₁ s₂) (b : Batch) : Parallel (s₁.setBatch b) (s₂.setBatch b) :=
  parallel.change (f := fun s => s.setBatch b) fun _ _ _ => rfl

theorem consult (parallel : Parallel s₁ s₂) (id : Nat) (content : StoreContent) :
    Parallel (s₁.consult id content) (s₂.consult id content) := by
  have replaced (b : Batch) (recorded : List Sample) :
      Parallel ((s₁.setBatch b).record recorded) ((s₂.setBatch b).record recorded) :=
    (parallel.setBatch b).record recorded
  obtain ⟨cache, samples, rfl⟩ := parallel.split
  have same : Service.batch? { s₁ with cache, samples } id = s₁.batch? id := rfl
  simp only [Service.consult, same]
  split
  · exact replaced _ _
  · exact parallel

theorem answer (parallel : Parallel s₁ s₂) (id : Nat) (result : Except QueryFault ConfigsResponse) :
    Parallel (s₁.answer id result) (s₂.answer id result) := by
  have replaced (b : Batch) (recorded : List Sample) :
      Parallel ((s₁.setBatch b).record recorded) ((s₂.setBatch b).record recorded) :=
    (parallel.setBatch b).record recorded
  obtain ⟨cache, samples, rfl⟩ := parallel.split
  have same : Service.batch? { s₁ with cache, samples } id = s₁.batch? id := rfl
  simp only [Service.answer, same]
  split
  · exact replaced _ _
  · exact parallel

theorem lose (parallel : Parallel s₁ s₂) (id : Nat) : Parallel (s₁.lose id) (s₂.lose id) := by
  have replaced (b : Batch) : Parallel (s₁.setBatch b) (s₂.setBatch b) := parallel.setBatch b
  obtain ⟨cache, samples, rfl⟩ := parallel.split
  have same : Service.batch? { s₁ with cache, samples } id = s₁.batch? id := rfl
  simp only [Service.lose, same]
  split
  · exact replaced _
  · exact parallel

theorem complete (parallel : Parallel s₁ s₂) (id : Nat) (now : Instant) :
    Parallel (s₁.complete id now) (s₂.complete id now) := by
  have dropped := parallel.change (f := fun s => s.dropBatch id) fun _ _ _ => rfl
  have applied (stamp : Instant) (resolutions : List Resolved) := dropped.applyAll stamp now resolutions
  have released (keys : List ProjectKey) := dropped.releaseAll keys
  obtain ⟨cache, samples, rfl⟩ := parallel.split
  have same : Service.batch? { s₁ with cache, samples } id = s₁.batch? id := rfl
  simp only [Service.complete, same]
  split
  · exact parallel
  · split
    · exact parallel
    · exact applied _ _
    · exact released _

theorem reload (parallel : Parallel s₁ s₂) (directory : Directory) (now : Instant) :
    Parallel (s₁.reload directory now) (s₂.reload directory now) := by
  have recorded (samples : List Sample) := parallel.record samples
  obtain ⟨cache, samples, rfl⟩ := parallel.split
  simp only [Service.reload]
  split
  · exact parallel
  · rename_i snapshot _
    split
    · rename_i next changes _
      have installed := (recorded (snapshot.reloadSamples directory)).change
        (f := fun s => { s with overrides := some next }) fun _ _ _ => rfl
      refine installed.recache ?_ fun key => ?_
      · rw [policy_install, policy_install]
        exact parallel.policy
      · rw [inFlight_install, inFlight_install]
        exact parallel.marks key
    · exact recorded _

theorem learnGlobal (parallel : Parallel s₁ s₂) (result : Except QueryFault ConfigsResponse) :
    Parallel (s₁.learnGlobal result) (s₂.learnGlobal result) := by
  simp only [Service.learnGlobal]
  split
  · split
    · rename_i config _
      exact (parallel.record _).change (f := fun s => { s with global := some config }) fun _ _ _ => rfl
    · exact parallel.record _
  · exact parallel.record _

/-- An event that is no sweep keeps services parallel that read the same when it happens. -/
theorem step (parallel : Parallel s₁ s₂) {e : Event} (other : e.isSweep = false)
    (reads : ∀ key now, e.time? = some now → s₂.cache.read key now = s₁.cache.read key now) :
    Parallel (s₁.step e) (s₂.step e) := by
  cases e with
  | look purpose key now => exact parallel.look (reads key now rfl) purpose
  | advance n => exact parallel.advance n
  | requestStop =>
    have mailed := parallel.change (f := fun s => { s with mail := s.mail ++ [.stop] }) fun _ _ _ => rfl
    obtain ⟨cache, samples, rfl⟩ := parallel.split
    simp only [Service.step, requestStop]
    split
    · exact mailed
    · exact parallel
  | receive => exact parallel.whileRunning Service.receive parallel.receive
  | abandon =>
    refine parallel.whileRunning (fun s => if s.mail = [] then { s with status := .stopping } else s) ?_
    have stopping := parallel.change (f := fun s => { s with status := .stopping }) fun _ _ _ => rfl
    obtain ⟨cache, samples, rfl⟩ := parallel.split
    simp only
    split
    · exact stopping
    · exact parallel
  | vanish =>
    have stopped := parallel.change (f := fun s => { s with status := .stopped }) fun _ _ _ => rfl
    obtain ⟨cache, samples, rfl⟩ := parallel.split
    simp only [Service.step]
    split
    · exact stopped
    · exact parallel
  | dispatch now =>
    refine parallel.whileRunning (·.dispatch now) (parallel.dispatch fun key => ?_)
    rw [Cache.knownRevision, Cache.peek, reads key now rfl]
    rfl
  | consult id content => exact parallel.consult id content
  | answer id result => exact parallel.answer id result
  | lose id => exact parallel.lose id
  | complete id now => exact parallel.whileRunning (·.complete id now) (parallel.complete id now)
  | reload directory now => exact parallel.whileRunning (·.reload directory now) (parallel.reload directory now)
  | sweep now => cases other
  | learnGlobal result => exact parallel.learnGlobal result
  | crash =>
    have crashed := parallel.change (f := fun s => { s with status := .crashed }) fun _ _ _ => rfl
    exact parallel.whileRunning (fun s => { s with status := .crashed }) crashed

/-- A sweep of one of the services is no difference to be seen. -/
theorem swept (parallel : Parallel s₁ s₂) {now : Instant} (bounded : s₁.cache.policy.Bounded)
    (visited : List ProjectKey) : Parallel (s₁.step (.sweep now visited)) s₂ := by
  by_cases running : s₁.status = .running
  · obtain ⟨cache, removed, gone⟩ := Cache.evictExpired_eq_ok bounded now
    have swept := Cache.evictExpired_swept gone
    have after : s₁.step (.sweep now visited) = { s₁ with
        cache
        samples := s₁.samples ++ [⟨.evictions, [], removed⟩, ⟨.cacheSize, [], cache.size⟩] } := by
      simp only [Service.step, whileRunning_of_running running, sweep, gone]
      rfl
    rw [after]
    refine ⟨?_, ?_, ?_, fun key => ?_⟩
    · rw [parallel.rest]
    · rw [List.filter_append, parallel.samples]
      exact (List.append_nil _).symm
    · exact parallel.policy.trans swept.policy.symm
    · exact (parallel.marks key).trans (swept.inFlight key).symm
  · have same : s₁.step (.sweep now visited) = s₁ := by
      rw [Service.step, whileRunning_of_not_running running]
    rw [same]
    exact parallel

end Parallel

end Service

end AdmissionCache
