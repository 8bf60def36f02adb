import AdmissionCache.Proofs.Service.Moves

namespace AdmissionCache

namespace Service

/-- The service without what it has recorded. -/
def unrecorded (s : Service) : Service := { s with samples := [] }

/-- Whether something is done to a service without regard to what it has recorded. -/
def Unread (f : Service → Service) : Prop := ∀ s, (f s.unrecorded).unrecorded = (f s).unrecorded

theorem unrecorded_record (s : Service) (samples : List Sample) : (s.record samples).unrecorded = s.unrecorded := rfl

section Unread
variable {f g : Service → Service}

/-- What is recorded makes no difference later on. -/
theorem Unread.congr (unread : Unread f) {s s' : Service} (same : s.unrecorded = s'.unrecorded) :
    (f s).unrecorded = (f s').unrecorded := by
  rw [← unread s, same, unread s']

theorem Unread.comp (later : Unread g) (first : Unread f) : Unread fun s => g (f s) :=
  fun s => later.congr (first s)

theorem Unread.foldl {α : Type} {f : Service → α → Service} (each : ∀ a, Unread (f · a)) (list : List α) :
    Unread (list.foldl f) := by
  induction list with
  | nil => exact fun _ => rfl
  | cons a rest ih => exact ih.comp (each a)

theorem Unread.whileRunning (unread : Unread f) : Unread (·.whileRunning f) := by
  intro s
  show (s.unrecorded.whileRunning f).unrecorded = (s.whileRunning f).unrecorded
  by_cases running : s.status = .running
  · have still : s.unrecorded.status = .running := running
    rw [whileRunning_of_running running, whileRunning_of_running still]
    exact unread s
  · have still : ¬ s.unrecorded.status = .running := running
    rw [whileRunning_of_not_running running, whileRunning_of_not_running still]
    rfl

theorem Unread.ite {p : Service → Prop} [DecidablePred p] (same : ∀ s, p s.unrecorded ↔ p s) (first : Unread f)
    (second : Unread g) : Unread fun s => if p s then f s else g s := by
  intro s
  by_cases holds : p s
  · simp only [holds, (same s).mpr holds, if_true]
    exact first s
  · have fails : ¬ p s.unrecorded := fun there => holds ((same s).mp there)
    simp only [holds, fails, if_false]
    exact second s

end Unread

theorem unread_judge (key : ProjectKey) (d : Decision) : Unread (·.judge key d) := by
  intro s
  simp only [judge, emit, unrecorded]
  split
  · cases s.settings.sink <;> rfl
  · rfl

theorem unread_advance (n : Nat) : Unread (·.advance n) := by
  intro s
  show (s.unrecorded.advance n).unrecorded = (s.advance n).unrecorded
  have same : s.unrecorded.calls = s.calls := rfl
  rw [advance, advance, same]
  cases s.calls[n]? with
  | none => rfl
  | some call =>
    obtain ⟨purpose, key, decision, stage⟩ := call
    cases stage with
    | claimed =>
      have listens : s.unrecorded.status = s.status := rfl
      simp only [listens]
      split <;> rfl
    | refused => rfl
    | decided => exact (unread_judge key decision).congr rfl

theorem unread_receive : Unread receive := by
  intro s
  simp only [receive, unrecorded]
  split
  · rfl
  · rfl
  · rfl

theorem unread_startBatches (now : Instant) (pieces : List (List ProjectKey)) : Unread (startBatches now pieces) := by
  induction pieces with
  | nil => exact fun _ => rfl
  | cons keys rest ih =>
    intro s
    have same : s.unrecorded.askFor now keys = s.askFor now keys := rfl
    rw [startBatches, startBatches, same]
    cases s.askFor now keys with
    | ok asked => exact ih.congr rfl
    | error e => rfl

theorem unread_dispatch (now : Instant) : Unread (·.dispatch now) := by
  intro s
  show (s.unrecorded.dispatch now).unrecorded = (s.dispatch now).unrecorded
  have keys : s.unrecorded.queued = s.queued := rfl
  have settings : s.unrecorded.settings = s.settings := rfl
  rw [dispatch, dispatch, keys, settings]
  split
  · rfl
  · by_cases none : s.settings.batchSize = 0
    · simp only [none, if_true]
      rfl
    · simp only [none, if_false]
      exact (unread_startBatches now _).congr rfl

theorem unread_consult (id : Nat) (content : StoreContent) : Unread (·.consult id content) := by
  intro s
  show (s.unrecorded.consult id content).unrecorded = (s.consult id content).unrecorded
  have same : s.unrecorded.batch? id = s.batch? id := rfl
  rw [consult, consult, same]
  cases s.batch? id with
  | none => rfl
  | some b =>
    obtain ⟨id, stamp, keys, progress⟩ := b
    cases progress with
    | «open» left findings => cases left <;> rfl
    | resolved resolutions => rfl
    | lost => rfl

theorem unread_answer (id : Nat) (result : Except QueryFault ConfigsResponse) : Unread (·.answer id result) := by
  intro s
  show (s.unrecorded.answer id result).unrecorded = (s.answer id result).unrecorded
  have same : s.unrecorded.batch? id = s.batch? id := rfl
  rw [answer, answer, same]
  cases s.batch? id with
  | none => rfl
  | some b =>
    obtain ⟨id, stamp, keys, progress⟩ := b
    cases progress with
    | «open» left findings => cases left <;> rfl
    | resolved resolutions => rfl
    | lost => rfl

theorem unread_lose (id : Nat) : Unread (·.lose id) := by
  intro s
  show (s.unrecorded.lose id).unrecorded = (s.lose id).unrecorded
  have same : s.unrecorded.batch? id = s.batch? id := rfl
  rw [lose, lose, same]
  cases s.batch? id with
  | none => rfl
  | some b =>
    obtain ⟨id, stamp, keys, progress⟩ := b
    cases progress <;> rfl

theorem unread_applyPending (stamp now : Instant) (key : ProjectKey) : Unread (·.applyPending stamp now key) := by
  intro s
  show (s.unrecorded.applyPending stamp now key).unrecorded = (s.applyPending stamp now key).unrecorded
  have since : s.unrecorded.pendingSince = s.pendingSince := rfl
  have settings : s.unrecorded.settings = s.settings := rfl
  rw [applyPending, applyPending, since, settings]
  split <;> rfl

theorem unread_apply (stamp now : Instant) (r : Resolved) : Unread (·.apply stamp now r) := by
  intro s
  obtain ⟨key, resolution⟩ := r
  cases resolution with
  | pending => exact unread_applyPending stamp now key s
  | _ => rfl

theorem unread_complete (id : Nat) (now : Instant) : Unread (·.complete id now) := by
  intro s
  show (s.unrecorded.complete id now).unrecorded = (s.complete id now).unrecorded
  have same : s.unrecorded.batch? id = s.batch? id := rfl
  rw [complete, complete, same]
  cases s.batch? id with
  | none => rfl
  | some b =>
    obtain ⟨_, stamp, keys, progress⟩ := b
    cases progress with
    | «open» left findings => rfl
    | resolved resolutions => exact (Unread.foldl (unread_apply stamp now) resolutions).congr rfl
    | lost => exact (Unread.foldl (f := release) (fun _ _ => rfl) keys).congr rfl

theorem unread_reload (directory : Directory) (now : Instant) : Unread (·.reload directory now) := by
  intro s
  show (s.unrecorded.reload directory now).unrecorded = (s.reload directory now).unrecorded
  have same : s.unrecorded.overrides = s.overrides := rfl
  rw [reload, reload, same]
  cases s.overrides with
  | none => rfl
  | some snapshot =>
    cases loaded : snapshot.reload directory with
    | ok changed => simp only [loaded]; rfl
    | error e => simp only [loaded]; rfl

theorem unread_sweep (now : Instant) (visited : List ProjectKey) : Unread (·.sweep now visited) := by
  intro s
  simp only [sweep, unrecorded]
  cases s.cache.evictExpired now <;> rfl

theorem unread_learnGlobal (result : Except QueryFault ConfigsResponse) : Unread (·.learnGlobal result) := by
  intro s
  cases result with
  | error fault => rfl
  | ok response =>
    simp only [learnGlobal, unrecorded, record]
    cases response.globalConfig? <;> rfl

/-- Nothing that happens to a service depends on what it has recorded. -/
theorem unread_step (e : Event) : Unread (·.step e) := by
  cases e with
  | look purpose key now =>
    intro s
    cases got : s.cache.get key now with
    | error e =>
      have fails (s' : Service) (same : s'.cache = s.cache) : s'.look purpose key now = .error e := by
        rw [look, same, got]
        rfl
      simp only [step, fails s rfl, fails s.unrecorded rfl]
      rfl
    | ok result =>
      obtain ⟨cache, l⟩ := result
      simp only [step, s.look_ok got, s.unrecorded.look_ok got]
      rfl
  | advance n => exact unread_advance n
  | requestStop => exact Unread.ite (fun _ => Iff.rfl) (fun _ => rfl) fun _ => rfl
  | receive => exact unread_receive.whileRunning
  | abandon => exact (Unread.ite (fun _ => Iff.rfl) (fun _ => rfl) fun _ => rfl).whileRunning
  | vanish => exact Unread.ite (fun _ => Iff.rfl) (fun _ => rfl) fun _ => rfl
  | dispatch now => exact (unread_dispatch now).whileRunning
  | consult id content => exact unread_consult id content
  | answer id result => exact unread_answer id result
  | lose id => exact unread_lose id
  | complete id now => exact (unread_complete id now).whileRunning
  | reload directory now => exact (unread_reload directory now).whileRunning
  | sweep now visited => exact (unread_sweep now visited).whileRunning
  | learnGlobal result => exact unread_learnGlobal result
  | crash => exact Unread.whileRunning fun _ => rfl

theorem unread_run (events : List Event) : Unread (·.run events) := Unread.foldl unread_step events

end Service

end AdmissionCache
