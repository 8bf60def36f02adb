import AdmissionCache.Proofs.Service.Chronicle

namespace AdmissionCache

/-- The progress of a batch whose near sources are consulted for `left` only. -/
def BatchProgress.after (left : List AskedKey) (findings : Findings) : BatchProgress :=
  match left, findings.remaining with
  | [], [] => .resolved findings.resolved
  | left, _ => .open left findings

namespace BatchProgress
variable {findings : Findings}

theorem after_cons (asked : AskedKey) (left : List AskedKey) (findings : Findings) :
    after (asked :: left) findings = .open (asked :: left) findings := rfl

/-- A batch is over if no key is left for the authority. -/
theorem after_nil (none : findings.remaining = []) : after [] findings = .resolved findings.resolved := by
  unfold after
  rw [none]

theorem after_nil_of_ne (some : findings.remaining ≠ []) : after [] findings = .open [] findings := by
  unfold after
  split
  · rename_i none
    exact absurd none some
  · rfl

end BatchProgress

/-- Whether the event is a step of a client's call. -/
def Event.isCall : Event → Bool
  | .look _ _ _ => true
  | .advance _ => true
  | _ => false

/-- What is left to do of a call that has read: to send its fetch, or to judge the decision of a check. -/
def Lookup.opened (l : Lookup) (purpose : Purpose) (key : ProjectKey) : List Call :=
  if l.scheduleFetch then [⟨purpose, key, l.decision, .claimed⟩]
  else (⟨purpose, key, l.decision, .decided⟩ : Call).rest

namespace Service

section Frame
variable (s : Service)

/-- A judgement only leaves an outcome or a sample behind. -/
theorem judge_eq (key : ProjectKey) (d : Decision) :
    ∃ outcomes samples, s.judge key d = { s with outcomes, samples } := by
  unfold judge emit
  split
  · split
    · exact ⟨_, _, rfl⟩
    · exact ⟨_, _, rfl⟩
  · exact ⟨_, _, rfl⟩

/-- A reading that succeeds leaves the calls as they were, and those that it opens. -/
theorem look_ok {cache : Cache} {l : Lookup} {key : ProjectKey} {now : Instant}
    (got : s.cache.get key now = .ok (cache, l)) (purpose : Purpose) :
    s.look purpose key now =
      .ok (({ s with cache, calls := s.calls ++ l.opened purpose key } : Service).record l.samples, l.decision) := by
  rw [look, got, Lookup.opened]
  cases wanted : l.scheduleFetch with
  | true => simp only [bind, Except.bind, wanted, if_true]
  | false =>
    cases purpose with
    | lookup => simp only [bind, Except.bind, wanted, Bool.false_eq_true, if_false, Call.rest, List.append_nil]
    | check => simp only [bind, Except.bind, wanted, Bool.false_eq_true, if_false, Call.rest]

/-- What is applied for a key touches the cache and the worker's queue only. -/
theorem apply_eq (stamp now : Instant) (r : Resolved) :
    ∃ cache queued pendingSince samples,
      s.apply stamp now r = { s with cache, queued, pendingSince, samples } := by
  unfold apply
  split
  · exact ⟨_, _, _, _, rfl⟩
  · exact ⟨_, _, _, _, rfl⟩
  · exact ⟨_, _, _, _, rfl⟩
  · simp only [applyPending]
    split <;> exact ⟨_, _, _, _, rfl⟩
  · exact ⟨_, _, _, _, rfl⟩

theorem applyAll_cons (stamp now : Instant) (r : Resolved) (rest : List Resolved) :
    s.applyAll stamp now (r :: rest) = (s.apply stamp now r).applyAll stamp now rest := rfl

theorem applyAll_eq (stamp now : Instant) (resolutions : List Resolved) :
    ∃ cache queued pendingSince samples,
      s.applyAll stamp now resolutions =
        { s with cache, queued, pendingSince, samples } := by
  induction resolutions generalizing s with
  | nil => exact ⟨_, _, _, _, rfl⟩
  | cons r rest ih =>
    obtain ⟨cache, queued, pendingSince, samples, first⟩ := s.apply_eq stamp now r
    rw [applyAll_cons, first]
    exact ih _

theorem releaseAll_cons (key : ProjectKey) (rest : List ProjectKey) :
    s.releaseAll (key :: rest) = (s.release key).releaseAll rest := rfl

theorem releaseAll_eq (keys : List ProjectKey) :
    ∃ cache pendingSince, s.releaseAll keys = { s with cache, pendingSince } := by
  induction keys generalizing s with
  | nil => exact ⟨_, _, rfl⟩
  | cons key rest ih => exact ih (s.release key)

theorem batches_applyAll (stamp now : Instant) (resolutions : List Resolved) :
    (s.applyAll stamp now resolutions).batches = s.batches := by
  obtain ⟨_, _, _, _, after⟩ := s.applyAll_eq stamp now resolutions
  rw [after]

theorem batches_releaseAll (keys : List ProjectKey) : (s.releaseAll keys).batches = s.batches := by
  obtain ⟨_, _, after⟩ := s.releaseAll_eq keys
  rw [after]

theorem status_applyAll (stamp now : Instant) (resolutions : List Resolved) :
    (s.applyAll stamp now resolutions).status = s.status := by
  obtain ⟨_, _, _, _, after⟩ := s.applyAll_eq stamp now resolutions
  rw [after]

theorem status_releaseAll (keys : List ProjectKey) : (s.releaseAll keys).status = s.status := by
  obtain ⟨_, _, after⟩ := s.releaseAll_eq keys
  rw [after]

theorem dispatched_applyAll (stamp now : Instant) (resolutions : List Resolved) :
    (s.applyAll stamp now resolutions).dispatched = s.dispatched := by
  obtain ⟨_, _, _, _, after⟩ := s.applyAll_eq stamp now resolutions
  rw [after]

theorem dispatched_releaseAll (keys : List ProjectKey) :
    (s.releaseAll keys).dispatched = s.dispatched := by
  obtain ⟨_, _, after⟩ := s.releaseAll_eq keys
  rw [after]

@[simp] theorem cache_dropBatch (id : Nat) : (s.dropBatch id).cache = s.cache := rfl

theorem mem_dropBatch {s : Service} {id : Nat} {b : Batch} (member : b ∈ (s.dropBatch id).batches) :
    b ∈ s.batches := (List.mem_filter.mp member).1

end Frame

theorem askFor_cons_eq_ok {s : Service} {now : Instant} {key : ProjectKey} {rest : List ProjectKey}
    {asked : List AskedKey} (told : s.askFor now (key :: rest) = .ok asked) :
    ∃ revision tail, s.cache.knownRevision key now = .ok revision ∧ s.askFor now rest = .ok tail ∧
      asked = (key, revision) :: tail := by
  unfold askFor at told ⊢
  rw [List.mapM_cons] at told
  cases known : s.cache.knownRevision key now with
  | error e => rw [known] at told; cases told
  | ok revision =>
    rw [known] at told
    cases others : rest.mapM fun key => (s.cache.knownRevision key now).map fun revision => (key, revision) with
    | error e => rw [others] at told; cases told
    | ok tail =>
      rw [others] at told
      cases told
      exact ⟨revision, tail, rfl, rfl, rfl⟩

theorem askFor_keys {s : Service} {now : Instant} {keys : List ProjectKey} {asked : List AskedKey}
    (told : s.askFor now keys = .ok asked) : asked.map (·.1) = keys := by
  induction keys generalizing asked with
  | nil => cases told; rfl
  | cons key rest ih =>
    obtain ⟨revision, tail, _, others, rfl⟩ := askFor_cons_eq_ok told
    rw [List.map_cons, ih others]

/-- Every key is asked for with the revision known for it. -/
theorem askFor_mem {s : Service} {now : Instant} {keys : List ProjectKey} {asked : List AskedKey}
    (told : s.askFor now keys = .ok asked) {a : AskedKey} (member : a ∈ asked) :
    s.cache.knownRevision a.1 now = .ok a.2 := by
  induction keys generalizing asked with
  | nil => cases told; cases member
  | cons key rest ih =>
    obtain ⟨revision, tail, known, others, rfl⟩ := askFor_cons_eq_ok told
    rcases List.mem_cons.mp member with rfl | later
    · exact known
    · exact ih others later

theorem mem_askFor {s : Service} {now : Instant} {keys : List ProjectKey} {asked : List AskedKey}
    (told : s.askFor now keys = .ok asked) {key : ProjectKey} {revision : Option Revision}
    (known : s.cache.knownRevision key now = .ok revision) (inside : key ∈ keys) : (key, revision) ∈ asked := by
  rw [← askFor_keys told] at inside
  obtain ⟨a, member, rfl⟩ := List.mem_map.mp inside
  rw [askFor_mem told member] at known
  cases known
  exact member

/-- Keys can be asked for unless the revision that is known for one of them cannot be told. -/
theorem askFor_cases (s : Service) (now : Instant) (keys : List ProjectKey) :
    (∃ asked, s.askFor now keys = .ok asked) ∨ ∃ key ∈ keys, ∃ e, s.cache.knownRevision key now = .error e := by
  induction keys with
  | nil => exact Or.inl ⟨[], rfl⟩
  | cons key rest ih =>
    cases known : s.cache.knownRevision key now with
    | error e => exact Or.inr ⟨key, List.mem_cons_self, e, known⟩
    | ok revision =>
      rcases ih with ⟨asked, told⟩ | ⟨k, inside, untold⟩
      · unfold askFor at told ⊢
        rw [List.mapM_cons, known, told]
        exact Or.inl ⟨_, rfl⟩
      · exact Or.inr ⟨k, List.mem_cons_of_mem _ inside, untold⟩

/-- The batches that a dispatch at `now` starts in `s`, for the pieces it comes to before it
breaks down. -/
structure Started (s : Service) (now : Instant) (pieces : List (List ProjectKey))
    (started : List Batch) (s' : Service) : Prop where
  batches : s'.batches = s.batches ++ started
  dispatched : s'.dispatched = s.dispatched + started.length
  ids : started.map (·.id) = List.range' s.dispatched started.length
  fresh : ∀ b ∈ started, b.keys ∈ pieces ∧ b.stamp = now ∧
    ∃ asked, s.askFor now b.keys = .ok asked ∧ b.progress = .open asked {}
  rest : ∃ status samples, s' = { s with
    batches := s'.batches, dispatched := s'.dispatched, status, samples }
  first : started.map (·.keys) <+: pieces
  all : started.map (·.keys) = pieces ∧ s'.status = s.status ∨
    s'.status = .crashed ∧ ∃ keys ∈ pieces, ∃ e, s.askFor now keys = .error e

theorem Started.pieces_eq {s s' : Service} {now : Instant} {pieces : List (List ProjectKey)} {started : List Batch}
    (all : Started s now pieces started s') (alive : s'.status ≠ .crashed) : started.map (·.keys) = pieces := by
  rcases all.all with ⟨same, _⟩ | ⟨crashed, _⟩
  · exact same
  · exact absurd crashed alive

theorem startBatches_started (now : Instant) (pieces : List (List ProjectKey)) (s : Service) :
    ∃ started, Started s now pieces started (startBatches now pieces s) := by
  induction pieces generalizing s with
  | nil =>
    exact ⟨[], by simp [startBatches], rfl, rfl, by simp, ⟨_, _, rfl⟩, List.prefix_rfl, Or.inl ⟨rfl, rfl⟩⟩
  | cons keys pieces ih =>
    unfold startBatches
    cases told : s.askFor now keys with
    | error e =>
      exact ⟨[], by simp, rfl, rfl, by simp, ⟨_, _, rfl⟩, List.nil_prefix,
        Or.inr ⟨rfl, keys, List.mem_cons_self, e, told⟩⟩
    | ok asked =>
      obtain ⟨started, later⟩ := ih (s.startBatch now asked)
      have named := askFor_keys told
      refine ⟨⟨s.dispatched, now, keys, .open asked {}⟩ :: started, ?_, ?_, ?_, ?_, ?_, ?_, ?_⟩
      · rw [later.batches]
        simp only [startBatch, record, named, List.append_assoc, List.singleton_append]
      · rw [later.dispatched, List.length_cons]
        simp only [startBatch, record]
        omega
      · rw [List.map_cons, later.ids, List.length_cons, List.range'_succ]
        simp only [startBatch, record]
      · intro b member
        rcases List.mem_cons.mp member with rfl | others
        · exact ⟨List.mem_cons_self, rfl, asked, told, rfl⟩
        · obtain ⟨inside, rest⟩ := later.fresh b others
          exact ⟨List.mem_cons_of_mem _ inside, rest⟩
      · obtain ⟨status, samples, same⟩ := later.rest
        exact ⟨status, samples, same⟩
      · exact (List.prefix_cons_inj keys).mpr later.first
      · rcases later.all with ⟨same, status⟩ | ⟨crashed, failing, inside, broken⟩
        · exact Or.inl ⟨by rw [List.map_cons, same], status⟩
        · exact Or.inr ⟨crashed, failing, List.mem_cons_of_mem _ inside, broken⟩

/-- What an event does to a service and notes in the chronicle. -/
inductive Move (s : Service) : Event → List Entry → Service → Prop
  | idle {e} : Move s e [] s
  | claimed {purpose key now cache l samples} : s.cache.get key now = .ok (cache, l) →
      l.scheduleFetch = true →
      Move s (.look purpose key now) []
        { s with cache, calls := s.calls ++ [⟨purpose, key, l.decision, .claimed⟩], samples }
  | looked {purpose key now cache l decided samples} : s.cache.get key now = .ok (cache, l) →
      l.scheduleFetch = false → (∀ call ∈ decided, call.stage = .decided) →
      Move s (.look purpose key now) [] { s with cache, calls := s.calls ++ decided, samples }
  | mailed {n call} : s.calls[n]? = some call → call.stage = .claimed → s.status.listens = true →
      Move s (.advance n) []
        { s with mail := s.mail ++ [.fetch call.key], calls := (s.replaceCall n call.rest).calls }
  | refused {n call} : s.calls[n]? = some call → call.stage = .claimed → s.status.listens = false →
      Move s (.advance n) [] (s.replaceCall n [{ call with stage := .refused }])
  | freed {n call} : s.calls[n]? = some call → call.stage = .refused →
      Move s (.advance n) []
        { s with cache := s.cache.fail call.key, calls := (s.replaceCall n call.rest).calls }
  | judged {n call outcomes samples} : s.calls[n]? = some call → call.stage = .decided →
      Move s (.advance n) [] { s with calls := (s.replaceCall n []).calls, outcomes, samples }
  | stopMailed : s.status.listens = true →
      Move s .requestStop [] { s with mail := s.mail ++ [.stop] }
  | queued {key mail} : s.status = .running → s.mail = .fetch key :: mail →
      Move s .receive [] { s with mail, queued := s.queued.insert key }
  | stopTaken {mail} : s.status = .running → s.mail = .stop :: mail →
      Move s .receive [] { s with mail, status := .stopping }
  | abandoned : s.status = .running → Move s .abandon [] { s with status := .stopping }
  | vanished : s.status = .stopping → Move s .vanish [] { s with status := .stopped }
  | dispatched {now started s'} : s.status = .running → s.settings.batchSize ≠ 0 →
      Started { s with queued := ∅ } now (pieces s.settings.batchSize s.queued.keys) started s' →
      Move s (.dispatch now) (started.map fun b => .sent b.id b.stamp b.keys) s'
  | unparted {now} : s.status = .running → s.settings.batchSize = 0 →
      Move s (.dispatch now) [] { s with queued := ∅, status := .crashed }
  | consulted {id content b asked left findings samples} : s.batch? id = some b →
      b.progress = .open (asked :: left) findings →
      Move s (.consult id content)
        (((s.nearSources content).consult asked).resolution?.toList.map fun r =>
          .told id asked.1 r (s.nearSource asked.1))
        { s.setBatch { b with
            progress := .after left
              (findings.add asked ((s.nearSources content).consult asked).resolution?) } with samples }
  | answered {id result b findings samples} : s.batch? id = some b → b.progress = .open [] findings →
      Move s (.answer id result)
        ((answersOf findings.remaining result).map fun r => .told id r.1 r.2 .authority)
        { s.setBatch { b with progress := .resolved (findings.answered result) } with samples }
  | lost {id b left findings} : s.batch? id = some b → b.progress = .open left findings →
      Move s (.lose id) [] (s.setBatch { b with progress := .lost })
  | applied {id now b resolutions} : s.status = .running → s.batch? id = some b →
      b.progress = .resolved resolutions →
      Move s (.complete id now)
        (applications b.id b.stamp now resolutions (s.dropBatch b.id))
        ((s.dropBatch b.id).applyAll b.stamp now resolutions)
  | released {id now b} : s.status = .running → s.batch? id = some b → b.progress = .lost →
      Move s (.complete id now) (b.keys.map (.released b.id))
        ((s.dropBatch b.id).releaseAll b.keys)
  | reloaded {directory now previous next changes samples} : s.status = .running →
      s.overrides = some previous → previous.reload directory = .ok (next, changes) →
      Move s (.reload directory now) (OverrideChanges.entries changes now)
        { s with overrides := some next, cache := install s.cache changes now, samples }
  | kept {directory now samples} : Move s (.reload directory now) [] { s with samples }
  | swept {now visited cache removed samples} : s.status = .running →
      s.cache.evictExpired now = .ok (cache, removed) →
      Move s (.sweep now visited) [] { s with cache, samples }
  | globalLearned {result global samples} : Move s (.learnGlobal result) [] { s with global, samples }
  | unswept {now visited e} : s.status = .running → s.cache.evictExpired now = .error e →
      Move s (.sweep now visited) [] { s with cache := s.cache.abandonSweep now visited, status := .crashed }
  | crashed : s.status = .running → Move s .crash [] { s with status := .crashed }

theorem mem_of_batch? {s : Service} {id : Nat} {b : Batch} (found : s.batch? id = some b) :
    b ∈ s.batches ∧ b.id = id :=
  ⟨List.mem_of_find?_eq_some found, by simpa using List.find?_some found⟩

theorem whileRunning_of_running {s : Service} (running : s.status = .running)
    (f : Service → Service) : s.whileRunning f = f s := if_pos running

theorem whileRunning_of_not_running {s : Service} (ended : ¬ s.status = .running)
    (f : Service → Service) : s.whileRunning f = s := if_neg ended

theorem look_move (s : Service) (purpose : Purpose) (key : ProjectKey) (now : Instant) :
    Move s (.look purpose key now) [] (s.step (.look purpose key now)) := by
  simp only [step]
  cases got : s.cache.get key now with
  | error e =>
    simp only [look, got]
    exact .idle
  | ok answer =>
    obtain ⟨cache, l⟩ := answer
    simp only [look, got]
    change Move s _ [] ({ s with cache, calls := _ }.record l.samples)
    cases wanted : l.scheduleFetch with
    | true =>
      simp only [if_true]
      exact .claimed got wanted
    | false =>
      simp only [Bool.false_eq_true, if_false]
      cases purpose with
      | lookup =>
        have read : Move s (.look .lookup key now) []
            { s with cache, calls := s.calls ++ [], samples := s.samples ++ l.samples } :=
          .looked got wanted (by simp)
        rw [List.append_nil] at read
        exact read
      | check => exact .looked got wanted (by simp)

theorem advance_move (s : Service) (n : Nat) : Move s (.advance n) [] (s.step (.advance n)) := by
  simp only [step, advance]
  split
  · exact .idle
  · rename_i call atCall
    split
    · rename_i claimed
      split
      · rename_i listening
        exact .mailed atCall claimed listening
      · rename_i deaf
        exact .refused atCall claimed (Bool.not_eq_true _ ▸ deaf)
    · rename_i refused
      exact .freed atCall refused
    · rename_i decided
      obtain ⟨outcomes, samples, after⟩ := judge_eq (s.replaceCall n []) call.key call.decision
      rw [after]
      exact .judged atCall decided

theorem dispatch_move (s : Service) (now : Instant) :
    Move s (.dispatch now) (s.entries (.dispatch now)) (s.step (.dispatch now)) := by
  by_cases running : s.status = .running
  · have moved : s.step (.dispatch now) = s.dispatch now := by rw [step, whileRunning_of_running running]
    simp only [entries, moved, dispatch]
    split
    · rw [List.drop_length, List.map_nil]
      exact .idle
    · split
      · rename_i nothing
        rw [List.drop_length, List.map_nil]
        exact .unparted running nothing
      · rename_i positive
        obtain ⟨started, all⟩ := startBatches_started now (pieces s.settings.batchSize s.queued.keys)
          { s with queued := ∅ }
        rw [all.batches, List.drop_left]
        exact .dispatched running positive all
  · have same : s.step (.dispatch now) = s := by rw [step, whileRunning_of_not_running running]
    simp only [entries, same, List.drop_length, List.map_nil]
    exact .idle

theorem consult_move (s : Service) (id : Nat) (content : StoreContent) :
    Move s (.consult id content) (s.entries (.consult id content)) (s.step (.consult id content)) := by
  simp only [step, entries, consult]
  cases found : s.batch? id with
  | none => exact .idle
  | some b =>
    obtain ⟨number, stamp, keys, progress⟩ := b
    cases progress with
    | «open» left findings =>
      cases left with
      | nil => exact .idle
      | cons asked left => exact .consulted found rfl
    | resolved resolutions => exact .idle
    | lost => exact .idle

theorem answer_move (s : Service) (id : Nat) (result : Except QueryFault ConfigsResponse) :
    Move s (.answer id result) (s.entries (.answer id result)) (s.step (.answer id result)) := by
  simp only [step, entries, answer]
  cases found : s.batch? id with
  | none => exact .idle
  | some b =>
    obtain ⟨number, stamp, keys, progress⟩ := b
    cases progress with
    | «open» left findings =>
      cases left with
      | nil => exact .answered found rfl
      | cons asked left => exact .idle
    | resolved resolutions => exact .idle
    | lost => exact .idle

theorem lose_move (s : Service) (id : Nat) : Move s (.lose id) [] (s.step (.lose id)) := by
  simp only [step, lose]
  cases found : s.batch? id with
  | none => exact .idle
  | some b =>
    obtain ⟨number, stamp, keys, progress⟩ := b
    cases progress with
    | «open» left findings => exact .lost found rfl
    | resolved resolutions => exact .idle
    | lost => exact .idle

theorem complete_move (s : Service) (id : Nat) (now : Instant) :
    Move s (.complete id now) (s.entries (.complete id now)) (s.step (.complete id now)) := by
  by_cases running : s.status = .running
  · simp only [step, whileRunning_of_running running, entries, if_pos running, complete]
    cases found : s.batch? id with
    | none => exact .idle
    | some b =>
      obtain ⟨number, stamp, keys, progress⟩ := b
      have same := (mem_of_batch? found).2
      cases progress with
      | «open» left findings => exact .idle
      | resolved resolutions => subst same; exact .applied running found rfl
      | lost => subst same; exact .released running found rfl
  · simp only [step, whileRunning_of_not_running running, entries, if_neg running]
    exact .idle

theorem reload_move (s : Service) (directory : Directory) (now : Instant) :
    Move s (.reload directory now) (s.entries (.reload directory now))
      (s.step (.reload directory now)) := by
  by_cases running : s.status = .running
  · simp only [step, whileRunning_of_running running, entries, if_pos running, reload]
    cases loaded : s.overrides with
    | none => exact .idle
    | some previous =>
      simp only [record]
      cases scanned : previous.reload directory with
      | error e =>
        simp only [Option.elim, scanned, Except.toOption]
        exact .kept
      | ok result =>
        simp only [Option.elim, scanned, Except.toOption]
        exact .reloaded running loaded scanned
  · simp only [step, whileRunning_of_not_running running, entries, if_neg running]
    exact .idle

/-- Every event is one of the moves, or none. -/
theorem step_move (s : Service) (e : Event) : Move s e (s.entries e) (s.step e) := by
  have guarded {e : Event} {f : Service → Service} (moved : s.status = .running → Move s e [] (f s)) :
      Move s e [] (s.whileRunning f) := by
    by_cases running : s.status = .running
    · rw [whileRunning_of_running running]; exact moved running
    · rw [whileRunning_of_not_running running]; exact .idle
  cases e with
  | look purpose key now => exact s.look_move purpose key now
  | advance n => exact s.advance_move n
  | requestStop =>
    simp only [step, entries, requestStop]
    split
    · rename_i listening; exact .stopMailed listening
    · exact .idle
  | receive =>
    simp only [step, entries]
    refine guarded fun running => ?_
    unfold receive
    split
    · exact .idle
    · rename_i key mail first; exact .queued running first
    · rename_i mail first; exact .stopTaken running first
  | abandon =>
    simp only [step, entries]
    refine guarded fun running => ?_
    split
    · exact .abandoned running
    · exact .idle
  | vanish =>
    simp only [step, entries]
    split
    · rename_i stopping; exact .vanished stopping
    · exact .idle
  | dispatch now => exact s.dispatch_move now
  | consult id content => exact s.consult_move id content
  | answer id result => exact s.answer_move id result
  | lose id => exact s.lose_move id
  | complete id now => exact s.complete_move id now
  | reload directory now => exact s.reload_move directory now
  | sweep now =>
    simp only [step, entries]
    refine guarded fun running => ?_
    unfold sweep
    split
    · rename_i cache removed gone; exact .swept running gone
    · rename_i e failed; exact .unswept running failed
  | learnGlobal result =>
    simp only [step, entries, learnGlobal]
    split
    · split <;> exact .globalLearned
    · exact .globalLearned
  | crash =>
    simp only [step, entries]
    exact guarded fun running => .crashed running

section Status
variable {s s' : Service} {e : Event} {new : List Entry}

/-- A worker that runs was running before. -/
theorem Move.ran (move : Move s e new s') (running : s'.status = .running) : s.status = .running := by
  cases move with
  | dispatched before _ _ => exact before
  | applied before _ _ => exact before
  | released before _ _ => exact before
  | stopTaken _ _ => cases running
  | abandoned _ => cases running
  | vanished _ => cases running
  | unparted _ _ => cases running
  | unswept _ _ => cases running
  | crashed _ => cases running
  | _ => exact running

theorem run_ran {events : List Event} (running : (s.run events).status = .running) : s.status = .running := by
  induction events generalizing s with
  | nil => exact running
  | cons e rest ih => exact (s.step_move e).ran (ih running)

/-- A worker that broke down stays so. -/
theorem Move.alive (move : Move s e new s') (alive : s'.status ≠ .crashed) : s.status ≠ .crashed := by
  have guarded {status : WorkerStatus} (before : s.status = status) (sound : status ≠ .crashed) :
      s.status ≠ .crashed := fun crashed => sound (before.symm.trans crashed)
  cases move with
  | stopTaken before _ => exact guarded before nofun
  | abandoned before => exact guarded before nofun
  | vanished before => exact guarded before nofun
  | dispatched before _ _ => exact guarded before nofun
  | applied before _ _ => exact guarded before nofun
  | released before _ _ => exact guarded before nofun
  | unparted before _ => exact guarded before nofun
  | unswept before _ => exact guarded before nofun
  | crashed before => exact guarded before nofun
  | _ => exact alive

end Status

end Service

end AdmissionCache
