import AdmissionCache.Service.State

namespace AdmissionCache

/-- Parts a list into pieces of the given size; the last one may be shorter. -/
def pieces {α : Type} (size : Nat) (list : List α) : List (List α) :=
  if size = 0 ∨ list = [] then []
  else list.take size :: pieces size (list.drop size)
termination_by list.length
decreasing_by
  rename_i h
  have positive : 0 < list.length := List.length_pos_iff.mpr fun empty => h (.inr empty)
  simp only [List.length_drop]
  omega

theorem pieces_nil {α : Type} (size : Nat) : pieces size ([] : List α) = [] := by
  rw [pieces, if_pos (Or.inr rfl)]

theorem flatten_pieces {α : Type} {size : Nat} (positive : 0 < size) (list : List α) :
    (pieces size list).flatten = list := by
  fun_induction pieces size list with
  | case1 list h =>
    rcases h with zero | empty
    · omega
    · rw [empty, List.flatten_nil]
  | case2 list h ih => rw [List.flatten_cons, ih, List.take_append_drop]

theorem length_le_of_mem_pieces {α : Type} {size : Nat} {list piece : List α}
    (member : piece ∈ pieces size list) : piece.length ≤ size := by
  fun_induction pieces size list with
  | case1 list h => exact nomatch member
  | case2 list h ih =>
    rcases List.mem_cons.mp member with rfl | later
    · exact List.length_take_le ..
    · exact ih later

theorem ne_nil_of_mem_pieces {α : Type} {size : Nat} {list piece : List α}
    (member : piece ∈ pieces size list) : piece ≠ [] := by
  fun_induction pieces size list with
  | case1 list h => exact nomatch member
  | case2 list h ih =>
    rcases List.mem_cons.mp member with rfl | later
    · intro empty
      exact h (List.take_eq_nil_iff.mp empty)
    · exact ih later

theorem sublist_of_mem_pieces {α : Type} {size : Nat} {list piece : List α}
    (member : piece ∈ pieces size list) : piece.Sublist list := by
  fun_induction pieces size list with
  | case1 list h => exact nomatch member
  | case2 list h ih =>
    rcases List.mem_cons.mp member with rfl | later
    · exact List.take_sublist ..
    · exact (ih later).trans (List.drop_sublist ..)

namespace Service

/-- Does something unless the worker is gone. -/
def whileRunning (s : Service) (f : Service → Service) : Service :=
  if s.status = .running then f s else s

/-- Takes the first command. A worker that is told to stop takes no further one. -/
def receive (s : Service) : Service :=
  match s.mail with
  | [] => s
  | .fetch key :: mail => { s with mail, queued := s.queued.insert key }
  | .stop :: mail => { s with mail, status := .stopping }

def askFor (s : Service) (now : Instant) (keys : List ProjectKey) :
    Except PeriodOverflow (List AskedKey) :=
  keys.mapM fun key => (s.cache.knownRevision key now).map fun revision => (key, revision)

def startBatch (s : Service) (now : Instant) (asked : List AskedKey) : Service :=
  let started : Service := { s with
    batches := s.batches ++ [⟨s.dispatched, now, asked.map (·.1), .open asked {}⟩]
    dispatched := s.dispatched + 1 }
  started.record [⟨.batchSize, [], asked.length⟩]

/-- Starts batches one after the other. Where revisions cannot be told the worker breaks
down. -/
def startBatches (now : Instant) : List (List ProjectKey) → Service → Service
  | [], s => s
  | keys :: rest, s =>
    match s.askFor now keys with
    | .ok asked => startBatches now rest (s.startBatch now asked)
    | .error _ => { s with status := .crashed }

/-- Dispatches the queued keys in their order. Keys cannot be parted into batches of no
keys. -/
def dispatch (s : Service) (now : Instant) : Service :=
  if s.queued.isEmpty then s
  else
    let emptied : Service := { s with queued := ∅ }
    if s.settings.batchSize = 0 then { emptied with status := .crashed }
    else startBatches now (pieces s.settings.batchSize s.queued.keys) emptied

/-- Ends the fetch of a key without a result. -/
def giveUp (s : Service) (key : ProjectKey) : Service := { s with cache := s.cache.fail key }

/-- Applies a pending resolution: the key is queued again until it has been pending for
the time of a query, counted from the dispatch of the first batch that found it so. -/
def applyPending (s : Service) (stamp now : Instant) (key : ProjectKey) : Service :=
  let since := (s.pendingSince.get? key).getD stamp
  if (now.since since).nanos < s.settings.queryTimeout.nanos then
    { s with pendingSince := s.pendingSince.insert key since, queued := s.queued.insert key }
  else
    let ended : Service := { s with pendingSince := s.pendingSince.erase key }
    (ended.record [.ofFetch .authority "pending_expired"]).giveUp key

/-- Applies the resolution of a key. -/
def apply (s : Service) (stamp now : Instant) (r : Resolved) : Service :=
  let settled : Service := { s with pendingSince := s.pendingSince.erase r.1 }
  match r.2 with
  | .config config => { settled with cache := (s.cache.put r.1 config stamp).1 }
  | .unchanged revision => { settled with cache := (s.cache.refresh r.1 revision stamp).1 }
  | .notFound => { settled with cache := (s.cache.putMissing r.1 stamp).1 }
  | .pending => s.applyPending stamp now r.1
  | .failed => settled.giveUp r.1

def applyAll (s : Service) (stamp now : Instant) (resolutions : List Resolved) : Service :=
  resolutions.foldl (fun s r => s.apply stamp now r) s

/-- Lets go of a key whose batch broke down. -/
def release (s : Service) (key : ProjectKey) : Service :=
  let settled : Service := { s with pendingSince := s.pendingSince.erase key }
  settled.giveUp key

def releaseAll (s : Service) (keys : List ProjectKey) : Service := keys.foldl release s

/-- Applies a batch that is over, and forgets it. -/
def complete (s : Service) (id : Nat) (now : Instant) : Service :=
  match s.batch? id with
  | none => s
  | some b =>
    match b.progress with
    | .open _ _ => s
    | .resolved resolutions => (s.dropBatch id).applyAll b.stamp now resolutions
    | .lost => (s.dropBatch id).releaseAll b.keys

/-- Installs what changed among the overrides. -/
def install (c : Cache) (changes : OverrideChanges) (now : Instant) : Cache :=
  changes.removed.foldl Cache.invalidate
    (changes.updated.toList.foldl (fun c e => c.applyOverride e.1 e.2 now) c)

/-- Loads the overrides again. If that fails nothing changes. -/
def reload (s : Service) (d : Directory) (now : Instant) : Service :=
  match s.overrides with
  | none => s
  | some snapshot =>
    let s := s.record (snapshot.reloadSamples d)
    match snapshot.reload d with
    | .ok (next, changes) =>
      { s with overrides := some next, cache := install s.cache changes now }
    | .error _ => s

/-- Removes what no longer counts. Where that cannot be told of a slot the worker breaks down,
after it has seen to the slots visited before. -/
def sweep (s : Service) (now : Instant) (visited : List ProjectKey) : Service :=
  match s.cache.evictExpired now with
  | .ok (cache, removed) =>
    let swept : Service := { s with cache }
    swept.record [⟨.evictions, [], removed⟩, ⟨.cacheSize, [], cache.size⟩]
  | .error _ => { s with cache := s.cache.abandonSweep now visited, status := .crashed }

/-- Consults the near sources for the next key of a batch. A batch for which the
authority need not be asked is over then. -/
def consult (s : Service) (id : Nat) (content : StoreContent) : Service :=
  match s.batch? id with
  | some ⟨id, stamp, keys, .open (asked :: left) findings⟩ =>
    let c := (s.nearSources content).consult asked
    let findings := findings.add asked c.resolution?
    let progress :=
      match left, findings.remaining with
      | [], [] => .resolved findings.resolved
      | left, _ => .open left findings
    (s.setBatch ⟨id, stamp, keys, progress⟩).record c.samples
  | _ => s

/-- Takes the authority's answer to the question of a batch. -/
def answer (s : Service) (id : Nat) (result : Except QueryFault ConfigsResponse) : Service :=
  match s.batch? id with
  | some ⟨id, stamp, keys, .open [] findings⟩ =>
    (s.setBatch ⟨id, stamp, keys, .resolved (findings.answered result)⟩).record
      (answerSamples (answersOf findings.remaining result))
  | _ => s

/-- Lets a batch break down that is not over yet. -/
def lose (s : Service) (id : Nat) : Service :=
  match s.batch? id with
  | some ⟨id, stamp, keys, .open _ _⟩ => s.setBatch ⟨id, stamp, keys, .lost⟩
  | _ => s

/-- Takes the authority's answer about the global configuration. What is known stays when
there is none. -/
def learnGlobal (s : Service) (result : Except QueryFault ConfigsResponse) : Service :=
  let counted (result : String) := s.record [⟨.globalFetch, [("result", result)], 1⟩]
  match result with
  | .ok response =>
    match response.globalConfig? with
    | some config => { counted "ready" with global := some config }
    | none => counted "pending"
  | .error _ => counted "failed"

end Service

end AdmissionCache
