import AdmissionCache.Proofs.Service.Completion
import Mathlib.Data.List.Permutation

namespace AdmissionCache

/-- What is held about one key: its slot, whether it is queued, and since when it is pending. -/
structure Account where
  slot? : Option Slot
  queued : Bool
  pendingSince? : Option Instant

/-- What a batch brings for one of its keys: the resolution, with the instant of the dispatch and
the one at which it is applied. -/
structure Delivery where
  key : ProjectKey
  resolution : Resolution
  stamp : Instant
  now : Instant

namespace Account

/-- The fetch of the key is over and has taught nothing. -/
def released (a : Account) : Account :=
  { a with slot? := a.slot?.map ({ · with inFlight := false }), pendingSince? := none }

/-- The fetch of the key is over, and what it found is put to the slot. -/
def taught (a : Account) (stamp : Instant) (r : Resolution) : Account :=
  { a with slot? := some ((a.slot?.getD {}).complete stamp (r.lesson stamp)).1, pendingSince? := none }

/-- What a delivery makes of what is held about its key. -/
def settle (timeout : Duration) (a : Account) (d : Delivery) : Account :=
  match d.resolution with
  | .pending =>
    let since := a.pendingSince?.getD d.stamp
    if (d.now.since since).nanos < timeout.nanos then { a with queued := true, pendingSince? := some since }
    else a.released
  | .failed => a.released
  | r => a.taught d.stamp r

/-- Takes a delivery that may be for another key. -/
def receive (timeout : Duration) (key : ProjectKey) (a : Account) (d : Delivery) : Account :=
  if key = d.key then a.settle timeout d else a

section Receive
variable (timeout : Duration) (key : ProjectKey) (a : Account)

/-- Deliveries for different keys do not get in each other's way. -/
theorem receive_comm {d e : Delivery} (differ : d.key ≠ e.key) :
    (a.receive timeout key d).receive timeout key e = (a.receive timeout key e).receive timeout key d := by
  by_cases first : key = d.key
  · have second : ¬ key = e.key := first ▸ differ
    simp only [receive, if_neg second]
  · simp only [receive, if_neg first]

theorem receive_perm {ds es : List Delivery} (same : ds.Perm es) (distinct : (ds.map (·.key)).Nodup) :
    ds.foldl (receive timeout key) a = es.foldl (receive timeout key) a := by
  refine same.foldl_eq' (fun d inside e inside' b => ?_) a
  by_cases one : d.key = e.key
  · rw [List.inj_on_of_nodup_map distinct inside inside' one]
  · exact receive_comm timeout key b one

end Receive

end Account

/-- What a batch brings when it is completed. One that broke down brings a failure for every key. -/
def Batch.deliveries (b : Batch) (now : Instant) : List Delivery :=
  match b.progress with
  | .open _ _ => []
  | .resolved resolutions => resolutions.map fun r => ⟨r.1, r.2, b.stamp, now⟩
  | .lost => b.keys.map fun key => ⟨key, .failed, b.stamp, now⟩

namespace Service

def account (s : Service) (key : ProjectKey) : Account :=
  ⟨s.cache.slot? key, s.queued.contains key, s.pendingSince.get? key⟩

/-- Applies what was delivered for a key. -/
def deliver (s : Service) (d : Delivery) : Service := s.apply d.stamp d.now (d.key, d.resolution)

/-- Completes batches one after the other. -/
def completeAll (s : Service) (completions : List (Nat × Instant)) : Service :=
  s.run (completions.map fun c => .complete c.1 c.2)

/-- All that is delivered by the completion of batches one after the other. -/
def deliveries (s : Service) : List (Nat × Instant) → List Delivery
  | [] => []
  | (id, now) :: rest =>
    ((s.batch? id).map (·.deliveries now)).getD [] ++ (s.step (.complete id now)).deliveries rest

/-- Two services that hold the same about every key. -/
theorem eq_of_account {s s' : Service} (policy : s.cache.policy = s'.cache.policy)
    (same : ∀ key, s.account key = s'.account key) :
    s.cache = s'.cache ∧ s.queued = s'.queued ∧ s.pendingSince = s'.pendingSince := by
  have slots : s.cache.slots = s'.cache.slots := KeyMap.ext_get? fun key => congrArg Account.slot? (same key)
  refine ⟨?_, KeySet.ext_contains fun key => congrArg Account.queued (same key),
    KeyMap.ext_get? fun key => congrArg Account.pendingSince? (same key)⟩
  calc s.cache
    _ = ⟨s.cache.policy, s.cache.slots⟩ := rfl
    _ = ⟨s'.cache.policy, s'.cache.slots⟩ := by rw [policy, slots]

section Deliver
variable (s : Service) (k key : ProjectKey)

theorem account_taught (stamp : Instant) (r : Resolution) :
    ({ s with
      pendingSince := s.pendingSince.erase k
      cache := (s.cache.complete k stamp (r.lesson stamp)).1 } : Service).account key =
      if key = k then (s.account key).taught stamp r else s.account key := by
  simp only [account, Cache.slot?_complete, KeyMap.get?_erase]
  split
  · rename_i own
    rw [own]
    rfl
  · rfl

theorem account_release :
    (s.release k).account key = if key = k then (s.account key).released else s.account key := by
  simp only [release, giveUp, account, Cache.slot?_fail, KeyMap.get?_erase]
  split
  · rename_i own
    rw [own]
    rfl
  · rfl

theorem account_applyPending (stamp now : Instant) :
    (s.applyPending stamp now k).account key =
      (s.account key).receive s.settings.queryTimeout key ⟨k, .pending, stamp, now⟩ := by
  simp only [applyPending, Account.receive]
  by_cases own : key = k
  · subst own
    rw [if_pos rfl]
    simp only [Account.settle]
    split
    · rename_i early
      refine Eq.trans ?_ (if_pos early).symm
      simp only [account, KeySet.contains_insert, KeyMap.get?_insert_self, decide_true, Bool.true_or]
    · rename_i late
      refine Eq.trans ?_ (if_neg late).symm
      exact (account_release s key key).trans (if_pos rfl)
  · rw [if_neg own]
    split
    · simp only [account, KeySet.contains_insert, KeyMap.get?_insert_of_ne _ own, decide_eq_false own,
        Bool.false_or]
    · exact (account_release s k key).trans (if_neg own)

/-- What is delivered for a key only changes what is held about that key. -/
theorem account_deliver (d : Delivery) :
    (s.deliver d).account key = (s.account key).receive s.settings.queryTimeout key d := by
  obtain ⟨k, resolution, stamp, now⟩ := d
  cases resolution with
  | config config => exact account_taught s k key stamp (.config config)
  | unchanged revision =>
    simp only [deliver, apply, Cache.refresh_eq]
    exact account_taught s k key stamp (.unchanged revision)
  | notFound => exact account_taught s k key stamp .notFound
  | pending => exact account_applyPending s k key stamp now
  | failed => exact account_release s k key

end Deliver

section Runs
variable {s : Service}

theorem deliver_eq (s : Service) (d : Delivery) :
    ∃ cache queued pendingSince samples, s.deliver d = { s with cache, queued, pendingSince, samples } :=
  s.apply_eq ..

theorem account_foldl_deliver (s : Service) (ds : List Delivery) (key : ProjectKey) :
    (ds.foldl deliver s).account key =
      ds.foldl (Account.receive s.settings.queryTimeout key) (s.account key) := by
  induction ds generalizing s with
  | nil => rfl
  | cons d rest ih =>
    obtain ⟨_, _, _, _, after⟩ := s.deliver_eq d
    have settings : (s.deliver d).settings = s.settings := by rw [after]
    rw [List.foldl_cons, List.foldl_cons, ih, settings, account_deliver]

/-- A completion delivers what its batch brings. -/
theorem account_complete (s : Service) (id : Nat) (now : Instant) (key : ProjectKey) :
    (s.complete id now).account key =
      (((s.batch? id).map (·.deliveries now)).getD []).foldl (Account.receive s.settings.queryTimeout key)
        (s.account key) := by
  unfold complete
  cases s.batch? id with
  | none => rfl
  | some b =>
    have after (ds : List Delivery) := account_foldl_deliver (s.dropBatch id) ds key
    simp only [Option.map_some, Option.getD_some, Batch.deliveries]
    cases b.progress with
    | «open» left findings => rfl
    | resolved resolutions =>
      refine Eq.trans ?_ (after _)
      rw [List.foldl_map]
      rfl
    | lost =>
      refine Eq.trans ?_ (after _)
      rw [List.foldl_map]
      rfl

theorem status_complete (s : Service) (id : Nat) (now : Instant) : (s.complete id now).status = s.status := by
  unfold complete
  split
  · rfl
  · split
    · rfl
    · exact status_applyAll ..
    · exact status_releaseAll ..

/-- What a run of completions makes of what is held about a key is decided by what is delivered. -/
theorem account_completeAll (running : s.status = .running) (completions : List (Nat × Instant)) (key : ProjectKey) :
    (s.completeAll completions).account key =
      (s.deliveries completions).foldl (Account.receive s.settings.queryTimeout key) (s.account key) := by
  induction completions generalizing s with
  | nil => rfl
  | cons c rest ih =>
    obtain ⟨id, now⟩ := c
    have completed : s.step (.complete id now) = s.complete id now := by
      rw [step, whileRunning_of_running running]
    have settings : (s.step (.complete id now)).settings = s.settings := (s.step_move _).settings
    have onward : s.completeAll ((id, now) :: rest) = (s.step (.complete id now)).completeAll rest := rfl
    rw [onward, ih (by rw [completed, status_complete, running]), deliveries, List.foldl_append, settings, completed,
      account_complete]

/-- The order of completions does not matter, nor how the keys are parted into batches: what counts is
what is delivered for each key. -/
theorem completeAll_perm {s₁ s₂ : Service} {completions₁ completions₂ : List (Nat × Instant)}
    (running₁ : s₁.status = .running) (running₂ : s₂.status = .running)
    (timeout : s₁.settings.queryTimeout = s₂.settings.queryTimeout) (policy : s₁.cache.policy = s₂.cache.policy)
    (accounts : ∀ key, s₁.account key = s₂.account key)
    (same : (s₁.deliveries completions₁).Perm (s₂.deliveries completions₂))
    (distinct : ((s₁.deliveries completions₁).map (·.key)).Nodup) :
    let s₁' := s₁.completeAll completions₁
    let s₂' := s₂.completeAll completions₂
    s₁'.cache = s₂'.cache ∧ s₁'.queued = s₂'.queued ∧ s₁'.pendingSince = s₂'.pendingSince := by
  intro s₁' s₂'
  refine eq_of_account ?_ fun key => ?_
  · calc s₁'.cache.policy
      _ = s₁.cache.policy := run_policy ..
      _ = s₂.cache.policy := policy
      _ = s₂'.cache.policy := (run_policy ..).symm
  · rw [account_completeAll running₁, account_completeAll running₂, timeout, accounts]
    exact Account.receive_perm _ key _ same distinct

end Runs

/-- What a dispatch at `now` makes of the queued keys: they are parted into batches of the size that
the settings give. -/
structure Parted (s : Service) (now : Instant) (started : List Batch) (s' : Service) : Prop where
  emptied : s'.queued = ∅
  batches : s'.batches = s.batches ++ started
  kept : s'.cache = s.cache ∧ s'.pendingSince = s.pendingSince
  sizes : ∀ b ∈ started, b.keys ≠ [] ∧ b.keys.length ≤ s.settings.batchSize
  disjoint : started.Pairwise fun b b' => b.keys.Disjoint b'.keys
  asked : ∀ b ∈ started, b.stamp = now ∧ ∃ asked, b.progress = .open asked {} ∧ asked.map (·.1) = b.keys ∧
    ∀ a ∈ asked, s.cache.knownRevision a.1 now = .ok a.2
  ascending : (started.flatMap (·.keys)).Pairwise (· < ·)
  all : started.flatMap (·.keys) = s.queued.keys
  running : s'.status = .running

section Dispatch
variable {s s' : Service} {now : Instant} {started : List Batch}

theorem dispatch_started (running : s.status = .running) (positive : 0 < s.settings.batchSize) :
    ∃ started, Started { s with queued := ∅ } now (pieces s.settings.batchSize s.queued.keys) started
      (s.step (.dispatch now)) := by
  rw [step, whileRunning_of_running running, dispatch]
  split
  · rename_i empty
    have nothing : s.queued = ∅ := KeyMap.eq_empty_of_isEmpty empty
    have same : { s with queued := ∅ } = s := by rw [← nothing]
    rw [same, nothing, show pieces s.settings.batchSize (KeyMap.keys ∅) = [] from pieces_nil _]
    exact startBatches_started now [] s
  · rw [if_neg (Nat.ne_of_gt positive)]
    exact startBatches_started ..

theorem Started.parted (all : Started { s with queued := ∅ } now (pieces s.settings.batchSize s.queued.keys) started s')
    (running : s.status = .running) (positive : 0 < s.settings.batchSize)
    (told : ∀ key ∈ s.queued.keys, ∃ revision, s.cache.knownRevision key now = .ok revision) :
    Parted s now started s' := by
  obtain ⟨_, samples, rest⟩ := all.rest
  obtain ⟨keys, status⟩ : started.map (·.keys) = pieces s.settings.batchSize s.queued.keys ∧ s'.status = s.status := by
    rcases all.all with whole | ⟨_, keys, inside, e, failed⟩
    · exact whole
    · rcases askFor_cases _ now keys with ⟨asked, answered⟩ | ⟨key, member, _, untold⟩
      · rw [answered] at failed
        cases failed
      · obtain ⟨revision, known⟩ := told key ((sublist_of_mem_pieces inside).subset member)
        rw [known] at untold
        cases untold
  have whole : started.flatMap (·.keys) = s.queued.keys := by
    rw [List.flatMap_def, keys, flatten_pieces positive]
  have ascending : (started.flatMap (·.keys)).Pairwise (· < ·) := by
    rw [whole]
    exact List.pairwise_map.mpr s.queued.sorted
  refine ⟨by rw [rest], all.batches, ⟨by rw [rest], by rw [rest]⟩, fun b member => ?_, ?_, fun b member => ?_,
    ascending, whole, status.trans running⟩
  · obtain ⟨inside, _⟩ := all.fresh b member
    exact ⟨ne_nil_of_mem_pieces inside, length_le_of_mem_pieces inside⟩
  · refine (List.pairwise_flatMap.mp ascending).2.imp fun apart key here there => ?_
    exact String.lt_irrefl key (apart key here key there)
  · obtain ⟨_, stamp, asked, told, progress⟩ := all.fresh b member
    exact ⟨stamp, asked, progress, askFor_keys told, fun a inside => askFor_mem told inside⟩

end Dispatch

/-- Batching loses nothing if the revisions that are known for the queued keys can be told, as they
can be whenever the periods of the policy can be added; and nobody can tell afterwards how it was
done. -/
theorem batching_lossless_and_unobservable :
    (∀ (s : Service) (now : Instant), s.status = .running → 0 < s.settings.batchSize →
      (∀ key ∈ s.queued.keys, ∃ revision, s.cache.knownRevision key now = .ok revision) →
      ∃ started, Parted s now started (s.step (.dispatch now))) ∧
    (∀ (s : Service) (now : Instant), s.cache.policy.Bounded →
      ∀ key ∈ s.queued.keys, ∃ revision, s.cache.knownRevision key now = .ok revision) ∧
    ∀ (s₁ s₂ : Service) (completions₁ completions₂ : List (Nat × Instant)),
      s₁.status = .running → s₂.status = .running → s₁.settings.queryTimeout = s₂.settings.queryTimeout →
      s₁.cache = s₂.cache → s₁.queued = s₂.queued → s₁.pendingSince = s₂.pendingSince →
      (s₁.deliveries completions₁).Perm (s₂.deliveries completions₂) →
      ((s₁.deliveries completions₁).map (·.key)).Nodup →
      let s₁' := s₁.completeAll completions₁
      let s₂' := s₂.completeAll completions₂
      s₁'.cache = s₂'.cache ∧ s₁'.queued = s₂'.queued ∧ s₁'.pendingSince = s₂'.pendingSince := by
  refine ⟨fun s now running positive told => ?_,
    fun s now bounded key _ => Cache.knownRevision_eq_ok bounded key now, ?_⟩
  · obtain ⟨started, all⟩ := dispatch_started running positive
    exact ⟨started, all.parted running positive told⟩
  · intro s₁ s₂ completions₁ completions₂ running₁ running₂ timeout cache queued pendingSince same distinct
    refine completeAll_perm running₁ running₂ timeout (congrArg _ cache) (fun key => ?_) same distinct
    rw [account, account, cache, queued, pendingSince]

/-- A configuration is found for the first of three keys, the second is pending, and the third has no
project. Whether they go out in two batches or in three, and whichever is completed first, the outcome
is the same. -/
theorem two_batches_or_three :
    let asked (size : Nat) := (start ⟨.ofSecs 60, .zero, .ofSecs 10⟩ { batchSize := size, queryTimeout := .ofSecs 30 }
      false).run [.look .lookup "a" .origin, .look .lookup "b" .origin, .look .lookup "c" .origin, .advance 0,
        .advance 0, .advance 0, .receive, .receive, .receive]
    let response : ConfigsResponse := { configs := .ofList [("a", some (.object []))], pending := ["b"] }
    let silent : StoreContent := fun _ => .ok none
    let sent (size : Nat) := (asked size).run [.dispatch (.ofMillis 1), .consult 0 silent, .consult 0 silent,
      .consult 1 silent, .consult 2 silent, .answer 0 (.ok response), .answer 1 (.ok response), .answer 2 (.ok response)]
    let inTwo := (sent 2).completeAll [(1, .ofMillis 5), (0, .ofMillis 5)]
    let inThree := (sent 1).completeAll [(0, .ofMillis 5), (1, .ofMillis 5), (2, .ofMillis 5)]
    (asked 2).queued.keys = ["a", "b", "c"] ∧
      (∃ started, Parted (asked 2) (.ofMillis 1) started ((asked 2).step (.dispatch (.ofMillis 1)))) ∧
      inTwo.cache = inThree.cache ∧ inTwo.queued = inThree.queued ∧ inTwo.pendingSince = inThree.pendingSince ∧
      inTwo.queued.keys = ["b"] := by
  intro asked response silent sent inTwo inThree
  have inOrder : (sent 1).deliveries [(0, .ofMillis 5), (1, .ofMillis 5), (2, .ofMillis 5)] =
      [⟨"a", .config ⟨[]⟩, .ofMillis 1, .ofMillis 5⟩, ⟨"b", .pending, .ofMillis 1, .ofMillis 5⟩] ++
        [⟨"c", .notFound, .ofMillis 1, .ofMillis 5⟩] := by
    unfold sent asked response silent; cbv
  have lastFirst : (sent 2).deliveries [(1, .ofMillis 5), (0, .ofMillis 5)] =
      [⟨"c", .notFound, .ofMillis 1, .ofMillis 5⟩] ++
        [⟨"a", .config ⟨[]⟩, .ofMillis 1, .ofMillis 5⟩, ⟨"b", .pending, .ofMillis 1, .ofMillis 5⟩] := by
    unfold sent asked response silent; cbv
  obtain ⟨lossless, tellable, unobservable⟩ := batching_lossless_and_unobservable
  obtain ⟨cache, queued, pendingSince⟩ := unobservable (sent 2) (sent 1) [(1, .ofMillis 5), (0, .ofMillis 5)]
    [(0, .ofMillis 5), (1, .ofMillis 5), (2, .ofMillis 5)] (by decide +kernel) (by decide +kernel) (by decide +kernel)
    (by unfold sent asked response silent; cbv) (by decide +kernel) (by decide +kernel)
    (by rw [inOrder, lastFirst]; exact List.perm_append_comm) (by rw [lastFirst]; decide)
  have told := tellable (asked 2) (.ofMillis 1) (by decide +kernel)
  exact ⟨by decide +kernel, lossless _ _ (by decide +kernel) (by decide) told, cache, queued, pendingSince,
    by decide +kernel⟩

/-- An override is installed for a key that is queued already, and no batch is started until it is older
than its expiry. The periods of the policy cannot be added: the revision of the override cannot be told,
the worker breaks down, and both of the queued keys are lost. -/
theorem keys_lost_where_periods_overflow :
    let overridden : Directory := .entries [⟨"a.json".toUTF8.toList, some "\x7b\x7d".toUTF8.toList⟩]
    let s := (start ⟨.ofSecs 4096, .ofSecs 18446744073709549568, .ofSecs 10⟩
      { batchSize := 100, queryTimeout := .ofSecs 30 } true).run [.look .lookup "a" .origin,
        .look .lookup "b" .origin, .advance 0, .advance 0, .receive, .receive, .reload overridden (.ofMillis 1005)]
    let s' := s.step (.dispatch (.ofMillis 5000000))
    s.status = .running ∧ s.queued.keys = ["a", "b"] ∧
      (¬ ∃ started, Parted s (.ofMillis 5000000) started s') ∧
      s'.status = .crashed ∧ s'.queued.keys = [] ∧ s'.batches.isEmpty = true := by
  intro overridden s s'
  have crashed : s'.status = .crashed := by decide +kernel
  refine ⟨by decide +kernel, by decide +kernel, fun ⟨started, parted⟩ => ?_, crashed, by decide +kernel,
    by decide +kernel⟩
  have running := parted.running
  rw [crashed] at running
  cases running

end Service

end AdmissionCache
