import AdmissionCache.Proofs.Cache.Views
import AdmissionCache.Service.Event

namespace AdmissionCache

/-- One thing that happened to a key or a batch. What is applied is `taken` if it changed
what is known. -/
inductive Entry
  | sent (batch : Nat) (stamp : Instant) (keys : List ProjectKey)
  | told (batch : Nat) (key : ProjectKey) (resolution : Resolution) (source : SourceName)
  | applied (batch : Nat) (stamp : Instant) (key : ProjectKey) (resolution : Resolution) (taken : Bool)
  | released (batch : Nat) (key : ProjectKey)
  | overridden (key : ProjectKey) (config : ProjectConfig) (now : Instant)
  | withdrawn (key : ProjectKey)

namespace Entry

/-- Whether the entry says that something was applied to the cache for the key. -/
def touches (key : ProjectKey) : Entry → Bool
  | .sent .. => false
  | .told .. => false
  | .applied _ _ k _ _ => k = key
  | .released _ k => k = key
  | .overridden k _ _ => k = key
  | .withdrawn k => k = key

/-- Whether the entry says that what is known about the key was changed. -/
def changes (key : ProjectKey) : Entry → Bool
  | .sent .. => false
  | .told .. => false
  | .applied _ _ k _ taken => k = key && taken
  | .released .. => false
  | .overridden k _ _ => k = key
  | .withdrawn k => k = key

/-- The configuration that was delivered for the key, and the instant from which its age
counts. -/
def delivery? (key : ProjectKey) : Entry → Option (ProjectConfig × Instant)
  | .applied _ stamp k (.config config) true => if k = key then some (config, stamp) else none
  | .overridden k config now => if k = key then some (config, now) else none
  | _ => none

/-- The instant at which a batch was sent that found the key unchanged. -/
def renewal? (key : ProjectKey) : Entry → Option Instant
  | .applied _ stamp k (.unchanged _) true => if k = key then some stamp else none
  | _ => none

/-- Who told a batch about the key, if that is what the entry says. -/
def source? (key : ProjectKey) : Entry → Option SourceName
  | .told _ k _ source => if k = key then some source else none
  | _ => none

theorem touches_of_changes {key : ProjectKey} {e : Entry} (changed : e.changes key = true) :
    e.touches key = true := by
  cases e with
  | applied => exact (Bool.and_eq_true_iff.mp changed).1
  | overridden => exact changed
  | withdrawn => exact changed
  | _ => cases changed

theorem delivery_cases {e : Entry} {key : ProjectKey} {config : ProjectConfig} {f : Instant}
    (delivery : e.delivery? key = some (config, f)) :
    e = .overridden key config f ∨ ∃ batch, e = .applied batch f key (.config config) true := by
  unfold delivery? at delivery
  split at delivery
  · split at delivery
    · rename_i same
      cases delivery
      exact Or.inr ⟨_, by rw [same]⟩
    · cases delivery
  · split at delivery
    · rename_i same
      cases delivery
      exact Or.inl (by rw [same])
    · cases delivery
  · cases delivery

theorem renewal_cases {e : Entry} {key : ProjectKey} {renewed : Instant}
    (renewal : e.renewal? key = some renewed) :
    ∃ batch revision, e = .applied batch renewed key (.unchanged revision) true := by
  unfold renewal? at renewal
  split at renewal
  · split at renewal
    · rename_i same
      cases renewal
      exact ⟨_, _, by rw [same]⟩
    · cases renewal
  · cases renewal

end Entry

/-- What a batch teaches that was sent at `stamp`: the knowledge that its resolution of a
key would put in the place of what is known. -/
def Resolution.lesson (stamp : Instant) (r : Resolution) (k : Knowledge) : Option Knowledge :=
  match r, k with
  | .config c, _ => some (.loaded c stamp)
  | .unchanged revision, .loaded c _ =>
    if c.revision? = revision then some (.loaded c stamp) else none
  | .notFound, _ => some (.missing stamp)
  | _, _ => none

/-- Whether the resolution of a key is taken when it is applied. -/
def Cache.takes (c : Cache) (stamp : Instant) (r : Resolved) : Bool :=
  match r.2 with
  | .config config => (c.put r.1 config stamp).2
  | .unchanged revision => (c.refresh r.1 revision stamp).2
  | .notFound => (c.putMissing r.1 stamp).2
  | .pending => false
  | .failed => false

/-- The instants of events, and `t` after them, are in clock order. -/
def ClockOrder (events : List Event) (t : Instant) : Prop :=
  (events.filterMap Event.time? ++ [t]).Pairwise fun earlier later => earlier.nanos ≤ later.nanos

theorem ClockOrder.le {e : Event} {events : List Event} {now t : Instant} (order : ClockOrder (e :: events) t)
    (time : e.time? = some now) : now.nanos ≤ t.nanos := by
  rw [ClockOrder, List.filterMap_cons_some time, List.cons_append, List.pairwise_cons] at order
  exact order.1 t (List.mem_append_right _ (List.mem_singleton_self t))

theorem ClockOrder.since {e : Event} {events : List Event} {earlier t : Instant} (order : ClockOrder (e :: events) t)
    (time : e.time? = some earlier) : ∀ x ∈ events, ∀ now, x.time? = some now → earlier.nanos ≤ now.nanos := by
  rw [ClockOrder, List.filterMap_cons_some time, List.cons_append, List.pairwise_cons] at order
  intro x member now inside
  exact order.1 now (List.mem_append_left _ (List.mem_filterMap.mpr ⟨x, member, inside⟩))

/-- Every event of a run that is in clock order up to `t` goes by an instant up to `t`. -/
theorem ClockOrder.each_le {events : List Event} {t : Instant} (order : ClockOrder events t) :
    ∀ e ∈ events, ∀ now, e.time? = some now → now.nanos ≤ t.nanos := by
  intro e member now time
  have inside : now ∈ events.filterMap Event.time? := List.mem_filterMap.mpr ⟨e, member, time⟩
  exact (List.pairwise_append.mp order).2.2 now inside t (List.mem_singleton_self t)

theorem ClockOrder.suffix {earlier later : List Event} {t : Instant} (order : ClockOrder (earlier ++ later) t) :
    ClockOrder later t := by
  rw [ClockOrder, List.filterMap_append, List.append_assoc] at order
  exact (List.pairwise_append.mp order).2.1

theorem ClockOrder.tail {e : Event} {events : List Event} {t : Instant} (order : ClockOrder (e :: events) t) :
    ClockOrder events t := by
  rw [← List.singleton_append] at order
  exact order.suffix

/-- What comes before an event is in clock order up to its instant. -/
theorem ClockOrder.upTo {earlier later : List Event} {e : Event} {t now : Instant}
    (order : ClockOrder (earlier ++ e :: later) t) (time : e.time? = some now) : ClockOrder earlier now := by
  have parted : (earlier ++ e :: later).filterMap Event.time? ++ [t] =
      (earlier.filterMap Event.time? ++ [now]) ++ (later.filterMap Event.time? ++ [t]) := by
    rw [List.filterMap_append, List.filterMap_cons_some time, List.append_assoc, List.append_assoc,
      List.singleton_append, List.cons_append]
  rw [ClockOrder, parted] at order
  exact (List.pairwise_append.mp order).1

/-- What happens from `s` on comes after what happens up to `s`. -/
theorem ClockOrder.append {earlier later : List Event} {s t : Instant} (order : ClockOrder earlier s)
    (orderLater : ClockOrder later t) (le : s.nanos ≤ t.nanos)
    (since : ∀ e ∈ later, ∀ now, e.time? = some now → s.nanos ≤ now.nanos) : ClockOrder (earlier ++ later) t := by
  obtain ⟨before, -, upTo⟩ := List.pairwise_append.mp order
  rw [ClockOrder, List.filterMap_append, List.append_assoc]
  refine List.pairwise_append.mpr ⟨before, orderLater, fun a first b second => ?_⟩
  have first_le : a.nanos ≤ s.nanos := upTo a first s (List.mem_singleton_self s)
  rcases List.mem_append.mp second with inside | last
  · obtain ⟨e, inside, time⟩ := List.mem_filterMap.mp inside
    exact Nat.le_trans first_le (since e inside b time)
  · rw [List.mem_singleton.mp last]
    exact Nat.le_trans first_le le

/-- What happens at one instant is in clock order. -/
theorem clockOrder_of_same {events : List Event} {now : Instant}
    (same : ∀ e ∈ events, ∀ t, e.time? = some t → t = now) : ClockOrder events now := by
  have each : ∀ t ∈ events.filterMap Event.time? ++ [now], t = now := by
    intro t member
    rcases List.mem_append.mp member with inside | last
    · obtain ⟨e, inside, time⟩ := List.mem_filterMap.mp inside
      exact same e inside t time
    · exact List.mem_singleton.mp last
  refine List.pairwise_of_forall_mem_list fun a first b second => Nat.le_of_eq ?_
  rw [each a first, each b second]

namespace Service

/-- What the resolutions of a batch are noted as when they are applied one by one. -/
def applications (batch : Nat) (stamp now : Instant) : List Resolved → Service → List Entry
  | [], _ => []
  | r :: rest, s => .applied batch stamp r.1 r.2 (s.cache.takes stamp r) ::
      applications batch stamp now rest (s.apply stamp now r)

/-- The near source that answers for a key. -/
def nearSource (s : Service) (key : ProjectKey) : SourceName :=
  if (s.overrides.bind (·.get? key)).isSome then .overrides else .shared

/-- What a completion is noted as. -/
def completions (s : Service) (b : Batch) (now : Instant) : List Entry :=
  match b.progress with
  | .open _ _ => []
  | .resolved resolutions =>
    applications b.id b.stamp now resolutions (s.dropBatch b.id)
  | .lost => b.keys.map (.released b.id)

/-- What the changes of the overrides are noted as. -/
def OverrideChanges.entries (changes : OverrideChanges) (now : Instant) : List Entry :=
  changes.updated.toList.map (fun e => .overridden e.1 e.2 now) ++ changes.removed.map .withdrawn

/-- What an event adds to the chronicle. -/
def entries (s : Service) : Event → List Entry
  | .dispatch now =>
    ((s.step (.dispatch now)).batches.drop s.batches.length).map fun b => .sent b.id b.stamp b.keys
  | .consult id content =>
    match s.batch? id with
    | some ⟨_, _, _, .open (asked :: _) _⟩ =>
      ((s.nearSources content).consult asked).resolution?.toList.map fun r =>
        .told id asked.1 r (s.nearSource asked.1)
    | _ => []
  | .answer id result =>
    match s.batch? id with
    | some ⟨_, _, _, .open [] findings⟩ =>
      (answersOf findings.remaining result).map fun r => .told id r.1 r.2 .authority
    | _ => []
  | .complete id now =>
    if s.status = .running then (s.batch? id).elim [] fun b => s.completions b now else []
  | .reload directory now =>
    if s.status = .running then (s.overrides.elim [] fun previous =>
      (previous.reload directory).toOption.elim [] fun loaded => OverrideChanges.entries loaded.2 now)
    else []
  | _ => []

/-- The chronicle of a run. -/
def chronicle (s : Service) : List Event → List Entry
  | [] => []
  | e :: rest => s.entries e ++ (s.step e).chronicle rest

theorem chronicle_append (s : Service) (earlier later : List Event) :
    s.chronicle (earlier ++ later) = s.chronicle earlier ++ (s.run earlier).chronicle later := by
  induction earlier generalizing s with
  | nil => rfl
  | cons e rest ih =>
    rw [List.cons_append, chronicle, chronicle, ih, List.append_assoc]
    rfl

/-- What every event of a run keeps, as the chronicle grows, is kept by the run. -/
theorem run_induction {P : List Entry → Service → Prop} {events : List Event}
    (next : ∀ log s, ∀ e ∈ events, P log s → P (log ++ s.entries e) (s.step e)) {log : List Entry}
    {s : Service} (holds : P log s) : P (log ++ s.chronicle events) (s.run events) := by
  induction events generalizing log s with
  | nil => rw [chronicle, List.append_nil]; exact holds
  | cons e rest ih =>
    rw [chronicle, ← List.append_assoc]
    exact ih (fun log s e member => next log s e (List.mem_cons_of_mem _ member))
      (next log s e List.mem_cons_self holds)

end Service

end AdmissionCache
