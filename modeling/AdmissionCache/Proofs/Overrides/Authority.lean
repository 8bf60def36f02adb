import AdmissionCache.Proofs.Overrides.Changes
import AdmissionCache.Proofs.Service.Evidence

namespace AdmissionCache

/-- Whether knowledge says nothing else than a configuration. -/
def Knowledge.Agrees (config : ProjectConfig) : Knowledge → Prop
  | .nothing => True
  | .missing _ => False
  | .loaded c _ => c.same config = true

theorem Knowledge.Agrees.trans {config other : ProjectConfig} {k : Knowledge} (agrees : k.Agrees config)
    (same : config.same other = true) : k.Agrees other := by
  cases k with
  | nothing => trivial
  | missing checkedAt => exact agrees
  | loaded c fetchedAt => exact ProjectConfig.same_trans agrees same

theorem Knowledge.Agrees.read {config : ProjectConfig} {k : Knowledge} {p : Policy} {now : Instant} {d : Decision}
    {wants : Bool} (agrees : k.Agrees config) (read : k.read p now = .ok ⟨d, wants⟩) :
    d ≠ .notFound ∧ ∀ c, d.config? = some c → c.same config = true := by
  cases k with
  | nothing =>
    cases read
    refine ⟨fun same => ?_, fun c used => ?_⟩
    · cases same
    · cases used
  | missing checkedAt => exact agrees.elim
  | loaded c fetchedAt =>
    rw [Knowledge.read] at read
    cases classified : p.classify fetchedAt now with
    | error e => rw [classified] at read; cases read
    | ok freshness =>
      rw [classified] at read
      cases freshness with
      | fresh =>
        cases read
        refine ⟨fun same => ?_, fun c used => ?_⟩
        · cases same
        · cases used
          exact agrees
      | stale =>
        cases read
        refine ⟨fun same => ?_, fun c used => ?_⟩
        · cases same
        · cases used
          exact agrees
      | expired =>
        cases read
        refine ⟨fun same => ?_, fun c used => ?_⟩
        · cases same
        · cases used

theorem Knowledge.after_config (stamp : Instant) (c : ProjectConfig) (k : Knowledge) :
    k.after stamp (.config c) = k ∨ k.after stamp (.config c) = .loaded c stamp ∧
      ∀ learnedAt, k.learnedAt? = some learnedAt → learnedAt.nanos ≤ stamp.nanos := by
  unfold Knowledge.after
  cases settled : k.settle stamp ((Resolution.config c).lesson stamp) with
  | none => exact Or.inl rfl
  | some learned =>
    obtain ⟨lesson, notLater⟩ := Knowledge.settle_eq_some settled
    cases lesson
    exact Or.inr ⟨rfl, notLater⟩

namespace Batch

/-- Whether a batch was sent before the knowledge about a key was learned. -/
def Outdated (b : Batch) (k : Knowledge) : Prop :=
  ∃ learnedAt, k.learnedAt? = some learnedAt ∧ b.stamp.nanos < learnedAt.nanos

/-- Whether a batch says nothing else about a key than a configuration, and will not ask
the authority about it. -/
def Agrees (b : Batch) (key : ProjectKey) (config : ProjectConfig) : Prop :=
  (∀ r, (key, r) ∈ b.found → ∃ c, r = .config c ∧ c.same config = true) ∧ key ∉ b.toAsk.map (·.1)

theorem agrees_iff {b : Batch} {key : ProjectKey} {config : ProjectConfig} :
    b.Agrees key config ↔ b.OnlyFinds key fun r => ∃ c, r = .config c ∧ c.same config = true := .rfl

theorem Agrees.trans {b : Batch} {key : ProjectKey} {config other : ProjectConfig} (agrees : b.Agrees key config)
    (same : config.same other = true) : b.Agrees key other := by
  refine ⟨fun r inside => ?_, agrees.2⟩
  obtain ⟨c, told, agreed⟩ := agrees.1 r inside
  exact ⟨c, told, ProjectConfig.same_trans agreed same⟩

end Batch

/-- Whether the clock advances between two entries, if the first sends a batch and the
second changes an override. -/
def Entry.precedes : Entry → Entry → Bool
  | .sent _ stamp _, .overridden _ _ now => stamp.nanos < now.nanos
  | _, _ => true

/-- The clock advances between every dispatch of a batch and the later changes of overrides. -/
def StrictlyClocked (log : List Entry) : Prop :=
  log.Pairwise fun earlier later => earlier.precedes later = true

instance (log : List Entry) : Decidable (StrictlyClocked log) :=
  inferInstanceAs (Decidable (List.Pairwise _ _))

namespace Service

/-- The override of a key in the snapshot that is in use. -/
def override? (s : Service) (key : ProjectKey) : Option ProjectConfig := s.overrides.bind (·.get? key)

/-- Whether an override has authority over its key. -/
structure Ruled (s : Service) (key : ProjectKey) (config : ProjectConfig) : Prop where
  known : (s.cache.knows key).Agrees config
  batches : s.status = .running → ∀ b ∈ s.batches, key ∈ b.keys →
    b.Outdated (s.cache.knows key) ∨ b.Agrees key config

structure Authoritative (s : Service) : Prop where
  self : ∀ key config, s.override? key = some config → config.same config = true
  ruled : ∀ key config, s.override? key = some config → s.Ruled key config

section Ruled
variable {s s' : Service} {key : ProjectKey} {config : ProjectConfig} {b : Batch}

theorem consult_override (content : StoreContent) {asked : AskedKey} (held : s.override? asked.1 = some config) :
    ((s.nearSources content).consult asked).resolution? = some (.config config) := by
  have near : (s.nearSources content).overrides.bind (·.get? asked.1) = some config := held
  rw [NearSources.consult, near]

theorem Ruled.congr (ruled : s.Ruled key config) (knows : s'.cache.knows key = s.cache.knows key)
    (running : s'.status = .running → s.status = .running)
    (batches : ∀ b ∈ s'.batches, b ∈ s.batches) : s'.Ruled key config := by
  refine ⟨by rw [knows]; exact ruled.known, fun alive b member own => ?_⟩
  rw [knows]
  exact ruled.batches (running alive) b (batches b member) own

theorem Ruled.started (ruled : s.Ruled key config) {now : Instant} {pieces : List (List ProjectKey)}
    {started : List Batch} (running : s.status = .running) (all : Started s now pieces started s') :
    s'.Ruled key config := by
  obtain ⟨_, _, after⟩ := all.rest
  have cache : s'.cache = s.cache := by rw [after]
  refine ⟨by rw [cache]; exact ruled.known, fun _ b member own => ?_⟩
  rw [cache]
  rw [all.batches] at member
  rcases List.mem_append.mp member with old | recent
  · exact ruled.batches running b old own
  · obtain ⟨_, _, asked, _, progress⟩ := all.fresh b recent
    exact Or.inr (Batch.agrees_iff.mpr (.of_unstarted progress))

/-- A batch that goes on keeps its stamp, and does not cease to agree. -/
theorem Ruled.goOn (ruled : s.Ruled key config) (b' : Batch) (member : b ∈ s.batches)
    (agrees : b.Agrees key config → b'.Agrees key config) (stamp : b'.stamp = b.stamp)
    (keys : b'.keys = b.keys) : (s.setBatch b').Ruled key config := by
  refine ⟨ruled.known, fun running other inside own => ?_⟩
  rcases mem_setBatch inside with rfl | ⟨old, _⟩
  · rw [keys] at own
    rcases ruled.batches running b member own with ⟨learnedAt, known, later⟩ | before
    · exact Or.inl ⟨learnedAt, known, by rw [stamp]; exact later⟩
    · exact Or.inr (agrees before)
  · exact ruled.batches running other old own

theorem Ruled.applied (ruled : s.Ruled key config) (orderly : s.Orderly) (running : s.status = .running)
    (member : b ∈ s.batches) {resolutions : List Resolved} (progress : b.progress = .resolved resolutions)
    (now : Instant) :
    ((s.dropBatch b.id).applyAll b.stamp now resolutions).Ruled key config := by
  have left : ∀ other ∈ ((s.dropBatch b.id).applyAll b.stamp now resolutions).batches, other ∈ s.batches := by
    intro other inside
    rw [batches_applyAll] at inside
    exact mem_dropBatch inside
  by_cases own : key ∈ resolutions.map (·.1)
  · have inKeys := (orderly.resolved member progress).mem_iff.mp own
    obtain ⟨⟨k, r⟩, inside, rfl⟩ := List.mem_map.mp own
    have distinct := (orderly.resolved member progress).nodup_iff.mpr (orderly.distinct b member)
    obtain ⟨knows, _⟩ := applyAll_own (s := s.dropBatch b.id) b.id b.stamp now distinct inside
    rw [cache_dropBatch] at knows
    rcases ruled.batches running b member inKeys with ⟨learnedAt, known, later⟩ | ⟨found, _⟩
    · have kept : (s.cache.knows k).after b.stamp r = s.cache.knows k := by
        rw [Knowledge.after, Knowledge.settle_of_later known later, Option.getD_none]
      exact ruled.congr (knows.trans kept) (fun _ => running) left
    · rw [Batch.found, progress] at found
      obtain ⟨c, rfl, same⟩ := found r inside
      rcases (s.cache.knows k).after_config b.stamp c with kept | ⟨loaded, notLater⟩
      · exact ruled.congr (knows.trans kept) (fun _ => running) left
      · rw [loaded] at knows
        refine ⟨by rw [knows]; exact same, fun _ other inside own => ?_⟩
        rw [knows]
        rcases ruled.batches running other (left other inside) own with ⟨learnedAt, known, later⟩ | agrees
        · have bound := notLater learnedAt known
          exact Or.inl ⟨b.stamp, rfl, by omega⟩
        · exact Or.inr agrees
  · obtain ⟨knows, _⟩ := applyAll_other (s := s.dropBatch b.id) b.id b.stamp now own
    exact ruled.congr knows (fun _ => running) left

/-- A sweep forgets no override that a batch could still contradict: a key with a batch is
in flight. -/
theorem Ruled.swept (ruled : s.Ruled key config) (owned : s.Owned) (running : s.status = .running)
    {now : Instant} {cache : Cache} (swept : Cache.Swept s.cache now cache) (status : WorkerStatus)
    (samples : List Sample) : ({ s with cache, status, samples } : Service).Ruled key config := by
  rcases swept.knows key with kept | ⟨forgotten, unmarked, _⟩
  · exact ruled.congr kept (fun _ => running) fun _ member => member
  · refine ⟨?_, fun _ b member own => ?_⟩
    · change (cache.knows key).Agrees config
      rw [forgotten]
      trivial
    · exact absurd own (owned.not_mem_keys running unmarked member)

theorem ruled_reloaded {previous next : Snapshot} {directory : Directory} {changes : OverrideChanges}
    {now : Instant} {log : List Entry} (authoritative : s.Authoritative) (recorded : Recorded log s)
    (clocked : StrictlyClocked (log ++ OverrideChanges.entries changes now)) (loaded : s.overrides = some previous)
    (reloaded : previous.reload directory = .ok (next, changes)) (held : next.get? key = some config)
    (samples : List Sample) :
    ({ s with overrides := some next, cache := install s.cache changes now, samples } :
      Service).Ruled key config := by
  obtain ⟨scanned, rfl⟩ := Snapshot.reload_eq_ok reloaded
  have kept : key ∉ (OverrideChanges.between previous next).removed := fun inside => by
    rw [Snapshot.mem_removed_iff, held] at inside
    cases inside.2
  have knows := knows_install s.cache now (.between previous next) key
  rw [if_neg kept, Snapshot.get?_updated held] at knows
  by_cases holds : previous.holds key config = true
  · rw [if_pos holds, Option.elim_none] at knows
    obtain ⟨before, found, same⟩ := (Option.any_eq_true ..).mp holds
    have old : s.override? key = some before := by rw [override?, loaded, Option.bind_some, found]
    refine ⟨?_, fun running b member own => ?_⟩
    · change ((install s.cache _ now).knows key).Agrees config
      rw [knows]
      exact (authoritative.ruled key before old).known.trans same
    · change b.Outdated ((install s.cache _ now).knows key) ∨ _
      rw [knows]
      exact ((authoritative.ruled key before old).batches running b member own).imp_right fun agrees =>
        agrees.trans same
  · rw [if_neg holds, Option.elim_some] at knows
    have updated : .overridden key config now ∈ OverrideChanges.entries (.between previous next) now := by
      refine List.mem_append_left _ (List.mem_map.mpr ⟨(key, config), ?_, rfl⟩)
      rw [KeyMap.mem_toList_iff, Snapshot.get?_updated held, if_neg holds]
    refine ⟨?_, fun _ b member _ => ?_⟩
    · change ((install s.cache _ now).knows key).Agrees config
      rw [knows]
      exact Snapshot.sound_of_scan scanned _ _ held
    · left
      refine ⟨now, ?_, ?_⟩
      · change ((install s.cache _ now).knows key).learnedAt? = some now
        rw [knows]
        rfl
      · have sent := recorded.sent b member
        exact of_decide_eq_true ((List.pairwise_append.mp clocked).2.2 _ sent _ updated)

end Ruled

namespace Authoritative
variable {log new : List Entry} {s s' : Service} {e : Event}

theorem congr (authoritative : s.Authoritative) (overrides : s'.overrides = s.overrides)
    (ruled : ∀ key config, s.override? key = some config → s.Ruled key config → s'.Ruled key config) :
    s'.Authoritative := by
  have same (key : ProjectKey) : s'.override? key = s.override? key := by
    rw [override?, override?, overrides]
  refine ⟨fun key config held => ?_, fun key config held => ?_⟩
  · rw [same] at held
    exact authoritative.self key config held
  · rw [same] at held
    exact ruled key config held (authoritative.ruled key config held)

theorem move (authoritative : s.Authoritative) (owned : s.Owned) (recorded : Recorded log s)
    (move : Move s e new s') (clocked : StrictlyClocked (log ++ new)) : s'.Authoritative := by
  have lasting {t : Service} (overrides : t.overrides = s.overrides)
      (knows : ∀ key, t.cache.knows key = s.cache.knows key)
      (running : t.status = .running → s.status = .running) (batches : ∀ b ∈ t.batches, b ∈ s.batches) :
      t.Authoritative :=
    authoritative.congr overrides fun key _ _ ruled => ruled.congr (knows key) running batches
  cases move with
  | claimed got _ => exact lasting rfl (Cache.get_looked got).knows id fun _ member => member
  | looked got _ _ => exact lasting rfl (Cache.get_looked got).knows id fun _ member => member
  | freed _ _ => exact lasting rfl (fun key => Cache.knows_fail ..) id fun _ member => member
  | dispatched running _ all =>
    obtain ⟨_, _, after⟩ := all.rest
    refine authoritative.congr (by rw [after]) fun key config _ ruled => ?_
    have emptied : ({ s with queued := ∅ } : Service).Ruled key config :=
      ruled.congr rfl id fun _ member => member
    exact emptied.started running all
  | @consulted _ content b asked left findings _ found progress =>
    refine authoritative.congr rfl fun key config held ruled => ?_
    have overridden (own : asked.1 = key) : ((s.nearSources content).consult asked).resolution? =
        some (.config config) := consult_override content (own ▸ held)
    have onward := ruled.goOn _ (mem_of_batch? found).1
      (fun agrees => Batch.agrees_iff.mpr ((Batch.agrees_iff.mp agrees).consulted progress fun own =>
        ⟨_, overridden own, config, rfl, authoritative.self key config held⟩)) rfl rfl
    exact onward.congr rfl id fun _ member => member
  | @answered _ result b findings _ found progress =>
    refine authoritative.congr rfl fun key config _ ruled => ?_
    have onward := ruled.goOn _ (mem_of_batch? found).1
      (fun agrees => Batch.agrees_iff.mpr ((Batch.agrees_iff.mp agrees).answered progress result)) rfl rfl
    exact onward.congr rfl id fun _ member => member
  | @lost _ b _ _ found _ =>
    refine authoritative.congr rfl fun key config _ ruled => ?_
    refine ruled.goOn _ (mem_of_batch? found).1 (fun _ => ?_) rfl rfl
    constructor
    · intro r inside
      cases inside
    · exact List.not_mem_nil
  | @applied _ now b resolutions running found progress =>
    obtain ⟨_, _, _, _, after⟩ := applyAll_eq (s.dropBatch b.id) b.stamp now resolutions
    refine authoritative.congr (by rw [after]; rfl) fun key config _ ruled => ?_
    exact ruled.applied owned.orderly running (mem_of_batch? found).1 progress now
  | @released _ now b running found _ =>
    obtain ⟨_, _, after⟩ := releaseAll_eq (s.dropBatch b.id) b.keys
    refine lasting (by rw [after]; rfl) (fun key => knows_releaseAll ..) (fun _ => running) fun other member => ?_
    rw [batches_releaseAll] at member
    exact mem_dropBatch member
  | reloaded _ loaded reloaded =>
    refine ⟨fun key config held => ?_, fun key config held => ?_⟩
    · exact Snapshot.sound_of_scan (Snapshot.reload_eq_ok reloaded).1 _ _ held
    · exact ruled_reloaded authoritative recorded clocked loaded reloaded held _
  | swept running gone =>
    exact authoritative.congr rfl fun key config _ ruled =>
      ruled.swept owned running (Cache.evictExpired_swept gone) _ _
  | queued running _ => exact lasting rfl (fun _ => rfl) (fun _ => running) fun _ member => member
  | stopTaken running _ => exact lasting rfl (fun _ => rfl) (fun _ => running) fun _ member => member
  | abandoned running => exact lasting rfl (fun _ => rfl) (fun _ => running) fun _ member => member
  | unparted running _ => exact lasting rfl (fun _ => rfl) (fun _ => running) fun _ member => member
  | unswept running _ =>
    exact authoritative.congr rfl fun key config _ ruled =>
      ruled.swept owned running (Cache.abandonSweep_swept ..) _ _
  | crashed running => exact lasting rfl (fun _ => rfl) (fun _ => running) fun _ member => member
  | vanished _ => exact lasting rfl (fun _ => rfl) nofun fun _ member => member
  | _ => exact lasting rfl (fun _ => rfl) id fun _ member => member

end Authoritative

theorem start_authoritative (policy : Policy) (settings : ServiceSettings) (withOverrides : Bool) :
    (start policy settings withOverrides).Authoritative := by
  have none (key : ProjectKey) : (start policy settings withOverrides).override? key = none := by
    cases withOverrides <;> rfl
  refine ⟨fun key config held => ?_, fun key config held => ?_⟩
  · rw [none] at held
    cases held
  · rw [none] at held
    cases held

/-- As long as an override exists, a lookup of its key never reports the project missing,
and no configuration but that of the override is used. -/
theorem override_has_authority (policy : Policy) (settings : ServiceSettings) (withOverrides : Bool)
    (events : List Event) (clocked : StrictlyClocked ((start policy settings withOverrides).chronicle events))
    (key : ProjectKey) (config : ProjectConfig)
    (held : ((start policy settings withOverrides).run events).override? key = some config) (purpose : Purpose)
    (t : Instant) (s' : Service) (d : Decision)
    (looked : ((start policy settings withOverrides).run events).look purpose key t = .ok (s', d)) :
    d ≠ .notFound ∧ ∀ c, d.config? = some c → c.same config = true := by
  let Kept (log : List Entry) (s : Service) : Prop :=
    Faithful policy log s ∧ (StrictlyClocked log → s.Authoritative)
  have next : ∀ log s, ∀ e ∈ events, Kept log s → Kept (log ++ s.entries e) (s.step e) := by
    rintro log s e _ ⟨faithful, authoritative⟩
    have moved := s.step_move e
    refine ⟨faithful.move moved, fun clocked => ?_⟩
    exact (authoritative (List.pairwise_append.mp clocked).1).move faithful.owned faithful.recorded moved clocked
  have first : Kept [] (start policy settings withOverrides) :=
    ⟨start_faithful .., fun _ => start_authoritative ..⟩
  have kept := run_induction next first
  rw [List.nil_append] at kept
  have known := ((kept.2 clocked).ruled key config held).known
  obtain ⟨wants, read⟩ := look_read looked
  exact known.read read

theorem override_outlasts_earlier_batch :
    let events := [.look .lookup "a" .origin, .advance 0, .receive, .dispatch .origin,
      .consult 0 fun _ => .ok none, .answer 0 (.ok {}),
      .reload (.entries [⟨"a.json".toUTF8.toList, some "\x7b\x7d".toUTF8.toList⟩]) (.ofMillis 1),
      .complete 0 (.ofMillis 2)]
    let s := (start ⟨.ofSecs 60, .zero, .ofSecs 10⟩ { batchSize := 10, queryTimeout := .ofSecs 30 } true).run events
    ∃ config s' d, s.override? "a" = some config ∧ s.look .lookup "a" (.ofMillis 5) = .ok (s', d) ∧
      d ≠ .notFound ∧ ∀ c, d.config? = some c → c.same config = true := by
  intro events s
  have held : (s.override? "a").isSome = true := by decide +kernel
  have looked : (s.look .lookup "a" (.ofMillis 5)).isOk = true := by decide +kernel
  obtain ⟨config, held⟩ := Option.isSome_iff_exists.mp held
  cases answer : s.look .lookup "a" (.ofMillis 5) with
  | error e => rw [answer] at looked; cases looked
  | ok result =>
    exact ⟨config, result.1, result.2, held, rfl,
      override_has_authority _ _ _ _ (by decide +kernel) _ _ held _ _ _ _ answer⟩

end Service

end AdmissionCache
