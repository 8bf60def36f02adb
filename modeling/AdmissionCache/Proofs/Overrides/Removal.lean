import AdmissionCache.Proofs.Overrides.Changes
import AdmissionCache.Proofs.Service.Evidence
import AdmissionCache.Proofs.Service.Finishing

namespace AdmissionCache

def Resolution.config? : Resolution → Option ProjectConfig
  | .config c => some c
  | _ => none

/-- The configuration in use for a key was delivered after `earlier`, and only renewed since.
It is not what the overrides had told a batch before, unless a source has confirmed it. -/
def RestsElsewhere (earlier later : List Entry) (key : ProjectKey) (config : ProjectConfig) : Prop :=
  ∃ before e after delivered, later = before ++ e :: after ∧ e.delivery? key = some (config, delivered) ∧
    (∀ x ∈ after, x.changes key = true → (x.renewal? key).isSome = true) ∧
    ((∃ x ∈ after, (x.renewal? key).isSome = true) ∨ (∃ now, e = .overridden key config now) ∨
      ∃ batch stamp source, e = .applied batch stamp key (.config config) true ∧
        .told batch key (.config config) source ∈ earlier ++ before ∧
        .told batch key (.config config) .overrides ∉ earlier)

/-- What rests on a chronicle in which the key was withdrawn was delivered after that. -/
theorem RestsOn.after_withdrawal {log tail : List Entry} {key : ProjectKey} {config : ProjectConfig} {f : Instant}
    (rests : RestsOn (log ++ tail) key config f) (withdrawn : .withdrawn key ∈ tail) :
    ∃ between e after delivered, tail = between ++ e :: after ∧
      e.delivery? key = some (config, delivered) ∧
      (∀ x ∈ after, x.changes key = true → (x.renewal? key).isSome = true) ∧
      ((∃ x ∈ after, (x.renewal? key).isSome = true) ∨ f = delivered) := by
  obtain ⟨before, e, after, delivered, parted, delivery, renewals, ⟨reached, _⟩⟩ := rests
  have renewed : (∃ x ∈ after, (x.renewal? key).isSome = true) ∨ f = delivered := by
    rcases reached with first | ⟨x, member, _, renewal, _⟩
    · exact Or.inr (Instant.ext first)
    · exact Or.inl ⟨x, member, by rw [renewal]; rfl⟩
  rcases List.append_eq_append_iff.mp parted with ⟨between, _, same⟩ | ⟨between, _, same⟩
  · exact ⟨between, e, after, delivered, same, delivery, renewals, renewed⟩
  · cases between with
    | nil => exact ⟨[], e, after, delivered, same.symm, delivery, renewals, renewed⟩
    | cons first rest =>
      obtain ⟨_, later⟩ := List.cons.inj same
      have kept := renewals (.withdrawn key) (later ▸ List.mem_append_right _ withdrawn) (decide_eq_true rfl)
      cases kept

namespace Service

/-- The keys that a reload reports as removed. -/
def removedBy (s : Service) (directory : Directory) : List ProjectKey :=
  s.overrides.elim [] fun previous =>
    (previous.reload directory).toOption.elim [] fun loaded => loaded.2.removed

/-- Whatever happens after a removal, in clock order, a usable answer for the key rests on
something else. -/
def StaysRemoved (log : List Entry) (s : Service) (removal : Event) (key : ProjectKey) : Prop :=
  ∀ later purpose t s' d config, ClockOrder (removal :: later) t →
    (s.run (removal :: later)).look purpose key t = .ok (s', d) → d.config? = some config →
    RestsElsewhere log (s.chronicle (removal :: later)) key config

/-- What the overrides have told the batches in hand about the key may not be used at `now`. -/
def NoneUsable (p : Policy) (log : List Entry) (s : Service) (key : ProjectKey) (now : Instant) : Prop :=
  ∀ b ∈ s.batches, ∀ config, (key, .config config) ∈ b.found →
    .told b.id key (.config config) .overrides ∈ log → ¬ p.Usable b.stamp now

section Untainted
variable {p : Policy} {log tail new : List Entry} {s s' : Service} {e : Event} {key : ProjectKey} {now : Instant}

/-- What the overrides told before may not be used when a batch brings it. -/
structure Untainted (p : Policy) (now : Instant) (log tail : List Entry) (s : Service) (key : ProjectKey) :
    Prop where
  recorded : Recorded (log ++ tail) s
  batches : NoneUsable p log s key now
  applied : ∀ i stamp config taken, .applied i stamp key (.config config) taken ∈ tail →
    .told i key (.config config) .overrides ∈ log → ¬ p.Usable stamp now

theorem Untainted.move (untainted : Untainted p now log tail s key) (orderly : s.Orderly)
    (move : Move s e new s') : Untainted p now log (tail ++ new) s' key := by
  refine ⟨?_, ?_, ?_⟩
  · rw [← List.append_assoc]
    exact untainted.recorded.move orderly move
  · intro b' member config inside tainted
    obtain ⟨b, old, same, stamp, origin⟩ := move.found_origin member inside
    rcases origin with found | unresolved
    · rw [← stamp]
      exact untainted.batches b old config found (same ▸ tainted)
    · exact absurd unresolved
        (untainted.recorded.settled _ _ _ _ (List.mem_append_left _ tainted) b old same)
  · intro i stamp config taken member
    rcases List.mem_append.mp member with old | recent
    · exact untainted.applied i stamp config taken old
    · obtain ⟨b, inside, rfl, rfl, found⟩ := move.applied_origin recent
      exact untainted.batches b inside config found

theorem mem_removedBy_iff {directory : Directory} :
    key ∈ s.removedBy directory ↔ ∃ previous next changes, s.overrides = some previous ∧
      previous.reload directory = .ok (next, changes) ∧ key ∈ changes.removed := by
  unfold removedBy
  cases loaded : s.overrides with
  | none =>
    refine ⟨fun member => absurd member List.not_mem_nil, ?_⟩
    rintro ⟨_, _, _, differ, _⟩
    cases differ
  | some previous =>
    cases reloaded : previous.reload directory with
    | error e =>
      refine ⟨fun member => (by rw [Option.elim_some, reloaded] at member; cases member), ?_⟩
      rintro ⟨_, _, _, same, differ, _⟩
      cases same
      rw [reloaded] at differ
      cases differ
    | ok result =>
      rw [Option.elim_some, reloaded]
      constructor
      · intro member
        exact ⟨previous, result.1, result.2, rfl, reloaded, member⟩
      · rintro ⟨_, _, _, same, other, member⟩
        cases same
        rw [reloaded] at other
        cases other
        exact member

/-- A reload that removes a key leaves nothing known about it, and no batch notices. -/
theorem removal_forgets {directory : Directory} (running : s.status = .running)
    (removed : key ∈ s.removedBy directory) (now : Instant) :
    ∃ changes, s.entries (.reload directory now) = OverrideChanges.entries changes now ∧
      key ∈ changes.removed ∧ changes.updated.get? key = none ∧
      (s.step (.reload directory now)).cache.knows key = .nothing ∧
      (s.step (.reload directory now)).status = .running ∧
      (s.step (.reload directory now)).batches = s.batches := by
  obtain ⟨previous, next, changes, loaded, reloaded, inside⟩ := mem_removedBy_iff.mp removed
  have after : s.step (.reload directory now) = { s with
      overrides := some next
      cache := install s.cache changes now
      samples := s.samples ++ previous.reloadSamples directory } := by
    simp only [step, whileRunning_of_running running, reload, loaded, record, reloaded]
  refine ⟨changes, ?_, inside, ?_, ?_, ?_, ?_⟩
  · simp only [Service.entries, if_pos running, loaded, Option.elim_some, reloaded, Except.toOption]
  · obtain ⟨scanned, rfl⟩ := Snapshot.reload_eq_ok reloaded
    rw [OverrideChanges.between, KeyMap.get?_filter, (Snapshot.mem_removed_iff.mp inside).2]
    rfl
  · rw [after]
    exact (knows_install ..).trans (if_pos inside)
  · rw [after]
    exact running
  · rw [after]

end Untainted

section Return
variable {log : List Entry} {s : Service} {key : ProjectKey} {directory : Directory} {now : Instant}

/-- Where nothing is known about a key, a batch that has a configuration for it can finish at
once; a lookup finds that configuration then, and nothing but the batch has a part in it. -/
theorem exists_return {b : Batch} {config : ProjectConfig} (orderly : s.Orderly) (running : s.status = .running)
    (usable : s.cache.policy.Usable b.stamp now) (nothing : s.cache.knows key = .nothing) (member : b ∈ s.batches)
    (found : (key, .config config) ∈ b.found) :
    ∃ events s' d, (∀ e ∈ events, ∀ t, e.time? = some t → t = now) ∧
      (s.run events).look .lookup key now = .ok (s', d) ∧ d.config? = some config ∧
      ∀ e ∈ s.chronicle events, (∃ i k r source, e = .told i k r source) ∨
        ∃ stamp k r taken, e = .applied b.id stamp k r taken ∧ (k = key → r = .config config) := by
  obtain ⟨events, resolutions, finished, resolved⟩ := exists_resolved orderly member found
  have learned : (s.cache.knows key).after b.stamp (.config config) = .loaded config b.stamp := by
    rw [nothing]
    rfl
  exact finished.taught orderly running resolved learned usable

/-- A batch that the overrides told about the key brings it back when it finishes late. -/
theorem removed_returns (orderly : s.Orderly) (running : s.status = .running)
    (removed : key ∈ s.removedBy directory) {b : Batch} (usable : s.cache.policy.Usable b.stamp now)
    (member : b ∈ s.batches) {config : ProjectConfig} (found : (key, .config config) ∈ b.found)
    (told : .told b.id key (.config config) .overrides ∈ log) :
    ¬ StaysRemoved log s (.reload directory now) key := by
  intro stays
  obtain ⟨changes, entries, inside, unchanged, nothing, alive, batches⟩ := removal_forgets running removed now
  have moved := s.step_move (.reload directory now)
  rw [← moved.policy] at usable
  obtain ⟨later, s', d, times, looked, used, only⟩ :=
    exists_return (orderly.move moved) alive usable nothing (batches ▸ member) found
  have order : ClockOrder (.reload directory now :: later) now := by
    refine clockOrder_of_same (List.forall_mem_cons.mpr ⟨fun t time => ?_, times⟩)
    exact (Option.some.inj time).symm
  obtain ⟨before, e, after, delivered, parted, delivery, _, origin⟩ :=
    stays later .lookup now s' d config order looked used
  have inside (x : Entry) (part : x ∈ before ++ e :: after) :
      x ∈ OverrideChanges.entries changes now ∨ x ∈ (s.step (.reload directory now)).chronicle later := by
    rw [← parted, chronicle, entries] at part
    exact List.mem_append.mp part
  have here : e ∈ before ++ e :: after := List.mem_append_right _ List.mem_cons_self
  rcases origin with ⟨x, late, renewed⟩ | ⟨_, rfl⟩ | ⟨_, _, _, rfl, _, untold⟩
  · rcases inside x (List.mem_append_right _ (List.mem_cons_of_mem _ late)) with installed | recent
    · rcases mem_changes_entries installed with ⟨_, _, rfl⟩ | ⟨_, _, rfl⟩
      · cases renewed
      · cases renewed
    · rcases only x recent with ⟨_, _, _, _, rfl⟩ | ⟨_, k, r, taken, rfl, own⟩
      · cases renewed
      · obtain ⟨_, renewal⟩ := Option.isSome_iff_exists.mp renewed
        obtain ⟨_, _, same⟩ := Entry.renewal_cases renewal
        cases same
        cases own rfl
  · rcases inside _ here with installed | recent
    · rcases mem_changes_entries installed with ⟨u, updated, same⟩ | ⟨_, _, differ⟩
      · cases same
        rw [KeyMap.mem_toList_iff, unchanged] at updated
        cases updated
      · cases differ
    · rcases only _ recent with ⟨_, _, _, _, differ⟩ | ⟨_, _, _, _, differ, _⟩
      · cases differ
      · cases differ
  · rcases inside _ here with installed | recent
    · rcases mem_changes_entries installed with ⟨_, _, differ⟩ | ⟨_, _, differ⟩
      · cases differ
      · cases differ
    · rcases only _ recent with ⟨_, _, _, _, differ⟩ | ⟨_, _, _, _, same, _⟩
      · cases differ
      · cases same
        exact untold told

end Return

theorem stays_removed_of_none_usable {p : Policy} {log : List Entry} {s : Service} {key : ProjectKey}
    {directory : Directory} {now : Instant} (faithful : Faithful p log s) (running : s.status = .running)
    (removed : key ∈ s.removedBy directory) (noneUsable : NoneUsable p log s key now) :
    StaysRemoved log s (.reload directory now) key := by
  intro later purpose t s' d config order looked used
  let Kept (tail : List Entry) (s : Service) : Prop :=
    Untainted p now log tail s key ∧ Faithful p (log ++ tail) s
  have next : ∀ tail s, ∀ e ∈ Event.reload directory now :: later, Kept tail s →
      Kept (tail ++ s.entries e) (s.step e) := by
    rintro tail s e _ ⟨untainted, faithful⟩
    have moved := s.step_move e
    refine ⟨untainted.move faithful.owned.orderly moved, ?_⟩
    rw [← List.append_assoc]
    exact faithful.move moved
  have first : Kept [] s := by
    rw [← List.append_nil log] at faithful
    refine ⟨⟨faithful.recorded, noneUsable, ?_⟩, faithful⟩
    intro _ _ _ _ member
    cases member
  obtain ⟨untainted, faithful⟩ := run_induction next first
  rw [List.nil_append] at untainted faithful
  obtain ⟨wants, read⟩ := look_read looked
  rw [faithful.policy] at read
  obtain ⟨f, known, usable⟩ := Knowledge.usable_of_read read used
  obtain ⟨changes, entries, inside, _⟩ := removal_forgets running removed now
  have withdrawn : .withdrawn key ∈ s.chronicle (.reload directory now :: later) := by
    rw [chronicle, entries]
    exact List.mem_append_left _ (List.mem_append_right _ (List.mem_map_of_mem inside))
  obtain ⟨between, e, after, delivered, parted, delivery, renewals, renewed⟩ :=
    (faithful.backed key config f known).after_withdrawal withdrawn
  refine ⟨between, e, after, delivered, parted, delivery, renewals, ?_⟩
  rcases renewed with renewed | rfl
  · exact Or.inl renewed
  · right
    rcases Entry.delivery_cases delivery with rfl | ⟨batch, rfl⟩
    · exact Or.inl ⟨_, rfl⟩
    · right
      have explained := untainted.recorded.explained (log ++ between) (.applied batch f key (.config config) true)
        after (by rw [parted, List.append_assoc])
      obtain ⟨_, source, told⟩ := explained
      refine ⟨batch, f, source, rfl, told, fun tainted => ?_⟩
      refine untainted.applied batch f config true ?_ tainted (usable.earlier (order.le rfl))
      rw [parted]
      exact List.mem_append_right _ List.mem_cons_self

/-- In every run, a removed override stays removed if and only if no batch in hand has been
told about the key by the overrides so recently that it may still be used. -/
theorem removed_override_stays_removed_iff (policy : Policy) (settings : ServiceSettings) (withOverrides : Bool)
    (events : List Event) (directory : Directory) (now : Instant) (key : ProjectKey)
    (running : ((start policy settings withOverrides).run events).status = .running)
    (removed : key ∈ ((start policy settings withOverrides).run events).removedBy directory) :
    StaysRemoved ((start policy settings withOverrides).chronicle events)
      ((start policy settings withOverrides).run events) (.reload directory now) key ↔
    NoneUsable policy ((start policy settings withOverrides).chronicle events)
      ((start policy settings withOverrides).run events) key now := by
  have faithful := run_faithful policy settings withOverrides events
  constructor
  · intro stays b member config found told usable
    rw [← faithful.policy] at usable
    exact removed_returns faithful.owned.orderly running removed usable member found told stays
  · intro noneUsable
    exact stays_removed_of_none_usable faithful running removed noneUsable

/-- With no batch in hand the key is fetched again from the other sources. -/
theorem removed_override_is_fetched_again :
    let s := start ⟨.ofSecs 60, .zero, .ofSecs 10⟩ { batchSize := 10, queryTimeout := .ofSecs 30 } true
    let events := [.reload (.entries [⟨"a.json".toUTF8.toList, some "\x7b\x7d".toUTF8.toList⟩]) .origin,
      .look .lookup "a" (.ofMillis 1)]
    StaysRemoved (s.chronicle events) (s.run events) (.reload (.entries []) (.ofMillis 2)) "a" := by
  refine (removed_override_stays_removed_iff _ _ _ _ _ _ _ (by decide +kernel) (by decide +kernel)).mpr ?_
  intro b member
  have nobody : ((start ⟨.ofSecs 60, .zero, .ofSecs 10⟩ { batchSize := 10, queryTimeout := .ofSecs 30 } true).run
      [.reload (.entries [⟨"a.json".toUTF8.toList, some "\x7b\x7d".toUTF8.toList⟩]) .origin,
        .look .lookup "a" (.ofMillis 1)]).batches.isEmpty = true := by decide +kernel
  rw [List.isEmpty_iff.mp nobody] at member
  cases member

/-- A batch that took the override of one key waits for the authority because of another
key; meanwhile the override is removed. The batch brings it back. -/
theorem removed_override_returns :
    let s := start ⟨.ofSecs 2, .zero, .ofSecs 1⟩ { batchSize := 10, queryTimeout := .ofSecs 30 } true
    let events := [.reload (.entries [⟨"a.json".toUTF8.toList, some "\x7b\x7d".toUTF8.toList⟩]) .origin,
      .look .lookup "a" (.ofMillis 2050), .look .lookup "b" (.ofMillis 2050), .advance 0, .advance 0,
      .receive, .receive, .dispatch (.ofMillis 2100), .consult 0 fun _ => .ok none,
      .consult 0 fun _ => .ok none]
    ¬ StaysRemoved (s.chronicle events) (s.run events) (.reload (.entries []) (.ofMillis 3000)) "a" := by
  intro s events
  have faithful := run_faithful ⟨.ofSecs 2, .zero, .ofSecs 1⟩
    { batchSize := 10, queryTimeout := .ofSecs 30 } true events
  have inHand : ((s.run events).batches.any fun b => b.stamp = .ofMillis 2100 && b.found.any fun r =>
      r.1 = "a" && r.2.config?.isSome) = true := by decide +kernel
  have overrides : ((s.chronicle events).all fun e =>
      (e.source? "a").all (· = .overrides)) = true := by decide +kernel
  obtain ⟨b, member, inHand⟩ := List.any_eq_true.mp inHand
  rw [Bool.and_eq_true, decide_eq_true_iff] at inHand
  obtain ⟨stamp, inHand⟩ := inHand
  obtain ⟨⟨k, r⟩, found, inHand⟩ := List.any_eq_true.mp inHand
  rw [Bool.and_eq_true, decide_eq_true_iff] at inHand
  obtain ⟨rfl, config⟩ := inHand
  have usable : (s.run events).cache.policy.Usable b.stamp (.ofMillis 3000) := by
    rw [faithful.policy, stamp]
    exact Or.inl (by decide)
  cases r with
  | config config =>
    obtain ⟨source, told⟩ := faithful.recorded.told b member _ found
    have same := List.all_eq_true.mp overrides _ told
    rw [Entry.source?, if_pos rfl, Option.all_some, decide_eq_true_iff] at same
    rw [same] at told
    exact removed_returns faithful.owned.orderly (by decide +kernel) (by decide +kernel) usable member found told
  | _ => cases config

end Service

end AdmissionCache
