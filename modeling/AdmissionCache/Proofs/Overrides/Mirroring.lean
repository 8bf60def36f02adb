import AdmissionCache.Proofs.Overrides.Changes
import AdmissionCache.Proofs.Service.Completion

namespace AdmissionCache

namespace Snapshot

theorem reload_of_scan (previous : Snapshot) {d : Directory} {next : Snapshot} (scanned : scan d = .ok next) :
    previous.reload d = .ok (next, .between previous next) := by
  rw [reload, scanned]
  rfl

theorem reload_of_fault (previous : Snapshot) {d : Directory} {fault : OverrideFault} (failed : scan d = .error fault) :
    previous.reload d = .error fault := by
  rw [reload, failed]
  rfl

/-- A scan fails only where the listing of the directory breaks off. -/
theorem exists_scan (d : Directory) :
    (∃ listed, d = .broken listed ∧ scan d = .error .unlistable) ∨ ∃ next, scan d = .ok next := by
  cases d with
  | entries list => exact Or.inr ⟨_, rfl⟩
  | missing => exact Or.inr ⟨_, rfl⟩
  | broken listed => exact Or.inl ⟨listed, rfl, rfl⟩

/-- What the last successful one of several scans has found, or else what was known before. -/
def lastFound (previous : Snapshot) (directories : List Directory) : Snapshot :=
  (directories.filterMap fun d => (scan d).toOption).getLast?.getD previous

/-- The changes that reloads one after the other report. -/
def reports (previous : Snapshot) : List Directory → List OverrideChanges
  | [] => []
  | d :: rest =>
    match previous.reload d with
    | .ok (next, changes) => changes :: next.reports rest
    | .error _ => previous.reports rest

section Polls
variable {previous next known : Snapshot} {d : Directory} (rest : List Directory)

theorem lastFound_of_scan (scanned : scan d = .ok next) :
    previous.lastFound (d :: rest) = next.lastFound rest := by
  rw [lastFound, List.filterMap_cons_some (by rw [scanned]; rfl), List.getLast?_cons]
  rfl

theorem lastFound_of_fault {fault : OverrideFault} (failed : scan d = .error fault) :
    previous.lastFound (d :: rest) = previous.lastFound rest := by
  rw [lastFound, List.filterMap_cons_none (by rw [failed]; rfl)]
  rfl

/-- Whoever knows the overrides and follows the reports knows them ever after. -/
theorem applyTo_reports (directories : List Directory) (same : known.Same previous) :
    ((previous.reports directories).foldl (fun s c => c.applyTo s) known).Same
      (previous.lastFound directories) := by
  induction directories generalizing previous known with
  | nil => exact same
  | cons d rest ih =>
    rcases exists_scan d with ⟨_, _, failed⟩ | ⟨next, scanned⟩
    · rw [lastFound_of_fault rest failed, reports, reload_of_fault previous failed]
      exact ih same
    · rw [lastFound_of_scan rest scanned, reports, reload_of_scan previous scanned]
      exact ih (OverrideChanges.applyTo_between (fun key => (same key).trans) (sound_of_scan scanned))

end Polls

end Snapshot

/-- Changes are just the difference of two snapshots: they lead from the one to the other, name
no key twice, and none without need. -/
structure OverrideChanges.Exact (previous next : Snapshot) (c : OverrideChanges) : Prop where
  leads : (c.applyTo previous).Same next
  once : c.updated.keys.Nodup ∧ c.removed.Nodup
  updated : ∀ key config, c.updated.get? key = some config ↔
    next.get? key = some config ∧ ∀ old, previous.get? key = some old → old.same config = false
  removed : ∀ key, key ∈ c.removed ↔ (previous.get? key).isSome = true ∧ next.get? key = none
  empty : c.isEmpty = true ↔ previous.Same next

theorem OverrideChanges.between_exact {previous next : Snapshot} (sound : next.Sound) :
    (between previous next).Exact previous next where
  leads := applyTo_between (fun _ => id) sound
  once := ⟨KeyMap.keys_nodup _, previous.keys_nodup.filter _⟩
  updated _ _ := Snapshot.get?_updated_eq_some
  removed _ := Snapshot.mem_removed_iff
  empty := isEmpty_between

/-- What the cache knows about a key is what a snapshot says about it. -/
def Cache.Mirrors (c : Cache) (s : Snapshot) (key : ProjectKey) : Prop :=
  match s.get? key with
  | some config => ∃ held loadedAt, c.knows key = .loaded held loadedAt ∧ held.same config = true
  | none => c.knows key = .nothing

/-- The cache has followed the overrides of a key that had the given slot and override at first: it
knows what the snapshot says, or there was nothing to report. -/
def Cache.Follows (slot : Option Slot) (first : Option ProjectConfig) (c : Cache) (s : Snapshot)
    (key : ProjectKey) : Prop :=
  c.Mirrors s key ∨ c.slot? key = slot ∧ Snapshot.SameOverride first (s.get? key)

theorem Cache.mirrors_of_absent {c : Cache} {s : Snapshot} {key : ProjectKey} (absent : s.get? key = none) :
    c.Mirrors s key ↔ c.knows key = .nothing := by
  rw [Mirrors, absent]

theorem Cache.Mirrors.congr {c c' : Cache} {previous next : Snapshot} {key : ProjectKey}
    (mirrors : c.Mirrors previous key) (slot : c'.slot? key = c.slot? key)
    (same : Snapshot.SameOverride (previous.get? key) (next.get? key)) : c'.Mirrors next key := by
  have knows : c'.knows key = c.knows key := by
    rw [Cache.knows, Cache.knows, Cache.slotOrNew, Cache.slotOrNew, slot]
  unfold Cache.Mirrors at mirrors ⊢
  rw [knows]
  generalize previous.get? key = old at mirrors same
  generalize next.get? key = new at same ⊢
  cases same with
  | none => exact mirrors
  | some agrees =>
    obtain ⟨held, loadedAt, known, agrees'⟩ := mirrors
    exact ⟨held, loadedAt, known, ProjectConfig.same_trans agrees' agrees⟩

namespace Service

/-- What a reload carries over into the cache: every updated key has its new configuration, loaded
just now, and nothing is known about a removed one. All other slots stay as they are, and so does
every fetch that is under way. -/
structure Carried (s : Service) (now : Instant) (next : Snapshot) (changes : OverrideChanges) (s' : Service) :
    Prop where
  updated : ∀ key config, changes.updated.get? key = some config →
    s'.cache.slot? key = some ⟨.loaded config now, s.cache.inFlight key⟩
  removed : ∀ key ∈ changes.removed,
    s'.cache.slot? key = (s.cache.slot? key).map ({ · with knowledge := .nothing })
  others : ∀ key, changes.updated.get? key = none → key ∉ changes.removed →
    s'.cache.slot? key = s.cache.slot? key
  inFlight : ∀ key, s'.cache.inFlight key = s.cache.inFlight key
  rest : ∃ cache samples, cache.policy = s.cache.policy ∧
    s' = { s with overrides := some next, cache, samples }

section Reload
variable {s : Service} {previous next : Snapshot} {directory : Directory} (now : Instant)

theorem reload_fault (running : s.status = .running) (loaded : s.overrides = some previous) {fault : OverrideFault}
    (failed : Snapshot.scan directory = .error fault) :
    ∃ samples, s.step (.reload directory now) = { s with samples } := by
  refine ⟨s.samples ++ previous.reloadSamples directory, ?_⟩
  rw [step, whileRunning_of_running running, reload]
  split
  · rename_i none
    rw [loaded] at none
    cases none
  · rename_i snapshot held
    rw [loaded] at held
    cases held
    rw [previous.reload_of_fault failed]
    rfl

theorem reload_scan (running : s.status = .running) (loaded : s.overrides = some previous)
    (scanned : Snapshot.scan directory = .ok next) :
    ∃ samples, s.step (.reload directory now) =
      { s with overrides := some next, cache := install s.cache (.between previous next) now, samples } := by
  rw [step, whileRunning_of_running running, reload, loaded]
  simp only [previous.reload_of_scan scanned]
  exact ⟨_, rfl⟩

theorem install_carried (s : Service) (previous next : Snapshot) (samples : List Sample) :
    Carried s now next (.between previous next)
      { s with overrides := some next, cache := install s.cache (.between previous next) now, samples } where
  updated key config found := by
    have kept : key ∉ (OverrideChanges.between previous next).removed := fun removed => by
      have held := (Snapshot.get?_updated_eq_some.mp found).1
      rw [(Snapshot.mem_removed_iff.mp removed).2] at held
      cases held
    rw [slot?_install, found, if_neg kept]
    rfl
  removed key gone := by
    have unchanged : (OverrideChanges.between previous next).updated.get? key = none := by
      rw [OverrideChanges.between, KeyMap.get?_filter, (Snapshot.mem_removed_iff.mp gone).2]
      rfl
    rw [slot?_install, unchanged, if_pos gone]
    rfl
  others key unchanged kept := by
    rw [slot?_install, unchanged, if_neg kept]
    rfl
  inFlight key := inFlight_install ..
  rest := ⟨_, _, policy_install .., rfl⟩

variable {now}

/-- A reload brings the slot of a key up to date, or leaves it and the override of the key alone. -/
theorem Carried.mirrors {s' : Service} (carried : Carried s now next (.between previous next) s')
    (sound : next.Sound) (key : ProjectKey) :
    s'.cache.Mirrors next key ∨ s'.cache.slot? key = s.cache.slot? key ∧
      Snapshot.SameOverride (previous.get? key) (next.get? key) := by
  cases updated : (OverrideChanges.between previous next).updated.get? key with
  | some config =>
    have held := (Snapshot.get?_updated_eq_some.mp updated).1
    left
    rw [Cache.Mirrors, held, Cache.knows, Cache.slotOrNew_of_slot? (carried.updated key config updated)]
    exact ⟨config, now, rfl, sound key config held⟩
  | none =>
    by_cases gone : key ∈ (OverrideChanges.between previous next).removed
    · left
      rw [Cache.mirrors_of_absent (Snapshot.mem_removed_iff.mp gone).2, Cache.knows, Cache.slotOrNew,
        carried.removed key gone]
      cases s.cache.slot? key <;> rfl
    · exact Or.inr ⟨carried.others key updated gone, Snapshot.sameOverride_of_unchanged updated gone⟩

theorem Carried.follows {s' : Service} (carried : Carried s now next (.between previous next) s')
    (sound : next.Sound) {slot : Option Slot} {first : Option ProjectConfig} {key : ProjectKey}
    (follows : s.cache.Follows slot first previous key) : s'.cache.Follows slot first next key := by
  rcases carried.mirrors sound key with mirrors | ⟨untouched, same⟩
  · exact Or.inl mirrors
  · rcases follows with mirrors | ⟨atFirst, same'⟩
    · exact Or.inl (mirrors.congr untouched same)
    · exact Or.inr ⟨untouched.trans atFirst, same'.trans same⟩

/-- After any number of polls the last snapshot found is in use, and the cache follows it. -/
theorem run_polls (slot : ProjectKey → Option Slot) (known : Snapshot) (running : s.status = .running)
    (loaded : s.overrides = some previous) (polls : List (Directory × Instant))
    (follows : ∀ key, s.cache.Follows (slot key) (known.get? key) previous key) :
    let found := previous.lastFound (polls.map (·.1))
    let s' := s.run (polls.map fun p => .reload p.1 p.2)
    s'.overrides = some found ∧ ∀ key, s'.cache.Follows (slot key) (known.get? key) found key := by
  induction polls generalizing s previous with
  | nil => exact ⟨loaded, follows⟩
  | cons poll rest ih =>
    obtain ⟨directory, now⟩ := poll
    intro found s'
    have onward : s' = (s.step (.reload directory now)).run (rest.map fun p => .reload p.1 p.2) := rfl
    rcases Snapshot.exists_scan directory with ⟨_, _, failed⟩ | ⟨next, scanned⟩
    · have unfound : found = previous.lastFound (rest.map (·.1)) := Snapshot.lastFound_of_fault _ failed
      obtain ⟨samples, after⟩ := reload_fault now running loaded failed
      rw [onward, unfound, after]
      exact ih running loaded follows
    · have refound : found = next.lastFound (rest.map (·.1)) := Snapshot.lastFound_of_scan _ scanned
      obtain ⟨samples, after⟩ := reload_scan now running loaded scanned
      rw [onward, refound, after]
      exact ih running rfl fun key =>
        (install_carried now s previous next samples).follows (Snapshot.sound_of_scan scanned) (follows key)

end Reload

/-- A reload either fails, because the listing breaks off, and changes nothing, or it reports just the
difference to what was found before and carries it over into the cache. After any number of polls the
reports add up to what the last successful one has found, and the cache has followed. -/
theorem reload_exact_and_mirrored (s : Service) (previous : Snapshot) (running : s.status = .running)
    (loaded : s.overrides = some previous) :
    (∀ directory now,
      let s' := s.step (.reload directory now)
      ((∃ listed, directory = .broken listed) ∧ previous.reload directory = .error .unlistable ∧
        ∃ samples, s' = { s with samples }) ∨
      ∃ next changes, Snapshot.scan directory = .ok next ∧ previous.reload directory = .ok (next, changes) ∧
        changes.Exact previous next ∧ Carried s now next changes s') ∧
    ∀ (polls : List (Directory × Instant)) (known : Snapshot), known.Same previous →
      let directories := polls.map (·.1)
      let found := previous.lastFound directories
      let s' := s.run (polls.map fun p => .reload p.1 p.2)
      s'.overrides = some found ∧
      ((previous.reports directories).foldl (fun s c => c.applyTo s) known).Same found ∧
      ∀ key, s'.cache.Follows (s.cache.slot? key) (known.get? key) found key := by
  refine ⟨fun directory now => ?_, fun polls known same => ?_⟩
  · rcases Snapshot.exists_scan directory with ⟨listed, broken, failed⟩ | ⟨next, scanned⟩
    · exact Or.inl ⟨⟨listed, broken⟩, previous.reload_of_fault failed, reload_fault now running loaded failed⟩
    · obtain ⟨samples, after⟩ := reload_scan now running loaded scanned
      refine Or.inr ⟨next, _, scanned, previous.reload_of_scan scanned,
        OverrideChanges.between_exact (Snapshot.sound_of_scan scanned), ?_⟩
      rw [after]
      exact install_carried now s previous next samples
  · obtain ⟨overrides, follows⟩ := run_polls s.cache.slot? known running loaded polls
      fun key => Or.inr ⟨rfl, same key⟩
    exact ⟨overrides, Snapshot.applyTo_reports _ same, follows⟩

/-- The second poll breaks off and reports nothing. With the third one override is gone, and one has
moved to another file. -/
theorem polls_add_up :
    let file (name text : String) : DirectoryEntry := ⟨name.toUTF8.toList, some text.toUTF8.toList⟩
    let first : Directory := .entries [file "a.json" "\x7b\x7d", file "b.json" "\x7b\x7d"]
    let last : Directory := .entries [file "c.json" "\x7b\"publicKeys\":[\x7b\"publicKey\":\"b\"\x7d]\x7d"]
    let directories := [first, .broken [file "a.json" "[]"], last]
    let s := (start ⟨.ofSecs 60, .zero, .ofSecs 10⟩ { batchSize := 10, queryTimeout := .ofSecs 30 } true).run
      [.look .lookup "a" .origin]
    let s' := s.run (directories.map fun d => .reload d (.ofMillis 1))
    ∃ found, s'.overrides = some found ∧ found.keys = ["b"] ∧
      ((Snapshot.reports ∅ directories).foldl (fun s c => OverrideChanges.applyTo c s) ∅).Same found ∧
      s'.cache.knows "a" = .nothing ∧ s'.cache.inFlight "a" = true := by
  intro file first last directories s s'
  obtain ⟨loaded, same, follows⟩ := (reload_exact_and_mirrored s ∅ rfl rfl).2
    (directories.map fun d => (d, .ofMillis 1)) ∅ Snapshot.sound_empty.same
  refine ⟨Snapshot.lastFound ∅ directories, loaded, by decide +kernel, same, ?_, by decide +kernel⟩
  have absent : (Snapshot.lastFound ∅ directories).get? "a" = none :=
    Option.isNone_iff_eq_none.mp (by decide +kernel)
  rcases follows "a" with mirrors | ⟨untouched, _⟩
  · exact (Cache.mirrors_of_absent absent).mp mirrors
  · exact congrArg (fun slot => (slot.getD {}).knowledge) untouched

end Service

end AdmissionCache
