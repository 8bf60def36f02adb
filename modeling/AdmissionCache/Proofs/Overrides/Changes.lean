import AdmissionCache.Overrides.Snapshot
import AdmissionCache.Proofs.Json.Sameness

namespace AdmissionCache

namespace Snapshot

/-- Every configuration is the same as itself, as those in documents are. -/
def Sound (s : Snapshot) : Prop := ∀ key config, s.get? key = some config → config.same config = true

theorem sound_empty : Sound ∅ := fun _ _ held => nomatch held

theorem Sound.insert {s : Snapshot} (sound : s.Sound) (key : ProjectKey) {config : ProjectConfig}
    (self : config.same config = true) : Sound (KeyMap.insert s key config) := by
  intro other c held
  rw [KeyMap.get?_insert] at held
  split at held
  · cases held
    exact self
  · exact sound other c held

theorem Sound.add {s : Snapshot} (sound : s.Sound) (e : DirectoryEntry) : (s.add e).Sound := by
  unfold Snapshot.add
  split
  · rename_i keys config found
    obtain ⟨stem, _, found⟩ := Option.bind_eq_some_iff.mp found
    obtain ⟨content, _, found⟩ := Option.bind_eq_some_iff.mp found
    split at found
    · rename_i _ read
      cases found
      exact List.foldlRecOn _ _ sound fun s sound key _ => sound.insert key (ProjectConfig.same_ofBytes read)
    · cases found
  · exact sound

theorem sound_of_scan {d : Directory} {s : Snapshot} (scanned : scan d = .ok s) : s.Sound := by
  cases d with
  | entries list =>
    cases scanned
    exact List.foldlRecOn _ _ sound_empty fun s sound e _ => sound.add e
  | missing =>
    cases scanned
    exact sound_empty
  | broken listed => cases scanned

theorem reload_eq_ok {previous next : Snapshot} {d : Directory} {changes : OverrideChanges}
    (reloaded : previous.reload d = .ok (next, changes)) :
    scan d = .ok next ∧ changes = .between previous next := by
  unfold reload at reloaded
  cases scanned : scan d with
  | error e => rw [scanned] at reloaded; cases reloaded
  | ok found => rw [scanned] at reloaded; cases reloaded; exact ⟨rfl, rfl⟩

theorem mem_removed_iff {previous next : Snapshot} {key : ProjectKey} :
    key ∈ (OverrideChanges.between previous next).removed ↔
      (previous.get? key).isSome = true ∧ next.get? key = none := by
  simp only [OverrideChanges.between, List.mem_filter, KeyMap.mem_keys_iff, KeyMap.contains,
    Bool.not_eq_true', Option.isSome_eq_false_iff, Option.isNone_iff_eq_none]

theorem get?_updated {previous next : Snapshot} {key : ProjectKey} {config : ProjectConfig}
    (held : next.get? key = some config) :
    (OverrideChanges.between previous next).updated.get? key =
      if previous.holds key config then none else some config := by
  simp only [OverrideChanges.between, KeyMap.get?_filter, held, Option.filter_some]
  cases previous.holds key config <;> rfl

theorem get?_updated_eq_some {previous next : Snapshot} {key : ProjectKey} {config : ProjectConfig} :
    (OverrideChanges.between previous next).updated.get? key = some config ↔
      next.get? key = some config ∧ ∀ old, previous.get? key = some old → old.same config = false := by
  simp only [OverrideChanges.between, KeyMap.get?_filter, Option.filter_eq_some_iff, holds, Bool.not_eq_true']
  cases previous.get? key with
  | none => simp
  | some old => simp

/-- There is the same override, or none. -/
def SameOverride : Option ProjectConfig → Option ProjectConfig → Prop :=
  Option.Rel fun c d => c.same d = true

theorem SameOverride.trans {a b c : Option ProjectConfig} (first : SameOverride a b) (second : SameOverride b c) :
    SameOverride a c := by
  cases first with
  | none => exact second
  | some agrees =>
    cases second with
    | some agrees' => exact .some (ProjectConfig.same_trans agrees agrees')

/-- Two snapshots have the same keys, and the same configuration for each. -/
def Same (a b : Snapshot) : Prop := ∀ key, SameOverride (a.get? key) (b.get? key)

theorem Sound.same {s : Snapshot} (sound : s.Sound) : s.Same s := by
  intro key
  cases held : s.get? key with
  | none => exact .none
  | some config => exact .some (sound key config held)

section Same
variable {a b : Snapshot} {key : ProjectKey}

theorem Same.get?_eq_none (same : a.Same b) (absent : b.get? key = none) : a.get? key = none := by
  have agrees := same key
  rw [absent] at agrees
  generalize a.get? key = found at agrees ⊢
  cases agrees
  rfl

theorem Same.get?_eq_some {config : ProjectConfig} (same : a.Same b) (held : b.get? key = some config) :
    ∃ found, a.get? key = some found ∧ found.same config = true := by
  have agrees := same key
  rw [held] at agrees
  generalize a.get? key = found at agrees ⊢
  cases agrees with
  | some agrees => exact ⟨_, rfl, agrees⟩

end Same

/-- A key without a change has the same override as before. -/
theorem sameOverride_of_unchanged {previous next : Snapshot} {key : ProjectKey}
    (unchanged : (OverrideChanges.between previous next).updated.get? key = none)
    (kept : key ∉ (OverrideChanges.between previous next).removed) :
    SameOverride (previous.get? key) (next.get? key) := by
  cases held : next.get? key with
  | none =>
    cases old : previous.get? key with
    | none => exact .none
    | some config => exact absurd (mem_removed_iff.mpr ⟨by rw [old]; rfl, held⟩) kept
  | some config =>
    rw [get?_updated held, ite_eq_left_iff] at unchanged
    have holds : previous.holds key config = true :=
      Decidable.byContradiction fun differs => nomatch unchanged differs
    obtain ⟨old, before, agrees⟩ := (Option.any_eq_true ..).mp holds
    rw [before]
    exact .some agrees

end Snapshot

namespace OverrideChanges

/-- What changes make of a snapshot: the removed keys are deleted, and the updated ones inserted. -/
def applyTo (c : OverrideChanges) (s : Snapshot) : Snapshot :=
  c.updated.toList.foldl (fun s e => s.insert e.1 e.2) (c.removed.foldl KeyMap.erase s)

theorem get?_foldl_erase {α : Type} (keys : List ProjectKey) (m : KeyMap α) (key : ProjectKey) :
    (keys.foldl KeyMap.erase m).get? key = if key ∈ keys then none else m.get? key := by
  induction keys generalizing m with
  | nil => rfl
  | cons k rest ih =>
    rw [List.foldl_cons, ih, KeyMap.get?_erase]
    by_cases later : key ∈ rest
    · simp only [later, if_true, List.mem_cons, or_true]
    · simp only [later, if_false, List.mem_cons, or_false]

theorem get?_applyTo (c : OverrideChanges) (s : Snapshot) (key : ProjectKey) :
    (c.applyTo s).get? key = (c.updated.get? key).or (if key ∈ c.removed then none else s.get? key) := by
  rw [applyTo, KeyMap.toList, KeyMap.get?_insertAll _ c.updated.sorted, get?_foldl_erase]
  rfl

/-- The changes between two snapshots lead to the second, from the first and from every other that has
the same overrides for the keys that do not change. -/
theorem applyTo_between {s previous next : Snapshot}
    (same : ∀ key, Snapshot.SameOverride (previous.get? key) (next.get? key) →
      Snapshot.SameOverride (s.get? key) (next.get? key))
    (sound : next.Sound) : ((between previous next).applyTo s).Same next := by
  intro key
  rw [get?_applyTo]
  cases updated : (between previous next).updated.get? key with
  | some config =>
    have held := (Snapshot.get?_updated_eq_some.mp updated).1
    rw [Option.some_or, held]
    exact .some (sound key config held)
  | none =>
    rw [Option.none_or]
    split
    · rename_i gone
      rw [(Snapshot.mem_removed_iff.mp gone).2]
      exact .none
    · rename_i kept
      exact same key (Snapshot.sameOverride_of_unchanged updated kept)

theorem isEmpty_iff {c : OverrideChanges} :
    c.isEmpty = true ↔ (∀ key, c.updated.get? key = none) ∧ ∀ key, key ∉ c.removed := by
  rw [isEmpty, Bool.and_eq_true, KeyMap.isEmpty, List.isEmpty_iff, List.isEmpty_iff,
    ← List.eq_nil_iff_forall_not_mem]
  refine and_congr_left fun _ => ⟨fun empty key => ?_, fun none => ?_⟩
  · rw [KeyMap.get?, empty]
    rfl
  · refine List.eq_nil_iff_forall_not_mem.mpr fun e member => ?_
    have found := (KeyMap.mem_toList_iff ..).mp member
    rw [none] at found
    cases found

/-- There are no changes just between equal snapshots. -/
theorem isEmpty_between {previous next : Snapshot} :
    (between previous next).isEmpty = true ↔ previous.Same next := by
  rw [isEmpty_iff]
  constructor
  · rintro ⟨unchanged, kept⟩ key
    exact Snapshot.sameOverride_of_unchanged (unchanged key) (kept key)
  · intro same
    refine ⟨fun key => ?_, fun key removed => ?_⟩
    · refine Option.eq_none_iff_forall_ne_some.mpr fun config found => ?_
      obtain ⟨held, differs⟩ := Snapshot.get?_updated_eq_some.mp found
      obtain ⟨old, before, agrees⟩ := same.get?_eq_some held
      rw [differs old before] at agrees
      cases agrees
    · obtain ⟨old, gone⟩ := Snapshot.mem_removed_iff.mp removed
      rw [same.get?_eq_none gone] at old
      cases old

end OverrideChanges

end AdmissionCache
