import AdmissionCache.Shared.Store

namespace AdmissionCache

namespace SharedStore

/-- Two contents that are the same but for the entries of a key. -/
def AgreeBeyond (s : SharedStore) (key : ProjectKey) (content content' : StoreContent) : Prop :=
  ∀ entry, entry ≠ s.payloadEntry key → entry ≠ s.revisionEntry key → content entry = content' entry

/-- The key whose payload is kept where the revision of the given one is. -/
def suffixed (key : ProjectKey) : ProjectKey := key ++ ".rev"

section Names
variable {s : SharedStore} {key other : ProjectKey}

theorem payloadEntry_inj : s.payloadEntry key = s.payloadEntry other ↔ key = other := String.append_right_inj _

theorem revisionEntry_inj : s.revisionEntry key = s.revisionEntry other ↔ key = other :=
  (String.append_left_inj _).trans payloadEntry_inj

theorem payloadEntry_suffixed (s : SharedStore) (key : ProjectKey) :
    s.payloadEntry (suffixed key) = s.revisionEntry key := (String.append_assoc ..).symm

/-- A payload is where a revision is only if its key has the suffix. -/
theorem payloadEntry_eq_revisionEntry : s.payloadEntry key = s.revisionEntry other ↔ key = suffixed other := by
  rw [← payloadEntry_suffixed, payloadEntry_inj]

end Names

section Lookups
variable {s : SharedStore} {key other : ProjectKey} {content content' : StoreContent}

/-- A lookup of a key reads the payload and, for a known revision, the revision of the key. -/
theorem lookup_congr {known : Option Revision} (payload : content (s.payloadEntry key) = content' (s.payloadEntry key))
    (revision : known ≠ none → content (s.revisionEntry key) = content' (s.revisionEntry key)) :
    s.lookup content key known = s.lookup content' key known := by
  have configs : s.configLookup content key = s.configLookup content' key := by
    simp only [configLookup, SharedStore.config, configWith, payload]
  cases known with
  | none => rw [lookup, lookup, configs]
  | some known =>
    have revisions : s.revision content key = s.revision content' key := by
      simp only [SharedStore.revision, revision nofun]
    simp only [lookup, revisions, configs]

/-- A store with one entry and nothing else. -/
def only (entry : String) (bytes : List UInt8) : StoreContent := fun name =>
  if name = entry then .ok (some bytes) else .ok none

theorem only_own (entry : String) (bytes : List UInt8) : only entry bytes entry = .ok (some bytes) := if_pos rfl

theorem only_other {entry name : String} (bytes : List UInt8) (differ : name ≠ entry) :
    only entry bytes name = .ok none := if_neg differ

theorem agreeBeyond_only {entry : String} (bytes : List UInt8)
    (own : entry = s.payloadEntry key ∨ entry = s.revisionEntry key) :
    s.AgreeBeyond key (fun _ => .ok none) (only entry bytes) := by
  intro name notPayload notRevision
  refine (only_other bytes fun same => ?_).symm
  rcases own with payload | revision
  · exact notPayload (same.trans payload)
  · exact notRevision (same.trans revision)

/-- Where nothing is stored, a lookup misses. -/
theorem lookup_empty (s : SharedStore) (key : ProjectKey) (known : Option Revision) :
    (s.lookup (fun _ => .ok none) key known).result = .ok .miss := by
  cases known <;> rfl

theorem payloadEntry_ne_revisionEntry (s : SharedStore) (key : ProjectKey) :
    s.payloadEntry key ≠ s.revisionEntry key := by
  rw [Ne, payloadEntry_eq_revisionEntry]
  intro same
  have lengths := congrArg String.length same
  rw [suffixed, String.length_append] at lengths
  have suffix : String.length ".rev" = 4 := rfl
  omega

/-- An empty payload is no configuration, whatever revision is known. -/
theorem lookup_only_payload (s : SharedStore) (key : ProjectKey) (known : Option Revision) :
    (s.lookup (only (s.payloadEntry key) []) key known).result = .error (.document .notJson) := by
  have config : s.configLookup (only (s.payloadEntry key) []) key = .error (.document .notJson) := by
    simp only [configLookup, SharedStore.config, configWith, only_own]
    rfl
  cases known with
  | none => exact config
  | some known =>
    have revision : s.revision (only (s.payloadEntry key) []) key = .ok none := by
      simp only [SharedStore.revision, only_other _ (payloadEntry_ne_revisionEntry s key).symm]
      rfl
    simp only [lookup, revision]
    exact config

/-- A revision that is not text ends a lookup for which it is read. -/
theorem lookup_only_revision (s : SharedStore) (key : ProjectKey) (known : Revision) :
    (s.lookup (only (s.revisionEntry key) [0xff]) key (some known)).result = .error .badRevision := by
  have revision : s.revision (only (s.revisionEntry key) [0xff]) key = .error .badRevision := by
    simp only [SharedStore.revision, only_own]
    rfl
  simp only [lookup, revision]

end Lookups

/-- The revision of a key is read as the payload of another one: the lookup of `a.rev` misses, until a
revision is stored for `a`. -/
theorem revision_taken_for_payload :
    let s : SharedStore := ⟨"relayconfig"⟩
    let revised := only "relayconfig:a.rev" "5".toUTF8.toList
    "a.rev" ≠ "a" ∧ s.AgreeBeyond "a" (fun _ => .ok none) revised ∧ s.payloadEntry "a.rev" = s.revisionEntry "a" ∧
      (s.lookup (fun _ => .ok none) "a.rev" none).result = .ok .miss ∧
      (s.lookup revised "a.rev" none).result = .error (.document .notAnObject) := by
  intro s revised
  refine ⟨by decide, agreeBeyond_only _ (Or.inr rfl), payloadEntry_suffixed s "a", lookup_empty s "a.rev" none, ?_⟩
  have raw : revised (s.payloadEntry "a.rev") = .ok (some "5".toUTF8.toList) := only_own _ _
  have refused : (match configOf .storing "5".toUTF8.toList with
      | .error fault => some fault
      | .ok _ => none) = some (.document .notAnObject) := by decide +kernel
  have read : configOf .storing "5".toUTF8.toList = .error (.document .notAnObject) := by
    cases read : configOf .storing "5".toUTF8.toList with
    | error fault =>
      rw [read] at refused
      cases refused
      rfl
    | ok config =>
      rw [read] at refused
      cases refused
  simp only [lookup, configLookup, SharedStore.config, configWith, raw]
  exact congrArg (Except.map _) (congrArg (Except.map _) read)

/-- The entries of two keys have different names, except that the revision of a key is the payload of the
key with the suffix. A lookup of a key depends on the entries of another one if it reads such an entry, and
only then: if its own key has the suffix, or if a revision is known and the other key has it. -/
theorem foreign_entries_matter_iff (s : SharedStore) {key other : ProjectKey} (distinct : key ≠ other)
    (known : Option Revision) :
    (s.payloadEntry key ≠ s.payloadEntry other ∧ s.revisionEntry key ≠ s.revisionEntry other ∧
        (s.payloadEntry key = s.revisionEntry other ↔ key = suffixed other) ∧
        (s.revisionEntry key = s.payloadEntry other ↔ other = suffixed key)) ∧
      ((∀ content content', s.AgreeBeyond other content content' →
          (s.lookup content key known).result = (s.lookup content' key known).result) ↔
        key ≠ suffixed other ∧ (known = none ∨ other ≠ suffixed key)) := by
  have payloads : s.payloadEntry key ≠ s.payloadEntry other := mt payloadEntry_inj.mp distinct
  have revisions : s.revisionEntry key ≠ s.revisionEntry other := mt revisionEntry_inj.mp distinct
  have crossed : s.revisionEntry key = s.payloadEntry other ↔ other = suffixed key :=
    eq_comm.trans payloadEntry_eq_revisionEntry
  refine ⟨⟨payloads, revisions, payloadEntry_eq_revisionEntry, crossed⟩, fun separate => ⟨fun same => ?_, ?_⟩, ?_⟩
  · have shared : s.payloadEntry key = s.revisionEntry other := payloadEntry_eq_revisionEntry.mpr same
    have told := separate _ _ (agreeBeyond_only [] (Or.inr shared))
    rw [lookup_empty, lookup_only_payload] at told
    cases told
  · cases known with
    | none => exact Or.inl rfl
    | some known =>
      refine Or.inr fun same => ?_
      have told := separate _ _ (agreeBeyond_only [0xff] (Or.inl (crossed.mpr same)))
      rw [lookup_empty, lookup_only_revision] at told
      cases told
  · rintro ⟨unsuffixed, either⟩ content content' agree
    have payload : content (s.payloadEntry key) = content' (s.payloadEntry key) :=
      agree _ payloads (mt payloadEntry_eq_revisionEntry.mp unsuffixed)
    rw [lookup_congr payload fun some => ?_]
    exact agree _ (mt crossed.mp (either.resolve_left some)) revisions

/-- The payload of `a.rev` does not matter to a lookup of `a` for which no revision is known, and matters
to one for which one is. -/
theorem payload_matters_for_known_revision :
    let s : SharedStore := ⟨"relayconfig"⟩
    "a" ≠ "a.rev" ∧
      (∀ content content', s.AgreeBeyond "a.rev" content content' →
        (s.lookup content "a" none).result = (s.lookup content' "a" none).result) ∧
      ¬ ∀ content content', s.AgreeBeyond "a.rev" content content' →
        (s.lookup content "a" (some "5")).result = (s.lookup content' "a" (some "5")).result := by
  intro s
  have distinct : ("a" : ProjectKey) ≠ "a.rev" := by decide
  refine ⟨distinct, ?_, fun separate => ?_⟩
  · exact (foreign_entries_matter_iff s distinct none).2.mpr ⟨by decide, Or.inl rfl⟩
  · have known := ((foreign_entries_matter_iff s distinct (some "5")).2.mp separate).2
    exact known.elim nofun fun unsuffixed => unsuffixed rfl

end SharedStore

end AdmissionCache
