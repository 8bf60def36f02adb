import AdmissionCache.Proofs.Cache.Operations
import AdmissionCache.Proofs.Record.Faults
import AdmissionCache.Proofs.Time.Seconds
import AdmissionCache.Settings.Service

namespace AdmissionCache

section Durations

variable {β σ : Type} [Readable β]

theorem overflow_ne_malformed : ReadFault.durationOverflow ≠ .malformed := nofun

theorem readDuration_eq_overflow [Legible β] {b : β} :
    readDuration b = .error .durationOverflow ↔ ∃ x, readNumber b = .ok x ∧ x.Oversized := by
  rw [readDuration, bind_eq_error, or_iff_right ((readNumber_shape b).ne overflow_ne_malformed)]
  refine exists_congr fun x => and_congr_right fun _ => ?_
  split
  · rename_i bad
    refine iff_of_false nofun fun oversized => ?_
    obtain ⟨finite, notNegative⟩ := oversized.lt_zero
    rw [finite, notNegative] at bad
    cases bad
  · rename_i counts
    rw [Bool.or_eq_true, not_or, Bool.not_eq_true', Bool.not_eq_false, Bool.not_eq_true] at counts
    rw [← Duration.ofSeconds?_eq_none counts.1 counts.2]
    cases Duration.ofSeconds? x with
    | none => exact iff_of_true rfl rfl
    | some d => exact iff_of_false nofun nofun

/-- Reading a record from `b` comes to `v` in one of the named fields. -/
def ComesTo (fields : List (Field β σ)) (start : σ) (names : List String) (b v : β) : Prop :=
  ∃ field record, Comes fields start b field v record ∧ field.name ∈ names

/-- The named fields are durations, and the other ones need no more than the right shape. -/
def DurationsNamed (names : List String) (fields : List (Field β σ)) : Prop :=
  ∀ field ∈ fields, ∀ v record, field.enter v record = .error .durationOverflow ↔
    field.name ∈ names ∧ readDuration v = .error .durationOverflow

theorem readRecord_eq_overflow [Legible β] {names : List String} {fields : List (Field β σ)}
    (durations : DurationsNamed names fields) {start : σ} {b : β} :
    readRecord fields start b = .error .durationOverflow ↔
      ∃ v, ComesTo fields start names b v ∧ readDuration v = .error .durationOverflow := by
  rw [readRecord_eq_error_iff overflow_ne_malformed]
  constructor
  · rintro ⟨field, v, record, comes, refused⟩
    obtain ⟨named, overflow⟩ := (durations field comes.mem v record).mp refused
    exact ⟨v, ⟨field, record, comes, named⟩, overflow⟩
  · rintro ⟨v, ⟨field, record, comes, named⟩, overflow⟩
    exact ⟨field, v, record, comes, (durations field comes.mem v record).mpr ⟨named, overflow⟩⟩

end Durations

def AuthoritySettings.durations : List String := ["initial_backoff", "max_backoff", "timeout"]

def CacheSettings.durations : List String :=
  ["project_expiry", "project_grace_period", "miss_expiry", "file_interval", "global_config_interval",
    "eviction_interval"]

def Limits.durations : List String := ["query_timeout"]

section Sections

variable {β : Type} [Readable β] [Legible β]

theorem readUrl_shape (b : β) : AtWorstMalformed (readUrl b) :=
  (readText_shape b).bind fun s => by split <;> simp

theorem Listener.read_shape (b : β) : AtWorstMalformed (Listener.read b) := by
  refine readRecord_shape fun field member v record => ?_
  simp only [fields, List.mem_cons, List.not_mem_nil, or_false] at member
  obtain rfl | rfl := member
  · exact (readText_shape v).bind fun _ => atWorstMalformed_ok _
  · exact (readNat_shape _ v).bind fun _ => atWorstMalformed_ok _

theorem SharedSettings.read_shape (b : β) : AtWorstMalformed (SharedSettings.read b) := by
  refine readRecord_shape fun field member v record => ?_
  simp only [fields, List.mem_cons, List.not_mem_nil, or_false] at member
  obtain rfl | rfl := member <;> exact (readText_shape v).bind fun _ => atWorstMalformed_ok _

theorem OverrideSettings.read_shape (b : β) : AtWorstMalformed (OverrideSettings.read b) := by
  refine readRecord_shape fun field member v record => ?_
  cases List.mem_singleton.mp member
  exact (readText_shape v).bind fun _ => atWorstMalformed_ok _

theorem AuthoritySettings.durationsNamed : DurationsNamed durations (fields : List (Field β AuthoritySettings)) := by
  intro field member v record
  have url := (readUrl_shape v).ne overflow_ne_malformed
  have multiplier := (readNumber_shape v).ne overflow_ne_malformed
  simp only [fields, List.mem_cons, List.not_mem_nil, or_false] at member
  rcases member with rfl | rfl | rfl | rfl | rfl <;> simp [bind_ok_eq_error, durations, url, multiplier]

theorem CacheSettings.durationsNamed : DurationsNamed durations (fields : List (Field β CacheSettings)) := by
  intro field member v record
  have interval := (readMillis_shape v).ne overflow_ne_malformed
  have size (bound : Nat) := (readNat_shape bound v).ne overflow_ne_malformed
  simp only [fields, List.mem_cons, List.not_mem_nil, or_false] at member
  rcases member with rfl | rfl | rfl | rfl | rfl | rfl | rfl | rfl <;>
    simp [bind_ok_eq_error, durations, interval, size]

omit [Legible β] in
theorem Limits.durationsNamed : DurationsNamed durations (fields : List (Field β Limits)) := by
  intro field member v record
  cases List.mem_singleton.mp member
  simp [bind_ok_eq_error, durations]

namespace Settings

/-- Reading a section of that name from `values` comes to the value `v` of a duration. -/
def SectionComesTo (name : String) (values v : β) : Prop :=
  name = "upstream" ∧ ComesTo AuthoritySettings.fields {} AuthoritySettings.durations values v ∨
  name = "cache" ∧ ComesTo CacheSettings.fields {} CacheSettings.durations values v ∨
  name = "limits" ∧ ComesTo Limits.fields {} Limits.durations values v

theorem enter_eq_overflow {field : Field β Settings} (member : field ∈ fields) (values : β) (record : Settings) :
    field.enter values record = .error .durationOverflow ↔
      ∃ v, SectionComesTo field.name values v ∧ readDuration v = .error .durationOverflow := by
  have listener := (Listener.read_shape values).ne overflow_ne_malformed
  have authority : AuthoritySettings.read values = .error .durationOverflow ↔ _ :=
    readRecord_eq_overflow AuthoritySettings.durationsNamed
  have cache : CacheSettings.read values = .error .durationOverflow ↔ _ :=
    readRecord_eq_overflow CacheSettings.durationsNamed
  have limits : Limits.read values = .error .durationOverflow ↔ _ :=
    readRecord_eq_overflow Limits.durationsNamed
  have shared := (readOption_shape SharedSettings.read_shape values).ne overflow_ne_malformed
  have overrides := (readOption_shape OverrideSettings.read_shape values).ne overflow_ne_malformed
  simp only [fields, List.mem_cons, List.not_mem_nil, or_false] at member
  rcases member with rfl | rfl | rfl | rfl | rfl | rfl <;> rw [bind_ok_eq_error]
  · simp [SectionComesTo, listener]
  · simpa [SectionComesTo] using authority
  · simpa [SectionComesTo] using cache
  · simpa [SectionComesTo] using limits
  · simp [SectionComesTo, shared]
  · simp [SectionComesTo, overrides]

/-- Reading the settings from `b` comes to the value `v` of a duration. -/
def ComesToDuration (b v : β) : Prop :=
  ∃ field values record, Comes fields {} b field values record ∧ SectionComesTo field.name values v

theorem read_eq_overflow {b : β} :
    read b = .error .durationOverflow ↔ ∃ v, ComesToDuration b v ∧ readDuration v = .error .durationOverflow := by
  rw [read, readRecord_eq_error_iff overflow_ne_malformed]
  constructor
  · rintro ⟨field, values, record, comes, refused⟩
    obtain ⟨v, within, overflow⟩ := (enter_eq_overflow comes.mem values record).mp refused
    exact ⟨v, ⟨field, values, record, comes, within⟩, overflow⟩
  · rintro ⟨v, ⟨field, values, record, comes, within⟩, overflow⟩
    exact ⟨field, values, record, comes, (enter_eq_overflow comes.mem values record).mpr ⟨v, within, overflow⟩⟩

/-- Reading the settings ends for good only where it comes to an oversized number of seconds
for a duration. A cache under the policy of settings that are accepted never fails, unless the
expiry and the grace period are too long to be added and something can be as old as the expiry. -/
theorem loads_safely_iff (b : β) :
    (read b ≠ .error .durationOverflow ↔
      ∀ v x, ComesToDuration b v → readNumber v = .ok x → ¬ x.Oversized) ∧
    ∀ s, read b = .ok s → s.fault? = none →
      (s.cache.policy.NeverFails ↔ s.cache.policy.Bounded ∨ Instant.bound ≤ s.cache.projectExpiry.nanos) := by
  refine ⟨?_, fun s _ _ => Policy.neverFails_iff⟩
  rw [Ne, read_eq_overflow]
  constructor
  · intro safe v x comesTo number oversized
    exact safe ⟨v, comesTo, readDuration_eq_overflow.mpr ⟨x, number, oversized⟩⟩
  · rintro small ⟨v, comesTo, overflow⟩
    obtain ⟨x, number, oversized⟩ := readDuration_eq_overflow.mp overflow
    exact small v x comesTo number oversized

theorem ordinary_settings_load_safely :
    let b : Json := .object [("cache", .object
      [("project_expiry", .number (.integer 4096)), ("project_grace_period", .number (.integer 60))])]
    let s : Settings := { cache := { projectExpiry := .ofSecs 4096, projectGracePeriod := .ofSecs 60 } }
    (∀ v x, ComesToDuration b v → readNumber v = .ok x → ¬ x.Oversized) ∧
      read b = .ok s ∧ s.fault? = none ∧ s.cache.policy.NeverFails := by
  intro b s
  have loaded : read b = .ok s := by rfl
  have accepted : s.fault? = none := by decide +kernel
  obtain ⟨small, safe⟩ := loads_safely_iff b
  refine ⟨small.mp ?_, loaded, accepted, (safe s loaded accepted).mpr (Or.inl ?_)⟩
  · rw [loaded]
    exact nofun
  · decide +kernel

/-- An expiry of `10 ^ 20` seconds ends the reading for good, and a grace period just below
`2 ^ 64` seconds is accepted although it makes the first lookup after the expiry fail. -/
theorem endless_periods_fail :
    let endless : Json := .object [("cache", .object
      [("project_expiry", .number (.fraction (.finite false 6103515625000000 14)))])]
    let b : Json := .object [("cache", .object
      [("project_expiry", .number (.integer 4096)),
        ("project_grace_period", .number (.integer 18446744073709549568))])]
    let s : Settings :=
      { cache := { projectExpiry := .ofSecs 4096, projectGracePeriod := .ofSecs 18446744073709549568 } }
    let c : Cache := (({ policy := s.cache.policy } : Cache).put "a" ⟨[]⟩ .origin).1
    read endless = .error .durationOverflow ∧
      read b = .ok s ∧ s.fault? = none ∧ Cache.Reached s.cache.policy c ∧
        c.get "a" (.ofMillis 4096000) = .error .graceEnd := by
  intro endless b s c
  refine ⟨by rfl, by rfl, by decide +kernel, .put _ _ _ .empty, ?_⟩
  exact Cache.get_fails (by decide +kernel) (by decide +kernel) "a" ⟨[]⟩

end Settings

end Sections

end AdmissionCache
