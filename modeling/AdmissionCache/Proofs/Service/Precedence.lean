import AdmissionCache.Proofs.Service.Batches

namespace AdmissionCache

namespace SharedStore

/-- The store holds a revision for the key: text, whose blanks at either end do not count. -/
def HoldsRevision (s : SharedStore) (content : StoreContent) (key : ProjectKey) (revision : Revision) : Prop :=
  ∃ raw text, content (s.keyPrefix ++ ":" ++ key ++ ".rev") = .ok (some raw) ∧
    String.fromUTF8? ⟨raw.toArray⟩ = some text ∧ Text.trim text = revision

/-- The entry of the revision can be read, and the revision is not this one. -/
def HoldsOtherRevision (s : SharedStore) (content : StoreContent) (key : ProjectKey) (revision : Revision) : Prop :=
  content (s.keyPrefix ++ ":" ++ key ++ ".rev") = .ok none ∨
    ∃ stored, s.HoldsRevision content key stored ∧ stored ≠ revision

/-- The store holds a configuration for the key, compressed or not. -/
def HoldsConfig (s : SharedStore) (content : StoreContent) (key : ProjectKey) (config : ProjectConfig) : Prop :=
  ∃ payload document, content (s.keyPrefix ++ ":" ++ key) = .ok (some payload) ∧
    Compression.decode payload = .ok document ∧ ProjectConfig.ofBytes document = .ok config

/-- What the store says about a key. It says nothing where it has nothing or cannot be read. -/
inductive Says (s : SharedStore) (content : StoreContent) (asked : AskedKey) : Resolution → Prop
  | unchanged {known} : asked.2 = some known → s.HoldsRevision content asked.1 known →
      Says s content asked (.unchanged asked.2)
  | config {config} : (∀ known, asked.2 = some known → s.HoldsOtherRevision content asked.1 known) →
      s.HoldsConfig content asked.1 config → Says s content asked (.config config)

end SharedStore

/-- What the end of a query says about a key that was asked for. -/
inductive AuthoritySays (asked : AskedKey) : Except QueryFault ConfigsResponse → Resolution → Prop
  | unreached {fault} : AuthoritySays asked (.error fault) .failed
  | config {response members} : response.configs.get? asked.1 = some (some (.object members)) →
      AuthoritySays asked (.ok response) (.config ⟨members⟩)
  | deleted {response} : response.configs.get? asked.1 = some none → AuthoritySays asked (.ok response) .notFound
  | invalid {response document} : response.configs.get? asked.1 = some (some document) →
      (∀ members, document ≠ .object members) → AuthoritySays asked (.ok response) .failed
  | unchanged {response} : response.configs.get? asked.1 = none → asked.1 ∈ response.unchanged →
      AuthoritySays asked (.ok response) (.unchanged asked.2)
  | pending {response} : response.configs.get? asked.1 = none → asked.1 ∉ response.unchanged →
      asked.1 ∈ response.pending → AuthoritySays asked (.ok response) .pending
  | unmentioned {response} : response.configs.get? asked.1 = none → asked.1 ∉ response.unchanged →
      asked.1 ∉ response.pending → AuthoritySays asked (.ok response) .notFound

namespace NearSources

def override? (near : NearSources) (key : ProjectKey) : Option ProjectConfig :=
  near.overrides.bind (·.get? key)

/-- Neither the overrides nor the store say anything about a key. -/
def Silent (near : NearSources) (asked : AskedKey) : Prop :=
  near.override? asked.1 = none ∧ ∀ store r, near.store = some store → ¬ store.Says near.content asked r

end NearSources

/-- The resolution of a key: the override, else what the store says, else what the authority
says. -/
inductive Precedence (near : NearSources) (result : Except QueryFault ConfigsResponse) (asked : AskedKey) :
    Resolution → Prop
  | overrides {config} : near.override? asked.1 = some config → Precedence near result asked (.config config)
  | store {store r} : near.override? asked.1 = none → near.store = some store →
      store.Says near.content asked r → Precedence near result asked r
  | authority {r} : near.Silent asked → AuthoritySays asked result r → Precedence near result asked r

namespace SharedStore
variable {s : SharedStore} {content : StoreContent} {key : ProjectKey} {asked : AskedKey}

theorem revision_eq_some {revision : Revision} :
    s.revision content key = .ok (some revision) ↔ s.HoldsRevision content key revision := by
  have named : s.revisionEntry key = s.keyPrefix ++ ":" ++ key ++ ".rev" := rfl
  rw [SharedStore.revision, HoldsRevision, named]
  cases read : content (s.keyPrefix ++ ":" ++ key ++ ".rev") with
  | error fault => simp [bind, Except.bind]
  | ok entry =>
    cases entry with
    | none => simp [bind, Except.bind]
    | some raw =>
      cases text : String.fromUTF8? ⟨raw.toArray⟩ <;>
        simp [bind, Except.bind, Except.map, revisionOf, text]

theorem revision_eq_none :
    s.revision content key = .ok none ↔ content (s.keyPrefix ++ ":" ++ key ++ ".rev") = .ok none := by
  have named : s.revisionEntry key = s.keyPrefix ++ ":" ++ key ++ ".rev" := rfl
  rw [SharedStore.revision, named]
  cases read : content (s.keyPrefix ++ ":" ++ key ++ ".rev") with
  | error fault => simp [bind, Except.bind]
  | ok entry =>
    cases entry with
    | none => simp [bind, Except.bind]
    | some raw =>
      cases text : String.fromUTF8? ⟨raw.toArray⟩ <;>
        simp [bind, Except.bind, Except.map, revisionOf, text]

theorem configLookup_eq_hit {config : ProjectConfig} :
    s.configLookup content key = .ok (.hit config) ↔ s.HoldsConfig content key config := by
  have named : s.payloadEntry key = s.keyPrefix ++ ":" ++ key := rfl
  rw [configLookup, SharedStore.config, configWith, HoldsConfig, named]
  cases read : content (s.keyPrefix ++ ":" ++ key) with
  | error fault => simp [bind, Except.bind, Except.map]
  | ok entry =>
    cases entry with
    | none => simp [bind, Except.bind, Except.map]
    | some payload =>
      rw [Compression.decode]
      cases decoded : Compression.decodeWith .storing payload with
      | error fault => simp [bind, Except.bind, Except.map, configOf, decoded]
      | ok document =>
        cases parsed : ProjectConfig.ofBytes document <;>
          simp [bind, Except.bind, Except.map, configOf, decoded, parsed]

theorem holdsOtherRevision_iff {known : Revision} :
    s.HoldsOtherRevision content key known ↔ ∃ stored, s.revision content key = .ok stored ∧ stored ≠ some known := by
  constructor
  · rintro (absent | ⟨stored, held, differ⟩)
    · exact ⟨none, revision_eq_none.mpr absent, nofun⟩
    · exact ⟨some stored, revision_eq_some.mpr held, fun same => differ (Option.some.inj same)⟩
  · rintro ⟨stored, read, differ⟩
    cases stored with
    | none => exact Or.inl (revision_eq_none.mp read)
    | some stored => exact Or.inr ⟨stored, revision_eq_some.mp read, fun same => differ (congrArg some same)⟩

theorem configLookup_ne_unchanged : s.configLookup content key ≠ .ok .unchanged := by
  unfold configLookup
  cases s.config content key with
  | error fault => exact nofun
  | ok config? => cases config? <;> exact nofun

theorem lookup_eq_unchanged {known : Option Revision} :
    (s.lookup content key known).result = .ok .unchanged ↔
      ∃ revision, known = some revision ∧ s.HoldsRevision content key revision := by
  cases known with
  | none =>
    refine ⟨fun looked => absurd looked configLookup_ne_unchanged, ?_⟩
    rintro ⟨_, differ, _⟩
    cases differ
  | some known =>
    simp only [Option.some.injEq, exists_eq_left', ← revision_eq_some, lookup]
    cases s.revision content key with
    | error fault => simp
    | ok stored =>
      by_cases same : stored = some known
      · simp only [same, if_true]
      · simp only [same, if_false, configLookup_ne_unchanged, Except.ok.injEq]

theorem lookup_eq_hit {known : Option Revision} {config : ProjectConfig} :
    (s.lookup content key known).result = .ok (.hit config) ↔
      (∀ revision, known = some revision → s.HoldsOtherRevision content key revision) ∧
        s.HoldsConfig content key config := by
  cases known with
  | none => simpa [lookup] using configLookup_eq_hit
  | some known =>
    simp only [Option.some.injEq, forall_eq', holdsOtherRevision_iff, lookup]
    cases s.revision content key with
    | error fault => simp
    | ok stored =>
      by_cases same : stored = some known
      · simp [same]
      · simp [same, configLookup_eq_hit]

theorem consultStore_iff {r : Resolution} :
    (NearSources.consultStore s content asked).resolution? = some r ↔ s.Says content asked r := by
  constructor
  · intro told
    simp only [NearSources.consultStore] at told
    split at told
    · rename_i config hit
      cases told
      obtain ⟨other, held⟩ := lookup_eq_hit.mp hit
      exact .config other held
    · rename_i unchanged
      cases told
      obtain ⟨known, sent, held⟩ := lookup_eq_unchanged.mp unchanged
      exact .unchanged sent held
    · cases told
    · cases told
  · intro said
    unfold NearSources.consultStore
    cases said with
    | unchanged sent held =>
      have looked := lookup_eq_unchanged.mpr ⟨_, sent, held⟩
      simp only [looked]
    | config other held =>
      have looked := lookup_eq_hit.mpr ⟨other, held⟩
      simp only [looked]

end SharedStore

namespace NearSources
variable {near : NearSources} {asked : AskedKey}

theorem consult_of_override {config : ProjectConfig} (held : near.override? asked.1 = some config) :
    near.consult asked = ⟨some (.config config), [.ofFetch .overrides "config"], []⟩ := by
  have found : near.overrides.bind (·.get? asked.1) = some config := held
  simp only [consult, found]

theorem consult_of_store {store : SharedStore} (absent : near.override? asked.1 = none)
    (inUse : near.store = some store) : near.consult asked = consultStore store near.content asked := by
  have missing : near.overrides.bind (·.get? asked.1) = none := absent
  simp only [consult, missing, inUse]

theorem consult_of_nothing (absent : near.override? asked.1 = none) (unused : near.store = none) :
    near.consult asked = {} := by
  have missing : near.overrides.bind (·.get? asked.1) = none := absent
  simp only [consult, missing, unused]

theorem consult_eq_none : (near.consult asked).resolution? = none ↔ near.Silent asked := by
  unfold Silent
  cases held : near.override? asked.1 with
  | some config => simp [consult_of_override held]
  | none =>
    cases inUse : near.store with
    | none => simp [consult_of_nothing held inUse]
    | some store =>
      rw [consult_of_store held inUse, Option.eq_none_iff_forall_ne_some]
      simp only [ne_eq, SharedStore.consultStore_iff, Option.some.injEq, true_and]
      constructor
      · rintro silent _ r rfl
        exact silent r
      · exact fun silent r => silent store r rfl

/-- The near sources call unchanged only what was asked for with a revision. -/
theorem consult_unchanged {revision : Option Revision}
    (told : (near.consult asked).resolution? = some (.unchanged revision)) :
    revision = asked.2 ∧ ∃ known, asked.2 = some known := by
  cases held : near.override? asked.1 with
  | some config =>
    rw [consult_of_override held] at told
    cases told
  | none =>
    cases inUse : near.store with
    | none =>
      rw [consult_of_nothing held inUse] at told
      cases told
    | some store =>
      rw [consult_of_store held inUse, SharedStore.consultStore_iff] at told
      cases told with
      | unchanged sent _ => exact ⟨rfl, _, sent⟩

/-- A key that is consulted for is resolved by the first near source that says something. -/
theorem precedence_of_consult {result : Except QueryFault ConfigsResponse} {told r : Resolution}
    (said : (near.consult asked).resolution? = some told) : Precedence near result asked r ↔ r = told := by
  constructor
  · intro resolved
    cases resolved with
    | overrides held =>
      rw [consult_of_override held] at said
      exact Option.some.inj said
    | store absent inUse spoken =>
      rw [consult_of_store absent inUse, SharedStore.consultStore_iff.mpr spoken] at said
      exact Option.some.inj said
    | authority silent =>
      rw [consult_eq_none.mpr silent] at said
      cases said
  · rintro rfl
    cases held : near.override? asked.1 with
    | some config =>
      rw [consult_of_override held] at said
      cases said
      exact .overrides held
    | none =>
      cases inUse : near.store with
      | none =>
        rw [consult_of_nothing held inUse] at said
        cases said
      | some store =>
        rw [consult_of_store held inUse] at said
        exact .store held inUse (SharedStore.consultStore_iff.mp said)

theorem precedence_of_silent {result : Except QueryFault ConfigsResponse} {r : Resolution}
    (silent : near.Silent asked) : Precedence near result asked r ↔ AuthoritySays asked result r := by
  constructor
  · intro resolved
    cases resolved with
    | overrides held =>
      rw [silent.1] at held
      cases held
    | store _ inUse spoken => exact absurd spoken (silent.2 _ _ inUse)
    | authority _ spoken => exact spoken
  · exact .authority silent

end NearSources

namespace ConfigsResponse
variable (response : ConfigsResponse)

theorem outcome_congr {configs configs' : KeyMap (Option Json)} {key : ProjectKey}
    (same : configs.get? key = configs'.get? key) : response.outcome configs key = response.outcome configs' key := by
  unfold outcome
  rw [same]

theorem foldl_takeOutcome_other {key : ProjectKey} {requested : List ProjectKey} (absent : key ∉ requested)
    (state : KeyMap (Option Json) × KeyMap KeyOutcome) :
    (requested.foldl response.takeOutcome state).2.get? key = state.2.get? key := by
  induction requested generalizing state with
  | nil => rfl
  | cons first rest ih =>
    rw [List.mem_cons, not_or] at absent
    rw [List.foldl_cons, ih absent.2]
    exact KeyMap.get?_insert_of_ne _ absent.1

/-- A key that is requested once takes its own document, whatever is requested besides. -/
theorem get?_outcomes {key : ProjectKey} {requested : List ProjectKey} (distinct : requested.Nodup)
    (member : key ∈ requested) :
    (response.outcomes requested).get? key = some (response.outcome response.configs key) := by
  have taken (state : KeyMap (Option Json) × KeyMap KeyOutcome)
      (untaken : state.1.get? key = response.configs.get? key) :
      (requested.foldl response.takeOutcome state).2.get? key =
        some (response.outcome response.configs key) := by
    induction requested generalizing state with
    | nil => cases member
    | cons first rest ih =>
      rw [List.nodup_cons] at distinct
      rw [List.foldl_cons]
      rcases List.mem_cons.mp member with rfl | later
      · rw [foldl_takeOutcome_other response distinct.1]
        exact (KeyMap.get?_insert_self ..).trans (congrArg some (response.outcome_congr untaken))
      · have differ : key ≠ first := fun same => distinct.1 (same ▸ later)
        refine ih distinct.2 later _ ?_
        exact (KeyMap.get?_erase ..).trans ((if_neg differ).trans untaken)
  exact taken (response.configs, ∅) rfl

end ConfigsResponse

/-- The resolution that the end of a query brings for a key. -/
def verdict (result : Except QueryFault ConfigsResponse) (asked : AskedKey) : Resolution :=
  match result with
  | .ok response => .ofOutcome asked.2 (some (response.outcome response.configs asked.1))
  | .error _ => .failed

theorem authoritySays_verdict (result : Except QueryFault ConfigsResponse) (asked : AskedKey) :
    AuthoritySays asked result (verdict result asked) := by
  unfold verdict
  cases result with
  | error fault => exact .unreached
  | ok response =>
    simp only [ConfigsResponse.outcome]
    split
    · rename_i document found
      cases document with
      | object members => exact .config found
      | _ => exact .invalid found nofun
    · rename_i deleted
      exact .deleted deleted
    · rename_i unlisted
      split
      · rename_i unchanged
        exact .unchanged unlisted (List.contains_iff_mem.mp unchanged)
      · rename_i changed
        rw [List.contains_iff_mem] at changed
        split
        · rename_i pending
          exact .pending unlisted changed (List.contains_iff_mem.mp pending)
        · rename_i ready
          exact .unmentioned unlisted changed fun member => ready (List.contains_iff_mem.mpr member)

theorem AuthoritySays.eq_verdict {asked : AskedKey} {result : Except QueryFault ConfigsResponse} {r : Resolution}
    (said : AuthoritySays asked result r) : r = verdict result asked := by
  cases said with
  | unreached => rfl
  | config found => simp only [verdict, ConfigsResponse.outcome, found, ProjectConfig.ofJson, Resolution.ofOutcome]
  | deleted found => simp only [verdict, ConfigsResponse.outcome, found, Resolution.ofOutcome]
  | @invalid _ document found differs =>
    have refused : ∃ fault, ProjectConfig.ofJson document = .error fault := by
      cases document with
      | object members => exact absurd rfl (differs members)
      | _ => exact ⟨_, rfl⟩
    obtain ⟨fault, refused⟩ := refused
    simp only [verdict, ConfigsResponse.outcome, found, refused, Resolution.ofOutcome]
  | unchanged unlisted member =>
    simp [verdict, ConfigsResponse.outcome, unlisted, member, Resolution.ofOutcome]
  | pending unlisted changed member =>
    simp [verdict, ConfigsResponse.outcome, unlisted, changed, member, Resolution.ofOutcome]
  | unmentioned unlisted changed ready =>
    simp [verdict, ConfigsResponse.outcome, unlisted, changed, ready, Resolution.ofOutcome]

theorem authoritySays_iff {asked : AskedKey} {result : Except QueryFault ConfigsResponse} {r : Resolution} :
    AuthoritySays asked result r ↔ r = verdict result asked :=
  ⟨AuthoritySays.eq_verdict, fun same => same ▸ authoritySays_verdict result asked⟩

theorem answersOf_eq {asked : List AskedKey} (distinct : (asked.map (·.1)).Nodup)
    (result : Except QueryFault ConfigsResponse) :
    answersOf asked result = asked.map fun a => (a.1, verdict result a) := by
  cases result with
  | error fault => rfl
  | ok response =>
    refine List.map_congr_left fun a member => ?_
    rw [response.get?_outcomes distinct (List.mem_map_of_mem member)]
    rfl

theorem exists_findIdx? {batch : List AskedKey} (distinct : (batch.map (·.1)).Nodup) {asked : AskedKey}
    (member : asked ∈ batch) :
    ∃ i, (batch.map (·.1)).findIdx? (· == asked.1) = some i ∧ batch[i]? = some asked := by
  induction batch with
  | nil => cases member
  | cons head rest ih =>
    rw [List.map_cons, List.nodup_cons] at distinct
    rcases List.mem_cons.mp member with rfl | later
    · exact ⟨0, by simp [List.findIdx?_cons], rfl⟩
    · have differ : head.1 ≠ asked.1 := fun same => distinct.1 (same ▸ List.mem_map_of_mem later)
      obtain ⟨i, found, here⟩ := ih distinct.2 later
      refine ⟨i + 1, ?_, here⟩
      rw [List.map_cons, List.findIdx?_cons, found]
      simp [differ]

/-- The request says of each key of a batch just the revision that it came with. -/
theorem ConfigsRequest.revision?_ofBatch {batch : List AskedKey} (distinct : (batch.map (·.1)).Nodup)
    {asked : AskedKey} (member : asked ∈ batch) : (ConfigsRequest.ofBatch batch).revision? asked.1 = asked.2 := by
  obtain ⟨i, found, here⟩ := exists_findIdx? distinct member
  simp only [revision?, ofBatch, found, Option.bind_eq_bind, Option.bind_some]
  split
  · rw [Option.bind_some, List.getElem?_map, here]
    rfl
  · rename_i none
    rw [Bool.not_eq_true, List.any_eq_false] at none
    have unsent := none asked member
    rw [Bool.not_eq_true, Option.isSome_eq_false_iff, Option.isNone_iff_eq_none] at unsent
    rw [unsent, Option.bind_none]

section Batchwise
variable (said : AskedKey → Option Resolution)

theorem Findings.foldl_add (batch : List AskedKey) (f : Findings) :
    batch.foldl (fun f asked => f.add asked (said asked)) f =
      ⟨f.resolved ++ batch.filterMap fun asked => (said asked).map (asked.1, ·),
        f.remaining ++ batch.filter fun asked => (said asked).isNone⟩ := by
  induction batch generalizing f with
  | nil => simp
  | cons head rest ih =>
    rw [List.foldl_cons, ih]
    cases told : said head <;> simp [add, told]

/-- Near resolutions first and the others last, no key is lost and none comes twice. -/
theorem filterMap_append_perm (last : AskedKey → Resolution) (batch : List AskedKey) :
    ((batch.filterMap fun asked => (said asked).map (asked.1, ·)) ++
        (batch.filter fun asked => (said asked).isNone).map fun asked => (asked.1, last asked)).Perm
      (batch.map fun asked => (asked.1, (said asked).getD (last asked))) := by
  induction batch with
  | nil => exact .refl _
  | cons head rest ih =>
    cases told : said head with
    | none =>
      rw [List.filterMap_cons_none (by rw [told]; rfl), List.filter_cons_of_pos (by rw [told]; rfl), List.map_cons,
        List.map_cons, told]
      exact List.perm_middle.trans (ih.cons _)
    | some r =>
      rw [List.filterMap_cons_some (by rw [told]; rfl), List.filter_cons_of_neg (by rw [told]; exact nofun),
        List.map_cons, told]
      exact ih.cons _

end Batchwise

/-- A batch is resolved as it should be: every key once and by the rules, the authority being
asked at most once, for what the near sources leave, each key with its own revision. No entry
of the store is read for an overridden key. -/
structure ByPrecedence (near : ProjectKey → NearSources) (authority : ConfigsRequest → Except QueryFault ConfigsResponse)
    (batch remaining : List AskedKey) (report : BatchReport) : Prop where
  once : (report.resolved.map (·.1)).Perm (batch.map (·.1))
  precedence : ∀ asked ∈ batch, ∀ r, (asked.1, r) ∈ report.resolved ↔
    Precedence (near asked.1) (authority (.ofBatch remaining)) asked r
  left : remaining.Sublist batch ∧ ∀ asked ∈ batch, asked ∈ remaining ↔ (near asked.1).Silent asked
  requests : report.requests = if remaining = [] then [] else [.ofBatch remaining]
  paired : ∀ asked ∈ remaining, (ConfigsRequest.ofBatch remaining).revision? asked.1 = asked.2
  unread : ∀ key entry, (key, entry) ∈ report.reads → (near key).override? key = none

section Resolve
variable (near : ProjectKey → NearSources) (authority : ConfigsRequest → Except QueryFault ConfigsResponse)
  {batch : List AskedKey}

/-- What the near sources say about the keys of a batch, each asked on its own. -/
def saidNear (asked : AskedKey) : Option Resolution := ((near asked.1).consult asked).resolution?

/-- The keys of a batch that the near sources leave. -/
def leftOver (batch : List AskedKey) : List AskedKey := batch.filter fun asked => (saidNear near asked).isNone

theorem Findings.ofBatch_eq (batch : List AskedKey) :
    Findings.ofBatch near batch =
      ⟨batch.filterMap fun asked => (saidNear near asked).map (asked.1, ·), leftOver near batch⟩ := by
  have folded := Findings.foldl_add (saidNear near) batch {}
  rw [List.nil_append, List.nil_append] at folded
  exact folded

theorem resolveBatch_requests (batch : List AskedKey) :
    (resolveBatch near authority batch).requests =
      if leftOver near batch = [] then [] else [.ofBatch (leftOver near batch)] := by
  simp only [resolveBatch, Findings.ofBatch_eq]
  split
  · rename_i empty
    exact (if_pos empty).symm
  · rename_i some
    exact (if_neg some).symm

theorem resolveBatch_resolved (batch : List AskedKey) :
    (resolveBatch near authority batch).resolved =
      (Findings.ofBatch near batch).answered (authority (.ofBatch (leftOver near batch))) := by
  simp only [resolveBatch, Findings.ofBatch_eq, Findings.answered]
  split
  · rename_i empty
    rw [empty, answersOf_nil, List.append_nil]
  · rfl

theorem resolveBatch_perm (distinct : (batch.map (·.1)).Nodup) :
    (resolveBatch near authority batch).resolved.Perm (batch.map fun asked =>
      (asked.1, (saidNear near asked).getD (verdict (authority (.ofBatch (leftOver near batch))) asked))) := by
  have fewer : ((leftOver near batch).map (·.1)).Nodup := distinct.sublist (List.filter_sublist.map _)
  rw [resolveBatch_resolved, Findings.answered, Findings.ofBatch_eq, answersOf_eq fewer]
  exact filterMap_append_perm ..

theorem precedence_iff {result : Except QueryFault ConfigsResponse} {asked : AskedKey} {r : Resolution} :
    Precedence (near asked.1) result asked r ↔ r = (saidNear near asked).getD (verdict result asked) := by
  cases told : saidNear near asked with
  | none =>
    rw [NearSources.precedence_of_silent (NearSources.consult_eq_none.mp told), authoritySays_iff]
    rfl
  | some said => exact NearSources.precedence_of_consult told

theorem resolveBatch_byPrecedence (distinct : (batch.map (·.1)).Nodup) :
    ByPrecedence near authority batch (leftOver near batch) (resolveBatch near authority batch) := by
  have perm := resolveBatch_perm near authority distinct
  have fewer : (leftOver near batch).Sublist batch := List.filter_sublist
  refine ⟨?_, ?_, ⟨fewer, ?_⟩, resolveBatch_requests .., ?_, ?_⟩
  · have keys := perm.map (·.1)
    rw [List.map_map] at keys
    exact keys
  · intro asked member r
    rw [perm.mem_iff, precedence_iff, List.mem_map]
    constructor
    · rintro ⟨other, inside, same⟩
      obtain ⟨key, told⟩ := Prod.mk.inj same
      obtain rfl := List.inj_on_of_nodup_map distinct inside member key
      exact told.symm
    · rintro rfl
      exact ⟨asked, member, rfl⟩
  · intro asked member
    rw [leftOver, List.mem_filter, Option.isNone_iff_eq_none, saidNear, NearSources.consult_eq_none]
    exact and_iff_right member
  · exact fun asked member => ConfigsRequest.revision?_ofBatch (distinct.sublist (fewer.map _)) member
  · intro key entry read
    have gathered : (resolveBatch near authority batch).reads =
        batch.flatMap fun asked => ((near asked.1).consult asked).entries.map (asked.1, ·) := by
      simp only [resolveBatch]
      split <;> rfl
    rw [gathered] at read
    obtain ⟨asked, _, read⟩ := List.mem_flatMap.mp read
    obtain ⟨_, read, same⟩ := List.mem_map.mp read
    cases same
    cases held : (near asked.1).override? asked.1 with
    | none => rfl
    | some config =>
      rw [NearSources.consult_of_override held] at read
      cases read

end Resolve

namespace Service

/-- The near sources are consulted for the keys of a batch one after the other. -/
def consultations (id : Nat) (contents : ProjectKey → StoreContent) (batch : List AskedKey) : List Event :=
  batch.map fun asked => .consult id (contents asked.1)

/-- The question that the authority is asked then, if there is one. -/
def questionAfter (s : Service) (id : Nat) (contents : ProjectKey → StoreContent) (batch : List AskedKey) :
    Option ConfigsRequest :=
  (((s.run (consultations id contents batch)).batch? id).bind Batch.question?).map .ofBatch

/-- A batch is taken through all its steps. -/
def conduct (s : Service) (id : Nat) (contents : ProjectKey → StoreContent)
    (authority : ConfigsRequest → Except QueryFault ConfigsResponse) (batch : List AskedKey) : Service :=
  (s.run (consultations id contents batch)).run
    ((s.questionAfter id contents batch).toList.map fun request => .answer id (authority request))

section Conduct
variable {s : Service} {b : Batch} (contents : ProjectKey → StoreContent)
  {authority : ConfigsRequest → Except QueryFault ConfigsResponse} {batch : List AskedKey}

theorem run_consultations {left : List AskedKey} {findings : Findings} (found : s.batch? b.id = some b)
    (progress : b.progress = .after left findings) :
    (s.run (consultations b.id contents left)).batch? b.id = some { b with
      progress := .after [] (left.foldl (fun f asked =>
        f.add asked ((s.nearSources (contents asked.1)).consult asked).resolution?) findings) } := by
  induction left generalizing s b findings with
  | nil =>
    rw [List.foldl_nil, ← progress]
    exact found
  | cons asked left ih =>
    obtain ⟨samples, after⟩ := consult_step found (progress.trans (BatchProgress.after_cons ..)) (contents asked.1)
    generalize told : findings.add asked ((s.nearSources (contents asked.1)).consult asked).resolution? = next at after
    have replaced : (s.step (.consult b.id (contents asked.1))).batch? b.id =
        some { b with progress := .after left next } := by
      rw [after]
      exact batch?_setBatch found rfl
    have rest := ih (b := { b with progress := .after left next }) replaced rfl
    have near : ∀ content, (s.step (.consult b.id (contents asked.1))).nearSources content = s.nearSources content := by
      intro content
      rw [after]
      rfl
    simp only [near] at rest
    rw [List.foldl_cons, told]
    exact rest

/-- The steps of a batch come to what is said of the batch as a whole. -/
theorem conduct_eq (found : s.batch? b.id = some b) (progress : b.progress = .open batch {})
    (nonempty : batch ≠ []) :
    (s.questionAfter b.id contents batch).toList =
        (resolveBatch (fun key => s.nearSources (contents key)) authority batch).requests ∧
      (s.conduct b.id contents authority batch).batch? b.id = some { b with
        progress :=
          .resolved (resolveBatch (fun key => s.nearSources (contents key)) authority batch).resolved } := by
  have unconsulted : BatchProgress.after batch {} = .open batch {} := by
    cases batch with
    | nil => exact absurd rfl nonempty
    | cons _ _ => rfl
  have consulted := run_consultations contents found (progress.trans unconsulted.symm)
  rw [resolveBatch_resolved, resolveBatch_requests]
  generalize near : (fun key => s.nearSources (contents key)) = sources
  have findings : (batch.foldl (fun f asked =>
      f.add asked ((s.nearSources (contents asked.1)).consult asked).resolution?) {}) =
      Findings.ofBatch sources batch := by
    rw [← near]
    rfl
  have remaining : (Findings.ofBatch sources batch).remaining = leftOver sources batch := by
    rw [Findings.ofBatch_eq]
  rw [findings] at consulted
  cases left : leftOver sources batch with
  | nil =>
    rw [BatchProgress.after_nil (remaining.trans left)] at consulted
    have question : s.questionAfter b.id contents batch = none := by
      rw [questionAfter, consulted]
      rfl
    rw [conduct, question, Findings.answered, remaining, left, answersOf_nil, List.append_nil]
    exact ⟨rfl, consulted⟩
  | cons asked rest =>
    have unanswered : (Findings.ofBatch sources batch).remaining ≠ [] := by
      rw [remaining, left]
      exact List.cons_ne_nil asked rest
    rw [BatchProgress.after_nil_of_ne unanswered] at consulted
    have question : s.questionAfter b.id contents batch = some (.ofBatch (asked :: rest)) := by
      rw [questionAfter, consulted, ← left, ← remaining]
      rfl
    rw [conduct, question]
    exact ⟨rfl, batch?_answer (b := { b with progress := .open [] (Findings.ofBatch sources batch) }) consulted rfl _⟩

end Conduct

end Service

/-- Every batch of distinct keys is resolved by precedence, whatever mix of sources its keys
come from; and this is what a batch of the service comes to that is taken through its steps. -/
theorem batch_resolved_by_precedence (near : ProjectKey → NearSources)
    (authority : ConfigsRequest → Except QueryFault ConfigsResponse) (batch : List AskedKey)
    (distinct : (batch.map (·.1)).Nodup) :
    (∃ remaining, ByPrecedence near authority batch remaining (resolveBatch near authority batch)) ∧
    ∀ (s : Service) (id : Nat) (stamp : Instant) (keys : List ProjectKey) (contents : ProjectKey → StoreContent),
      near = (fun key => s.nearSources (contents key)) → batch ≠ [] →
      s.batch? id = some ⟨id, stamp, keys, .open batch {}⟩ →
      (s.questionAfter id contents batch).toList = (resolveBatch near authority batch).requests ∧
      (s.conduct id contents authority batch).batch? id =
        some ⟨id, stamp, keys, .resolved (resolveBatch near authority batch).resolved⟩ := by
  refine ⟨⟨_, resolveBatch_byPrecedence near authority distinct⟩, ?_⟩
  rintro s id stamp keys contents rfl nonempty found
  exact Service.conduct_eq contents (b := ⟨id, stamp, keys, .open batch {}⟩) found rfl nonempty

/-- One key is overridden, one is in the store, and the store fails for the third. -/
theorem mixed_batch_resolved :
    let batch : List AskedKey := [("a", none), ("b", none), ("c", none)]
    let s := ((Service.start ⟨.ofSecs 60, .zero, .ofSecs 10⟩
        { batchSize := 10, queryTimeout := .ofSecs 30, store := some ⟨"projects"⟩ } true).step
      (.reload (.entries [⟨"a.json".toUTF8.toList, some "\x7b\x7d".toUTF8.toList⟩]) .origin)).startBatch
        (.ofMillis 2) batch
    let contents : ProjectKey → StoreContent := fun _ entry =>
      if entry = "projects:b" then .ok (some "\x7b\x7d".toUTF8.toList) else .error MemoryStore.refusal
    let authority : ConfigsRequest → Except QueryFault ConfigsResponse := fun _ => .ok { pending := ["c"] }
    let report := resolveBatch (fun key => s.nearSources (contents key)) authority batch
    (∃ remaining, ByPrecedence (fun key => s.nearSources (contents key)) authority batch remaining report) ∧
    ((s.questionAfter 0 contents batch).toList = report.requests ∧
      (s.conduct 0 contents authority batch).batch? 0 =
        some ⟨0, .ofMillis 2, ["a", "b", "c"], .resolved report.resolved⟩) ∧
    report.resolved.map (fun r => (r.1, r.2.name)) = [("a", "config"), ("b", "config"), ("c", "pending")] := by
  intro batch s contents authority report
  obtain ⟨resolved, conducted⟩ := batch_resolved_by_precedence
    (fun key => s.nearSources (contents key)) authority batch (by decide)
  refine ⟨resolved, conducted s 0 (.ofMillis 2) ["a", "b", "c"] contents rfl nofun rfl, ?_⟩
  decide +kernel

end AdmissionCache
