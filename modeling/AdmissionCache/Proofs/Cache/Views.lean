import AdmissionCache.Cache.Table
import Mathlib.Tactic.SplitIfs

namespace AdmissionCache

/-- What a completion stamped `stamp` makes of knowledge: nothing if something later was
learned already, else what `learn` makes of it. -/
def Knowledge.settle (stamp : Instant) (learn : Knowledge → Option Knowledge) (k : Knowledge) :
    Option Knowledge :=
  if k.learnedAt?.any fun learnedAt => stamp.nanos < learnedAt.nanos then none else learn k

theorem Knowledge.settle_of_later {stamp learnedAt : Instant} {learn : Knowledge → Option Knowledge}
    {k : Knowledge} (known : k.learnedAt? = some learnedAt) (later : stamp.nanos < learnedAt.nanos) :
    k.settle stamp learn = none := by
  simp only [settle, known, Option.any_some, later, decide_true, if_true]

/-- Nothing is known that was learned later than at `stamp`. -/
def Knowledge.UpTo (stamp : Instant) (k : Knowledge) : Prop :=
  ∀ learnedAt, k.learnedAt? = some learnedAt → learnedAt.nanos ≤ stamp.nanos

theorem Knowledge.UpTo.settle {stamp : Instant} {k : Knowledge} (upTo : k.UpTo stamp)
    (learn : Knowledge → Option Knowledge) : k.settle stamp learn = learn k := by
  unfold Knowledge.settle
  cases known : k.learnedAt? with
  | none => rfl
  | some learnedAt =>
    have bound := upTo learnedAt known
    exact if_neg (by rw [Option.any_some, decide_eq_true_iff]; omega)

/-- A completion that is taken is no older than what it replaces. -/
theorem Knowledge.settle_eq_some {stamp : Instant} {learn : Knowledge → Option Knowledge}
    {k learned : Knowledge} (taken : k.settle stamp learn = some learned) :
    learn k = some learned ∧ ∀ learnedAt, k.learnedAt? = some learnedAt → learnedAt.nanos ≤ stamp.nanos := by
  unfold settle at taken
  split at taken
  · cases taken
  · rename_i notOutdated
    refine ⟨taken, fun learnedAt known => ?_⟩
    simp only [known, Option.any_some, decide_eq_true_eq] at notOutdated
    omega

theorem Slot.complete_eq (s : Slot) (stamp : Instant) (learn : Knowledge → Option Knowledge) :
    s.complete stamp learn =
      (⟨(s.knowledge.settle stamp learn).getD s.knowledge, false⟩,
        (s.knowledge.settle stamp learn).isSome) := by
  unfold Slot.complete Knowledge.settle
  cases s.knowledge.learnedAt? with
  | none =>
    simp only [Option.any_none, Bool.false_eq_true, if_false]
    split <;> rename_i learned <;> simp only [learned, Option.getD_some, Option.getD_none,
      Option.isSome_some, Option.isSome_none]
  | some learnedAt =>
    simp only [Option.any_some]
    split
    · simp only [Option.getD_none, Option.isSome_none]
    · split <;> rename_i learned <;> simp only [learned, Option.getD_some, Option.getD_none,
        Option.isSome_some, Option.isSome_none]

theorem Policy.classify_eq (p : Policy) (fetchedAt now : Instant) :
    p.classify fetchedAt now =
      if now.nanos - fetchedAt.nanos < p.expiry.nanos then .ok .fresh
      else if p.Bounded then
        if now.nanos - fetchedAt.nanos < p.expiry.nanos + p.grace.nanos then .ok .stale else .ok .expired
      else .error .graceEnd := by
  by_cases bounded : p.Bounded
  · have sum : p.expiry.add? p.grace = some ⟨p.expiry.nanos + p.grace.nanos⟩ := if_pos bounded
    simp only [classify, Instant.since, sum, bounded, if_true]
    rfl
  · have sum : p.expiry.add? p.grace = none := if_neg bounded
    simp only [classify, Instant.since, sum, bounded, if_false]

theorem Policy.classify_eq_ok {p : Policy} (bounded : p.Bounded) (fetchedAt now : Instant) :
    ∃ freshness, p.classify fetchedAt now = .ok freshness := by
  rw [classify_eq, if_pos bounded]
  split
  · exact ⟨_, rfl⟩
  · split <;> exact ⟨_, rfl⟩

/-- Every age that there can be at `now` is classified. -/
def Policy.Judges (p : Policy) (now : Instant) : Prop :=
  ∀ fetchedAt, ∃ freshness, p.classify fetchedAt now = .ok freshness

/-- The end of the grace period matters only where something can have expired. -/
theorem Policy.judges_iff {p : Policy} {now : Instant} :
    p.Judges now ↔ p.Bounded ∨ now.nanos < p.expiry.nanos := by
  constructor
  · intro judges
    obtain ⟨freshness, classified⟩ := judges .origin
    rw [classify_eq] at classified
    split_ifs at classified with fresh bounded
    · exact Or.inr fresh
    · exact Or.inl bounded
    · exact Or.inl bounded
  · rintro (bounded | young) fetchedAt
    · exact classify_eq_ok bounded fetchedAt now
    · rw [classify_eq, if_pos (by omega)]
      exact ⟨_, rfl⟩

theorem Policy.missExpired_eq_false {p : Policy} {checkedAt now : Instant} :
    p.missExpired checkedAt now = false ↔ now.nanos - checkedAt.nanos < p.missExpiry.nanos :=
  decide_eq_false_iff_not.trans Nat.not_le

/-- Whether a configuration delivered at `fetchedAt` may be used at `now`. -/
def Policy.Usable (p : Policy) (fetchedAt now : Instant) : Prop :=
  now.nanos - fetchedAt.nanos < p.expiry.nanos ∨
    p.Bounded ∧ now.nanos - fetchedAt.nanos < p.expiry.nanos + p.grace.nanos

/-- What may be used could be used before. -/
theorem Policy.Usable.earlier {p : Policy} {fetchedAt now t : Instant} (usable : p.Usable fetchedAt t)
    (later : now.nanos ≤ t.nanos) : p.Usable fetchedAt now := by
  rcases usable with fresh | ⟨bounded, stale⟩
  · exact Or.inl (by omega)
  · exact Or.inr ⟨bounded, by omega⟩

theorem Policy.usable_iff {p : Policy} {fetchedAt now : Instant} :
    p.Usable fetchedAt now ↔
      p.classify fetchedAt now = .ok .fresh ∨ p.classify fetchedAt now = .ok .stale := by
  rw [classify_eq, Usable]
  split_ifs <;> simp [*]

theorem Policy.classify_eq_expired {p : Policy} {fetchedAt now : Instant} :
    p.classify fetchedAt now = .ok .expired ↔
      p.Bounded ∧ p.expiry.nanos + p.grace.nanos ≤ now.nanos - fetchedAt.nanos := by
  rw [classify_eq]
  split_ifs with fresh bounded stale
  · refine ⟨nofun, fun expired => absurd expired.2 (by omega)⟩
  · refine ⟨nofun, fun expired => absurd expired.2 (by omega)⟩
  · exact ⟨fun _ => ⟨bounded, by omega⟩, fun _ => rfl⟩
  · exact ⟨nofun, fun expired => absurd expired.1 bounded⟩

theorem Policy.expired_later {p : Policy} {fetchedAt now t : Instant}
    (expired : p.classify fetchedAt now = .ok .expired) (later : now.nanos ≤ t.nanos) :
    p.classify fetchedAt t = .ok .expired := by
  obtain ⟨bounded, age⟩ := classify_eq_expired.mp expired
  exact classify_eq_expired.mpr ⟨bounded, by omega⟩

/-- Where nothing may be used when it has just been delivered, nothing may ever be used. -/
theorem Policy.expired_of_unusable {p : Policy} {now : Instant} (bounded : p.Bounded) (unusable : ¬ p.Usable now now)
    (fetchedAt t : Instant) : p.classify fetchedAt t = .ok .expired := by
  rw [Usable, Nat.sub_self, not_or, not_and, Nat.not_lt, Nat.not_lt] at unusable
  obtain ⟨_, graceless⟩ := unusable
  exact classify_eq_expired.mpr ⟨bounded, Nat.le_trans (graceless bounded) (Nat.zero_le _)⟩

theorem Knowledge.read_usable {p : Policy} {f t : Instant} (usable : p.Usable f t) (config : ProjectConfig) :
    ∃ r, (Knowledge.loaded config f).read p t = .ok r ∧ r.decision.config? = some config := by
  rcases Policy.usable_iff.mp usable with fresh | stale
  · rw [Knowledge.read, fresh]
    exact ⟨_, rfl, rfl⟩
  · rw [Knowledge.read, stale]
    exact ⟨_, rfl, rfl⟩

theorem Knowledge.usable_of_read {p : Policy} {k : Knowledge} {t : Instant} {d : Decision} {wants : Bool}
    {config : ProjectConfig} (read : k.read p t = .ok ⟨d, wants⟩) (used : d.config? = some config) :
    ∃ f, k = .loaded config f ∧ p.Usable f t := by
  cases k with
  | nothing =>
    cases read
    cases used
  | missing checkedAt =>
    rw [Knowledge.read] at read
    split at read
    · cases read
      cases used
    · cases read
      cases used
  | loaded c fetchedAt =>
    rw [Knowledge.read] at read
    cases classified : p.classify fetchedAt t with
    | error e => rw [classified] at read; cases read
    | ok freshness =>
      rw [classified] at read
      cases freshness with
      | fresh =>
        cases read
        cases used
        exact ⟨_, rfl, Policy.usable_iff.mpr (Or.inl classified)⟩
      | stale =>
        cases read
        cases used
        exact ⟨_, rfl, Policy.usable_iff.mpr (Or.inr classified)⟩
      | expired =>
        cases read
        cases used

/-- What is known amounts to nothing, and a fetch is wanted. -/
def Knowledge.Faded (p : Policy) (now : Instant) (k : Knowledge) : Prop := k.read p now = .ok ⟨.unknown, true⟩

theorem Knowledge.faded_nothing (p : Policy) (now : Instant) : Knowledge.nothing.Faded p now := rfl

theorem Knowledge.Faded.later {p : Policy} {now t : Instant} {k : Knowledge} (faded : k.Faded p now)
    (later : now.nanos ≤ t.nanos) : k.Faded p t := by
  cases k with
  | nothing => rfl
  | missing checkedAt =>
    simp only [Faded, read] at faded
    split at faded
    · rename_i before
      have expired : p.missExpired checkedAt t = true := by
        rw [← Bool.not_eq_false, Policy.missExpired_eq_false] at before ⊢
        omega
      simp only [Faded, read, expired, if_true]
    · cases faded
  | loaded config fetchedAt =>
    have expired : p.classify fetchedAt t = .ok .expired := by
      cases before : p.classify fetchedAt now with
      | error e =>
        rw [Faded, read, before] at faded
        cases faded
      | ok freshness =>
        rw [Faded, read, before] at faded
        cases freshness with
        | expired => exact Policy.expired_later before later
        | _ => cases faded
    rw [Faded, read, expired]
    rfl

namespace Cache

def knows (c : Cache) (key : ProjectKey) : Knowledge := (c.slotOrNew key).knowledge

def inFlight (c : Cache) (key : ProjectKey) : Bool := (c.slotOrNew key).inFlight

theorem slotOrNew_of_slot? {c : Cache} {key : ProjectKey} {s : Slot} (present : c.slot? key = some s) :
    c.slotOrNew key = s := by
  rw [slotOrNew, present, Option.getD_some]

theorem slot?_setSlot (c : Cache) (key : ProjectKey) (s : Slot) (other : ProjectKey) :
    (c.setSlot key s).slot? other = if other = key then some s else c.slot? other := KeyMap.get?_insert ..

theorem slotOrNew_setSlot (c : Cache) (key : ProjectKey) (s : Slot) (other : ProjectKey) :
    (c.setSlot key s).slotOrNew other = if other = key then s else c.slotOrNew other := by
  simp only [slotOrNew, slot?, setSlot, KeyMap.get?_insert]
  split <;> rfl

/-- A reading only depends on what is known and on whether a fetch is under way. -/
theorem read_eq (c : Cache) (key : ProjectKey) (now : Instant) :
    c.read key now =
      ((c.knows key).read c.policy now).map fun r => ⟨r.decision, r.wantsFetch && !c.inFlight key⟩ := by
  simp only [read, knows, inFlight, slotOrNew]
  cases c.slot? key <;> rfl

/-- The slot that a claim gives to a key reads as the key did before. -/
theorem slotOrNew_read (c : Cache) (key : ProjectKey) (now : Instant) :
    (c.slotOrNew key).read c.policy now = c.read key now := by
  rw [read_eq]
  rfl

theorem read_decision {c : Cache} {key : ProjectKey} {now : Instant} {r : Reading}
    (read : c.read key now = .ok r) :
    ∃ wants, (c.knows key).read c.policy now = .ok ⟨r.decision, wants⟩ ∧
      r.wantsFetch = (wants && !c.inFlight key) := by
  rw [read_eq] at read
  cases known : (c.knows key).read c.policy now with
  | error e => rw [known] at read; cases read
  | ok full =>
    rw [known] at read
    cases read
    exact ⟨full.wantsFetch, rfl, rfl⟩

/-- Nothing may be used of a key unless a configuration is known that has not expired. -/
theorem peek_eq_none {c : Cache} {key : ProjectKey} {now : Instant} :
    c.peek key now = .ok none ↔
      ∀ config f, c.knows key = .loaded config f → c.policy.classify f now = .ok .expired := by
  rw [peek, read_eq]
  cases c.knows key with
  | nothing => exact ⟨fun _ => nofun, fun _ => rfl⟩
  | missing checkedAt =>
    refine ⟨fun _ => nofun, fun _ => ?_⟩
    rw [Knowledge.read]
    split <;> rfl
  | loaded config f =>
    rw [Knowledge.read]
    cases classified : c.policy.classify f now with
    | error e =>
      refine ⟨nofun, fun expired => ?_⟩
      have differ := expired config f rfl
      rw [classified] at differ
      cases differ
    | ok freshness =>
      cases freshness with
      | expired =>
        refine ⟨fun _ config' f' same => ?_, fun _ => rfl⟩
        cases same
        exact classified
      | _ =>
        refine ⟨nofun, fun expired => ?_⟩
        have differ := expired config f rfl
        rw [classified] at differ
        cases differ

section Completion
variable (c : Cache) (key other : ProjectKey) (stamp : Instant) (learn : Knowledge → Option Knowledge)

theorem knows_complete :
    (c.complete key stamp learn).1.knows other =
      if other = key then ((c.knows key).settle stamp learn).getD (c.knows key) else c.knows other := by
  simp only [complete, Slot.complete_eq, knows, slotOrNew_setSlot]
  split <;> rfl

theorem inFlight_complete :
    (c.complete key stamp learn).1.inFlight other = if other = key then false else c.inFlight other := by
  simp only [complete, Slot.complete_eq, inFlight, slotOrNew_setSlot]
  split <;> rfl

theorem taken_complete :
    (c.complete key stamp learn).2 = ((c.knows key).settle stamp learn).isSome := by
  simp only [complete, Slot.complete_eq, knows]

theorem slot?_complete :
    (c.complete key stamp learn).1.slot? other =
      if other = key then some ((c.slotOrNew key).complete stamp learn).1 else c.slot? other := slot?_setSlot ..

end Completion

theorem slot?_fail (c : Cache) (key other : ProjectKey) :
    (c.fail key).slot? other =
      if other = key then (c.slot? key).map ({ · with inFlight := false }) else c.slot? other := by
  unfold fail
  split
  · rename_i s present
    rw [slot?_setSlot, present, Option.map_some]
  · rename_i absent
    rw [absent, Option.map_none]
    split
    · rename_i same
      rw [same, absent]
    · rfl

theorem knows_fail (c : Cache) (key other : ProjectKey) : (c.fail key).knows other = c.knows other := by
  simp only [knows, slotOrNew, slot?_fail]
  split
  · rename_i same
    rw [same]
    cases c.slot? key <;> rfl
  · rfl

theorem inFlight_fail (c : Cache) (key other : ProjectKey) :
    (c.fail key).inFlight other = if other = key then false else c.inFlight other := by
  simp only [inFlight, slotOrNew, slot?_fail]
  split
  · cases c.slot? key <;> rfl
  · rfl

@[simp] theorem policy_fail (c : Cache) (key : ProjectKey) : (c.fail key).policy = c.policy := by
  unfold fail
  split <;> rfl

theorem knows_applyOverride (c : Cache) (key : ProjectKey) (config : ProjectConfig) (now : Instant)
    (other : ProjectKey) :
    (c.applyOverride key config now).knows other =
      if other = key then .loaded config now else c.knows other := by
  simp only [applyOverride, knows, slotOrNew_setSlot]
  split <;> rfl

theorem inFlight_applyOverride (c : Cache) (key : ProjectKey) (config : ProjectConfig) (now : Instant)
    (other : ProjectKey) : (c.applyOverride key config now).inFlight other = c.inFlight other := by
  simp only [applyOverride, inFlight, slotOrNew_setSlot]
  split
  · rename_i same
    rw [same]
  · rfl

theorem slot?_applyOverride (c : Cache) (key : ProjectKey) (config : ProjectConfig) (now : Instant)
    (other : ProjectKey) :
    (c.applyOverride key config now).slot? other =
      if other = key then some ⟨.loaded config now, c.inFlight key⟩ else c.slot? other := slot?_setSlot ..

theorem slot?_invalidate (c : Cache) (key other : ProjectKey) :
    (c.invalidate key).slot? other =
      if other = key then (c.slot? key).map ({ · with knowledge := .nothing }) else c.slot? other := by
  unfold invalidate
  split
  · rename_i s present
    rw [slot?_setSlot, present, Option.map_some]
  · rename_i absent
    rw [absent, Option.map_none]
    split
    · rename_i same
      rw [same, absent]
    · rfl

theorem knows_invalidate (c : Cache) (key other : ProjectKey) :
    (c.invalidate key).knows other = if other = key then .nothing else c.knows other := by
  simp only [knows, slotOrNew, slot?_invalidate]
  split
  · cases c.slot? key <;> rfl
  · rfl

theorem inFlight_invalidate (c : Cache) (key other : ProjectKey) :
    (c.invalidate key).inFlight other = c.inFlight other := by
  simp only [inFlight, slotOrNew, slot?_invalidate]
  split
  · rename_i same
    rw [same]
    cases c.slot? key <;> rfl
  · rfl

@[simp] theorem policy_applyOverride (c : Cache) (key : ProjectKey) (config : ProjectConfig)
    (now : Instant) : (c.applyOverride key config now).policy = c.policy := rfl

@[simp] theorem policy_invalidate (c : Cache) (key : ProjectKey) :
    (c.invalidate key).policy = c.policy := by
  unfold invalidate
  split <;> rfl

/-- All that a lookup does: it tells what is known, and it marks the key if and only if it
schedules a fetch. A key that is marked already is never scheduled. -/
structure Looked (c : Cache) (key : ProjectKey) (now : Instant) (c' : Cache) (l : Lookup) : Prop where
  decision : ∃ wants, (c.knows key).read c.policy now = .ok ⟨l.decision, wants⟩ ∧
    l.scheduleFetch = (wants && !c.inFlight key)
  policy : c'.policy = c.policy
  knows : ∀ other, c'.knows other = c.knows other
  inFlight : ∀ other, c'.inFlight other = (c.inFlight other || (decide (other = key) && l.scheduleFetch))

theorem get_looked {c c' : Cache} {key : ProjectKey} {now : Instant} {l : Lookup}
    (got : c.get key now = .ok (c', l)) : Looked c key now c' l := by
  unfold get at got
  cases read : c.read key now with
  | error e => rw [read] at got; cases got
  | ok r =>
    have known := read_decision read
    rw [read] at got
    change (if r.wantsFetch = true then c.claim key now else .ok (c, ⟨r.decision, false⟩)) = _ at got
    split at got
    · rename_i wanted
      rw [claim, slotOrNew_read, read] at got
      cases got
      refine ⟨known, rfl, fun other => ?_, fun other => ?_⟩
      · simp only [Cache.knows, slotOrNew_setSlot]
        split
        · rename_i same
          rw [same]
        · rfl
      · simp only [Cache.inFlight, slotOrNew_setSlot]
        split
        · rename_i same
          simp only [same, decide_true, Bool.true_and]
        · rename_i differ
          simp only [differ, decide_false, Bool.false_and, Bool.or_false]
    · rename_i unwanted
      cases got
      obtain ⟨wants, told, wanted⟩ := known
      rw [Bool.not_eq_true] at unwanted
      rw [unwanted] at wanted
      exact ⟨⟨wants, told, wanted⟩, rfl, fun _ => rfl, fun _ => by simp⟩

theorem read_ok_of_judges {c : Cache} {now : Instant} (judges : c.policy.Judges now) (key : ProjectKey) :
    ∃ r, c.read key now = .ok r := by
  have readable : ∃ r, (c.knows key).read c.policy now = .ok r := by
    unfold Knowledge.read
    split
    · exact ⟨_, rfl⟩
    · split <;> exact ⟨_, rfl⟩
    · rename_i config fetchedAt _
      obtain ⟨freshness, classified⟩ := judges fetchedAt
      rw [classified]
      cases freshness <;> exact ⟨_, rfl⟩
  obtain ⟨r, known⟩ := readable
  rw [read_eq, known]
  exact ⟨_, rfl⟩

theorem read_eq_ok {c : Cache} (bounded : c.policy.Bounded) (key : ProjectKey) (now : Instant) :
    ∃ r, c.read key now = .ok r := read_ok_of_judges (Policy.judges_iff.mpr (Or.inl bounded)) key

/-- A lookup answers with what the cache reads. -/
theorem get_answer (c : Cache) (key : ProjectKey) (now : Instant) :
    (c.get key now).map (·.2) = (c.read key now).map fun r => ⟨r.decision, r.wantsFetch⟩ := by
  unfold get
  cases read : c.read key now with
  | error e => rfl
  | ok r =>
    obtain ⟨decision, wants⟩ := r
    cases wants with
    | false => rfl
    | true =>
      change (c.claim key now).map (·.2) = _
      rw [claim, slotOrNew_read, read]
      rfl

/-- A key that can be read can be looked up. -/
theorem get_ok_of_read {c : Cache} {key : ProjectKey} {now : Instant} {r : Reading}
    (read : c.read key now = .ok r) : ∃ c' l, c.get key now = .ok (c', l) := by
  rw [get, read]
  change ∃ c' l, (if r.wantsFetch = true then c.claim key now else _) = _
  split
  · rw [claim, slotOrNew_read, read]
    exact ⟨_, _, rfl⟩
  · exact ⟨_, _, rfl⟩

theorem knownRevision_eq_ok {c : Cache} (bounded : c.policy.Bounded) (key : ProjectKey) (now : Instant) :
    ∃ revision, c.knownRevision key now = .ok revision := by
  obtain ⟨r, read⟩ := read_eq_ok bounded key now
  rw [knownRevision, peek, read]
  exact ⟨_, rfl⟩

theorem evictExpired_ok_of_judges {c : Cache} {now : Instant} (judges : c.policy.Judges now) :
    ∃ c' removed, c.evictExpired now = .ok (c', removed) := by
  have judged (s : Slot) : (s.survives c.policy now).isOk = true := by
    unfold Slot.survives
    split
    · rfl
    · split
      · rfl
      · rfl
      · rename_i config fetchedAt _
        obtain ⟨freshness, classified⟩ := judges fetchedAt
        rw [classified]; rfl
  have sweepable : c.sweepable now = true := List.all_eq_true.mpr fun e _ => judged e.2
  rw [evictExpired, if_pos sweepable]
  exact ⟨_, _, rfl⟩

theorem evictExpired_eq_ok {c : Cache} (bounded : c.policy.Bounded) (now : Instant) :
    ∃ c' removed, c.evictExpired now = .ok (c', removed) :=
  evictExpired_ok_of_judges (Policy.judges_iff.mpr (Or.inl bounded))

theorem judged_of_evictExpired {c c' : Cache} {now : Instant} {removed : Nat}
    (swept : c.evictExpired now = .ok (c', removed)) {key : ProjectKey} {s : Slot} (present : c.slot? key = some s) :
    ∃ kept, s.survives c.policy now = .ok kept := by
  unfold evictExpired at swept
  split at swept
  · rename_i sweepable
    have judged := List.all_eq_true.mp sweepable (key, s) ((c.slots.mem_toList_iff key s).mpr present)
    cases survives : s.survives c.policy now with
    | ok kept => exact ⟨kept, rfl⟩
    | error e =>
      rw [survives] at judged
      cases judged
  · cases swept

/-- A sweep keeps a slot as it is or removes it. -/
theorem slot?_evictExpired {c c' : Cache} {now : Instant} {removed : Nat}
    (swept : c.evictExpired now = .ok (c', removed)) (key : ProjectKey) :
    c'.slot? key = (c.slot? key).filter fun s => (s.survives c.policy now).toOption == some true := by
  unfold evictExpired at swept
  split at swept
  · cases swept
    exact KeyMap.get?_filter ..
  · cases swept

theorem Slot.dropped {s : Slot} {p : Policy} {now : Instant} (dropped : s.survives p now = .ok false) :
    s.inFlight = false ∧ s.knowledge.Faded p now := by
  unfold Slot.survives at dropped
  split at dropped
  · cases dropped
  · rename_i idle
    refine ⟨Bool.not_eq_true _ ▸ idle, ?_⟩
    rw [Knowledge.Faded]
    split at dropped
    · rename_i nothing
      rw [nothing]
      rfl
    · rename_i checkedAt missing
      have expired : p.missExpired checkedAt now = true := by
        rw [← Bool.not_eq_false']
        exact Except.ok.inj dropped
      rw [missing, Knowledge.read, expired]
      rfl
    · rename_i config fetchedAt loaded
      rw [loaded, Knowledge.read]
      cases classified : p.classify fetchedAt now with
      | error e =>
        rw [classified] at dropped
        cases dropped
      | ok freshness =>
        rw [classified] at dropped
        cases freshness with
        | expired => rfl
        | _ => cases dropped

/-- All that a sweep does: it forgets some keys, never one whose fetch is under way, nor one
that still counts. -/
structure Swept (c : Cache) (now : Instant) (c' : Cache) : Prop where
  policy : c'.policy = c.policy
  knows : ∀ key, c'.knows key = c.knows key ∨
    c'.knows key = .nothing ∧ c.inFlight key = false ∧ (c.knows key).Faded c.policy now
  inFlight : ∀ key, c'.inFlight key = c.inFlight key

/-- It is enough that the only slots that go are those that a sweep would drop. -/
theorem Swept.of_slots {c c' : Cache} {now : Instant} (policy : c'.policy = c.policy)
    (each : ∀ key, c'.slot? key = c.slot? key ∨
      c'.slot? key = none ∧ ∃ s, c.slot? key = some s ∧ s.survives c.policy now = .ok false) :
    Swept c now c' := by
  have slots (key : ProjectKey) : c'.slotOrNew key = c.slotOrNew key ∨
      c'.slotOrNew key = {} ∧ c.inFlight key = false ∧ (c.knows key).Faded c.policy now := by
    rcases each key with same | ⟨gone, s, present, judged⟩
    · left
      rw [slotOrNew, slotOrNew, same]
    · right
      rw [Cache.inFlight, Cache.knows, slotOrNew_of_slot? present, slotOrNew, gone]
      exact ⟨rfl, Slot.dropped judged⟩
  refine ⟨policy, fun key => ?_, fun key => ?_⟩
  · rcases slots key with same | ⟨gone, rest⟩
    · left; exact congrArg Slot.knowledge same
    · right; exact ⟨congrArg Slot.knowledge gone, rest⟩
  · rcases slots key with same | ⟨gone, flag, _⟩
    · exact congrArg Slot.inFlight same
    · rw [flag]; exact congrArg Slot.inFlight gone

theorem evictExpired_swept {c c' : Cache} {now : Instant} {removed : Nat}
    (swept : c.evictExpired now = .ok (c', removed)) : Swept c now c' := by
  refine .of_slots ?_ fun key => ?_
  · unfold evictExpired at swept
    split at swept
    · cases swept; rfl
    · cases swept
  · rw [slot?_evictExpired swept]
    cases present : c.slot? key with
    | none => exact Or.inl rfl
    | some s =>
      obtain ⟨kept, judged⟩ := judged_of_evictExpired swept present
      rw [Option.filter_some, judged]
      cases kept with
      | true => exact Or.inl rfl
      | false => exact Or.inr ⟨rfl, s, rfl, judged⟩

/-- A sweep that a fault ends has only removed what the whole sweep would have removed. -/
theorem abandonSweep_swept (c : Cache) (now : Instant) (visited : List ProjectKey) :
    Swept c now (c.abandonSweep now visited) := by
  refine .of_slots rfl fun key => ?_
  have slots : (c.abandonSweep now visited).slot? key = (c.slot? key).filter fun s =>
      !(visited.contains key && (s.survives c.policy now).toOption == some false) := KeyMap.get?_filter ..
  rw [slots]
  cases c.slot? key with
  | none => exact Or.inl rfl
  | some s =>
    rw [Option.filter_some]
    cases visited.contains key with
    | false => exact Or.inl rfl
    | true =>
      cases judged : s.survives c.policy now with
      | error e => exact Or.inl rfl
      | ok kept =>
        cases kept with
        | true => exact Or.inl rfl
        | false => exact Or.inr ⟨rfl, s, rfl, judged⟩

end Cache

end AdmissionCache
