import AdmissionCache.Proofs.Cache.Views
import Mathlib.Data.List.Basic

namespace AdmissionCache

section Knowledge
variable {p : Policy} {now : Instant} {k : Knowledge} {r : Reading}

/-- Only what counts no longer reads as unknown. -/
theorem Knowledge.faded_of_unknown (read : k.read p now = .ok r) (unknown : r.decision = .unknown) :
    k.Faded p now := by
  rw [Faded, read]
  cases k with
  | nothing =>
    cases read
    rfl
  | missing checkedAt =>
    rw [Knowledge.read] at read
    split at read
    · cases read
      rfl
    · cases read
      cases unknown
  | loaded config fetchedAt =>
    rw [Knowledge.read] at read
    cases classified : p.classify fetchedAt now with
    | error e =>
      rw [classified] at read
      cases read
    | ok freshness =>
      rw [classified] at read
      cases freshness with
      | expired =>
        cases read
        rfl
      | _ =>
        cases read
        cases unknown

end Knowledge

/-- A sweep gives a slot up if and only if no fetch is under way and what it knows has faded. -/
theorem Slot.survives_eq_false {s : Slot} {p : Policy} {now : Instant} :
    s.survives p now = .ok false ↔ s.inFlight = false ∧ s.knowledge.Faded p now := by
  refine ⟨Cache.Slot.dropped, fun ⟨idle, faded⟩ => ?_⟩
  rw [survives, if_neg (Bool.eq_false_iff.mp idle)]
  cases known : s.knowledge with
  | nothing => rfl
  | missing checkedAt =>
    rw [known, Knowledge.Faded, Knowledge.read] at faded
    split at faded
    · rename_i expired
      simp only [expired, Bool.not_true]
    · cases faded
  | loaded config fetchedAt =>
    rw [known, Knowledge.Faded, Knowledge.read] at faded
    cases classified : p.classify fetchedAt now with
    | error e =>
      rw [classified] at faded
      cases faded
    | ok freshness =>
      rw [classified] at faded
      cases freshness with
      | expired =>
        simp only [classified]
        rfl
      | _ => cases faded

namespace Cache

/-- No fetch of the key is under way, and the key reads as unknown. -/
def Dead (c : Cache) (now : Instant) (key : ProjectKey) : Prop :=
  c.inFlight key = false ∧ ∃ r, c.read key now = .ok r ∧ r.decision = .unknown

section Sweep
variable {c c' : Cache} {now : Instant} {removed : Nat} {key : ProjectKey}

theorem dead_iff : c.Dead now key ↔ c.inFlight key = false ∧ (c.knows key).Faded c.policy now := by
  refine and_congr_right fun _ => ⟨fun ⟨r, read, unknown⟩ => ?_, fun faded => ?_⟩
  · obtain ⟨wants, known, _⟩ := read_decision read
    exact Knowledge.faded_of_unknown known unknown
  · rw [read_eq, faded]
    exact ⟨_, rfl, rfl⟩

/-- A key loses its slot if it is dead, and keeps it as it is otherwise. -/
theorem slot?_swept (swept : c.evictExpired now = .ok (c', removed)) (key : ProjectKey) :
    (c.Dead now key → c'.slot? key = none) ∧ (¬ c.Dead now key → c'.slot? key = c.slot? key) := by
  rw [slot?_evictExpired swept, dead_iff]
  cases present : c.slot? key with
  | none => exact ⟨fun _ => rfl, fun _ => rfl⟩
  | some s =>
    obtain ⟨kept, judged⟩ := judged_of_evictExpired swept present
    have dead := @Slot.survives_eq_false s c.policy now
    rw [inFlight, knows, slotOrNew_of_slot? present, ← dead, Option.filter_some, judged]
    cases kept with
    | true =>
      refine ⟨fun dead => ?_, fun _ => rfl⟩
      cases dead
    | false => exact ⟨fun _ => rfl, fun alive => absurd rfl alive⟩

/-- A sweep tells how many keys have lost their slot. -/
theorem removed_swept (swept : c.evictExpired now = .ok (c', removed)) :
    removed = (c.slots.keys.filter fun key => (c'.slot? key).isNone).length := by
  have gone (e : ProjectKey × Slot) (member : e ∈ c.slots.toList) :
      (c'.slot? e.1).isNone = !((e.2.survives c.policy now).toOption == some true) := by
    have present : c.slot? e.1 = some e.2 := (c.slots.mem_toList_iff e.1 e.2).mp member
    rw [slot?_evictExpired swept, present, Option.filter_some]
    cases (e.2.survives c.policy now).toOption == some true <;> rfl
  have named : c.slots.keys.filter (fun key => (c'.slot? key).isNone) =
      (c.slots.toList.filter fun e => !((e.2.survives c.policy now).toOption == some true)).map (·.1) := by
    rw [KeyMap.keys, List.filter_map]
    exact congrArg (List.map _) (List.filter_congr gone)
  have parted := List.length_eq_length_filter_add (l := c.slots.toList)
    fun e => (e.2.survives c.policy now).toOption == some true
  rw [named, List.length_map]
  unfold evictExpired at swept
  split at swept
  · cases swept
    simp only [KeyMap.size, KeyMap.filter, KeyMap.toList] at parted ⊢
    omega
  · cases swept

/-- A reading finds the same before a sweep and after it, from the sweep on. -/
theorem Swept.read (swept : Swept c now c') {t : Instant} (later : now.nanos ≤ t.nanos) (key : ProjectKey) :
    c'.read key t = c.read key t := by
  rw [read_eq, read_eq, swept.policy, swept.inFlight]
  rcases swept.knows key with same | ⟨forgotten, _, faded⟩
  · rw [same]
  · rw [forgotten, faded.later later]
    rfl

/-- A sweep removes just the slots of dead keys, leaves all others as they are, and tells how many it
removed. What is left is in flight or can be used or is known to be missing. No lookup, at that instant
or later, can tell that the cache was swept. -/
theorem sweep_removes_dead (c : Cache) (now : Instant) (bounded : c.policy.Bounded) :
    ∃ c' removed, c.evictExpired now = .ok (c', removed) ∧ c'.policy = c.policy ∧
      (∀ key, (c.Dead now key → c'.slot? key = none) ∧ (¬ c.Dead now key → c'.slot? key = c.slot? key)) ∧
      removed = (c.slots.keys.filter fun key => (c'.slot? key).isNone).length ∧
      (∀ key s, c'.slot? key = some s →
        s.inFlight = true ∨ ∃ r, c'.read key now = .ok r ∧ r.decision ≠ .unknown) ∧
      ∀ key t, now.nanos ≤ t.nanos →
        (∃ l, (c.get key t).map (·.2) = .ok l ∧ (c'.get key t).map (·.2) = .ok l) ∧
        (∃ config, c.peek key t = .ok config ∧ c'.peek key t = .ok config) ∧
        ∃ revision, c.knownRevision key t = .ok revision ∧ c'.knownRevision key t = .ok revision := by
  obtain ⟨c', removed, done⟩ := evictExpired_eq_ok bounded now
  have swept := evictExpired_swept done
  have each := slot?_swept done
  refine ⟨c', removed, done, swept.policy, each, removed_swept done, fun key s left => ?_, fun key t later => ?_⟩
  · have alive : ¬ c.Dead now key := fun dead => by
      rw [(each key).1 dead] at left
      cases left
    obtain ⟨r, read⟩ := read_eq_ok bounded key now
    by_cases idle : s.inFlight = true
    · exact Or.inl idle
    · have kept := ((each key).2 alive).symm.trans left
      have unmarked : c.inFlight key = false := by
        rw [inFlight, slotOrNew_of_slot? kept]
        exact Bool.eq_false_iff.mpr idle
      rw [swept.read (Nat.le_refl _)]
      exact Or.inr ⟨r, read, fun unknown => alive ⟨unmarked, r, read, unknown⟩⟩
  · obtain ⟨r, read⟩ := read_eq_ok bounded key t
    have read' := (swept.read later key).trans read
    simp only [get_answer, knownRevision, peek, read, read']
    exact ⟨⟨_, rfl, rfl⟩, ⟨_, rfl, rfl⟩, _, rfl, rfl⟩

/-- Of a configuration that is stale, one that has expired, a project that is missing and one that is
being fetched for the first time, a sweep takes the one that has expired. -/
theorem expired_configuration_swept :
    let p : Policy := ⟨.ofSecs 1, .ofSecs 1, .ofSecs 1⟩
    let loaded : Cache := ((({ policy := p } : Cache).put "expired" ⟨[]⟩ .origin).1.put "stale" ⟨[]⟩ (.ofMillis 1500)).1
    let c : Cache := (loaded.putMissing "missing" (.ofMillis 2500)).1.setSlot "fetched" ⟨.nothing, true⟩
    p.Bounded ∧ ∃ c', c.evictExpired (.ofMillis 3000) = .ok (c', 1) ∧
      c'.slots.keys = ["fetched", "missing", "stale"] ∧
      ∀ key t, 3000000000 ≤ t.nanos → ∃ config, c.peek key t = .ok config ∧ c'.peek key t = .ok config := by
  intro p loaded c
  have bounded : c.policy.Bounded := by decide
  have ran : (c.evictExpired (.ofMillis 3000)).toOption.map (fun done => (done.1.slots.keys, done.2)) =
      some (["fetched", "missing", "stale"], 1) := by decide +kernel
  obtain ⟨c', removed, done, _, _, _, _, unseen⟩ := sweep_removes_dead c (.ofMillis 3000) bounded
  rw [done] at ran
  obtain ⟨keys, one⟩ := Prod.mk.inj (Option.some.inj ran)
  refine ⟨bounded, c', one ▸ done, keys, fun key t later => ?_⟩
  exact (unseen key t later).2.1

end Sweep

end Cache

end AdmissionCache
