import AdmissionCache.Proofs.Cache.Views
import Mathlib.Tactic.ByContra

namespace AdmissionCache

/-- The caches that the operations make of an empty one. -/
inductive Cache.Reached (p : Policy) : Cache → Prop
  | empty : Reached p { policy := p }
  | looked {c c' key now l} : Reached p c → c.get key now = .ok (c', l) → Reached p c'
  | put {c} (key config stamp) : Reached p c → Reached p (c.put key config stamp).1
  | refreshed {c} (key revision stamp) : Reached p c → Reached p (c.refresh key revision stamp).1
  | missed {c} (key stamp) : Reached p c → Reached p (c.putMissing key stamp).1
  | failed {c} (key) : Reached p c → Reached p (c.fail key)
  | overridden {c} (key config now) : Reached p c → Reached p (c.applyOverride key config now)
  | invalidated {c} (key) : Reached p c → Reached p (c.invalidate key)
  | swept {c c' now removed} : Reached p c → c.evictExpired now = .ok (c', removed) → Reached p c'
  | abandoned {c} (now visited) : Reached p c → Reached p (c.abandonSweep now visited)

theorem Cache.Reached.policy {p : Policy} {c : Cache} (reached : Reached p c) : c.policy = p := by
  induction reached with
  | empty => rfl
  | looked _ got ih => exact (get_looked got).policy.trans ih
  | put _ _ _ _ ih => exact ih
  | refreshed _ _ _ _ ih => exact ih
  | missed _ _ _ ih => exact ih
  | failed key _ ih => exact (policy_fail ..).trans ih
  | overridden _ _ _ _ ih => exact ih
  | invalidated key _ ih => exact (policy_invalidate ..).trans ih
  | swept _ gone ih => exact (evictExpired_swept gone).policy.trans ih
  | abandoned _ _ _ ih => exact ih

/-- No cache under the policy ever fails to be read or swept, at instants that the clock shows. -/
def Policy.NeverFails (p : Policy) : Prop :=
  ∀ c, Cache.Reached p c → ∀ key now, now.nanos < Instant.bound →
    (∃ c' l, c.get key now = .ok (c', l)) ∧ (∃ config, c.peek key now = .ok config) ∧
      (∃ revision, c.knownRevision key now = .ok revision) ∧
      ∃ c' removed, c.evictExpired now = .ok (c', removed)

/-- A configuration whose age reaches the expiry of an unbounded policy cannot be looked up. -/
theorem Cache.get_fails {p : Policy} {now : Instant} (unbounded : ¬ p.Bounded) (old : p.expiry.nanos ≤ now.nanos)
    (key : ProjectKey) (config : ProjectConfig) :
    (({ policy := p } : Cache).put key config .origin).1.get key now = .error .graceEnd := by
  have known : (({ policy := p } : Cache).put key config .origin).1.knows key = .loaded config .origin := by
    rw [put, knows_complete, if_pos rfl]
    rfl
  have unclassified : p.classify .origin now = .error .graceEnd := by
    have age : ¬ now.nanos - Instant.origin.nanos < p.expiry.nanos := Nat.not_lt.mpr old
    rw [Policy.classify_eq, if_neg age, if_neg unbounded]
  have unread : (({ policy := p } : Cache).put key config .origin).1.read key now = .error .graceEnd := by
    rw [read_eq, known, Knowledge.read]
    change ((p.classify .origin now).bind _).map _ = _
    rw [unclassified]
    rfl
  rw [get, unread]
  rfl

theorem Policy.neverFails_iff {p : Policy} : p.NeverFails ↔ p.Bounded ∨ Instant.bound ≤ p.expiry.nanos := by
  constructor
  · intro sound
    by_contra neither
    rw [not_or, Nat.not_le] at neither
    obtain ⟨unbounded, short⟩ := neither
    have stored : Cache.Reached p (({ policy := p } : Cache).put "" ⟨[]⟩ .origin).1 := .put _ _ _ .empty
    obtain ⟨⟨_, _, got⟩, _⟩ := sound _ stored "" ⟨p.expiry.nanos⟩ short
    rw [Cache.get_fails unbounded (Nat.le_refl _)] at got
    cases got
  · intro either c reached key now shown
    have judges : c.policy.Judges now := by
      rw [reached.policy, Policy.judges_iff]
      exact either.imp_right (Nat.lt_of_lt_of_le shown)
    obtain ⟨r, read⟩ := Cache.read_ok_of_judges judges key
    refine ⟨Cache.get_ok_of_read read, ?_, ?_, Cache.evictExpired_ok_of_judges judges⟩
    · rw [Cache.peek, read]
      exact ⟨_, rfl⟩
    · rw [Cache.knownRevision, Cache.peek, read]
      exact ⟨_, rfl⟩

end AdmissionCache
