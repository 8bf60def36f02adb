import AdmissionCache.Proofs.Service.Learning
import AdmissionCache.Proofs.Service.Lifetime
import AdmissionCache.Proofs.Service.Precedence

namespace AdmissionCache

/-- The batch has no revision of the key, neither for those it asks nor for itself. -/
structure Batch.SentWithout (b : Batch) (key : ProjectKey) : Prop where
  asked : ∀ a ∈ b.toAsk ++ b.toConsult, a.1 = key → a.2 = none
  found : ∀ revision, (key, .unchanged revision) ∈ b.found → revision = none

/-- An answer of the authority calls a key unchanged with the revision it was sent. -/
theorem mem_answersOf_unchanged {asked : List AskedKey} {result : Except QueryFault ConfigsResponse}
    {key : ProjectKey} {revision : Option Revision} (told : (key, .unchanged revision) ∈ answersOf asked result) :
    (key, revision) ∈ asked := by
  cases result with
  | error fault =>
    obtain ⟨a, _, same⟩ := List.mem_map.mp told
    cases same
  | ok response =>
    obtain ⟨⟨k, sent⟩, member, same⟩ := List.mem_map.mp told
    obtain ⟨rfl, outcome⟩ := Prod.mk.inj same
    have paired : sent = revision := by
      unfold Resolution.ofOutcome at outcome
      split at outcome <;> cases outcome
      rfl
    exact paired ▸ member

namespace Batch.SentWithout
variable {b : Batch} {key : ProjectKey} {left : List AskedKey} {findings : Findings}

theorem consulted {asked : AskedKey} (without : b.SentWithout key)
    (progress : b.progress = .open (asked :: left) findings) (near : NearSources) :
    ({ b with progress := .after left (findings.add asked (near.consult asked).resolution?) } : Batch).SentWithout
      key := by
  obtain ⟨unrevised, unfounded⟩ := without
  rw [toAsk, toConsult, progress] at unrevised
  rw [Batch.found, progress] at unfounded
  have here : asked.1 = key → asked.2 = none :=
    unrevised asked (List.mem_append_right _ List.mem_cons_self)
  have later (a : AskedKey) (member : a ∈ left) : a.1 = key → a.2 = none :=
    unrevised a (List.mem_append_right _ (List.mem_cons_of_mem _ member))
  cases told : (near.consult asked).resolution? with
  | none =>
    refine ⟨fun a member => ?_, fun revision inside => ?_⟩
    · rw [toAsk_after, toConsult_after] at member
      rcases List.mem_append.mp member with ask | left
      · rcases List.mem_append.mp ask with old | new
        · exact unrevised a (List.mem_append_left _ old)
        · exact List.mem_singleton.mp new ▸ here
      · exact later a left
    · rw [found_after] at inside
      exact unfounded revision inside
  | some r =>
    refine ⟨fun a member => ?_, fun revision inside => ?_⟩
    · rw [toAsk_after, toConsult_after] at member
      rcases List.mem_append.mp member with ask | left
      · exact unrevised a (List.mem_append_left _ ask)
      · exact later a left
    · rw [found_after] at inside
      rcases List.mem_append.mp inside with old | new
      · exact unfounded revision old
      · obtain ⟨rfl, rfl⟩ := Prod.mk.inj (List.mem_singleton.mp new)
        obtain ⟨rfl, _⟩ := NearSources.consult_unchanged told
        exact here rfl

theorem answered (without : b.SentWithout key) (progress : b.progress = .open [] findings)
    (result : Except QueryFault ConfigsResponse) :
    ({ b with progress := .resolved (findings.answered result) } : Batch).SentWithout key := by
  obtain ⟨unrevised, unfounded⟩ := without
  rw [toAsk, toConsult, progress, List.append_nil] at unrevised
  rw [Batch.found, progress] at unfounded
  refine ⟨fun _ unasked => (List.not_mem_nil unasked).elim, fun revision inside => ?_⟩
  rcases List.mem_append.mp inside with old | new
  · exact unfounded revision old
  · exact unrevised _ (mem_answersOf_unchanged new) rfl

/-- A batch is sent without a revision of a key that has none to show. -/
theorem of_asked {s : Service} {now : Instant} {asked : List AskedKey} (told : s.askFor now b.keys = .ok asked)
    (progress : b.progress = .open asked {}) (unknown : s.cache.knownRevision key now = .ok none) :
    b.SentWithout key := by
  refine ⟨fun a member own => ?_, fun revision inside => ?_⟩
  · rw [toAsk, toConsult, progress, List.nil_append] at member
    have known := Service.askFor_mem told member
    rw [own, unknown] at known
    exact (Except.ok.inj known).symm
  · rw [Batch.found, progress] at inside
    cases inside

end Batch.SentWithout

namespace Service
variable {s s' : Service} {e : Event} {new : List Entry} {b' : Batch} {key : ProjectKey}

theorem BatchStep.sentWithout {b : Batch} (step : BatchStep s b b') (without : b.SentWithout key) :
    b'.SentWithout key := by
  cases step with
  | idle => exact without
  | consulted progress => exact without.consulted progress _
  | answered progress => exact without.answered progress _
  | lost => exact ⟨nofun, nofun⟩

theorem Move.dispatched_le (move : Move s e new s') : s.dispatched ≤ s'.dispatched := by
  cases move with
  | dispatched _ _ all =>
    rw [all.dispatched]
    exact Nat.le_add_right ..
  | applied _ _ _ =>
    rw [dispatched_applyAll]
    exact Nat.le_refl _
  | released _ _ _ =>
    rw [dispatched_releaseAll]
    exact Nat.le_refl _
  | _ => exact Nat.le_refl _

/-- A batch that lasts through a run was there before, with the same keys and stamp. -/
theorem run_batch_origin {events : List Event} (member : b' ∈ (s.run events).batches) (old : b'.id < s.dispatched) :
    ∃ b ∈ s.batches, b.id = b'.id ∧ b.stamp = b'.stamp ∧ b.keys = b'.keys ∧
      ∀ key, b.SentWithout key → b'.SentWithout key := by
  induction events generalizing s with
  | nil => exact ⟨b', member, rfl, rfl, rfl, fun _ without => without⟩
  | cons e rest ih =>
    have moved := s.step_move e
    obtain ⟨b₁, between, id₁, stamp₁, keys₁, without₁⟩ := ih member (Nat.lt_of_lt_of_le old moved.dispatched_le)
    rcases moved.batch_origin between with ⟨b, before, step⟩ | ⟨later, _⟩
    · obtain ⟨id, stamp, keys⟩ := step.same
      exact ⟨b, before, id.trans id₁, stamp.trans stamp₁, keys.trans keys₁,
        fun key first => without₁ key (step.sentWithout first)⟩
    · omega

/-- What goes with a batch that is sent: its keys come from the queue, and what is known stays. -/
structure Sending (s s' : Service) (id : Nat) (stamp : Instant) (keys : List ProjectKey) : Prop where
  running : s.status = .running
  queued : ∀ key ∈ keys, key ∈ s.queued.keys
  cache : s'.cache = s.cache
  overrides : s'.overrides = s.overrides
  survived : s.cache.policy.Bounded → s'.status = .running
  batch : ∃ b ∈ s'.batches, ∃ asked, b.id = id ∧ b.stamp = stamp ∧ b.keys = keys ∧
    s.askFor stamp keys = .ok asked ∧ b.progress = .open asked {}

theorem Move.sending {id : Nat} {stamp : Instant} {keys : List ProjectKey} (move : Move s e new s')
    (sent : .sent id stamp keys ∈ new) : Sending s s' id stamp keys := by
  cases move.added sent
  cases move with
  | @dispatched now started _ running _ all =>
    obtain ⟨b, member, same⟩ := List.mem_map.mp sent
    cases same
    obtain ⟨piece, _, asked, told, progress⟩ := all.fresh b member
    obtain ⟨_, _, after⟩ := all.rest
    refine ⟨running, fun key inside => ?_, by rw [after], by rw [after], fun bounded => ?_,
      b, ?_, asked, rfl, rfl, rfl, told, progress⟩
    · exact (sublist_of_mem_pieces piece).subset inside
    · exact (all.status_eq bounded).trans running
    · rw [all.batches]
      exact List.mem_append_right _ member
  | idle => cases sent
  | unparted _ _ => cases sent

/-- Only the authority calls a key unchanged that it was sent no revision of. -/
theorem Move.told_unchanged_none (move : Move s e new s') {i : Nat} {source : SourceName}
    (member : .told i key (.unchanged none) source ∈ new) : source = .authority := by
  cases move.added member with
  | answered => rfl
  | consulted =>
    cases move with
    | idle => cases member
    | consulted _ _ =>
      obtain ⟨r, told, same⟩ := List.mem_map.mp member
      cases same
      obtain ⟨unsent, known, sent⟩ := NearSources.consult_unchanged (Option.mem_toList.mp told)
      rw [← unsent] at sent
      cases sent

end Service

end AdmissionCache
