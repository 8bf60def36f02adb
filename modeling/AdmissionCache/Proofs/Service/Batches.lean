import AdmissionCache.Proofs.Service.Moves
import Mathlib.Data.List.Nodup
import Mathlib.Data.List.Perm.Basic

namespace AdmissionCache

namespace Batch

/-- What has been found out about the keys of a batch. -/
def found (b : Batch) : List Resolved :=
  match b.progress with
  | .open _ findings => findings.resolved
  | .resolved resolutions => resolutions
  | .lost => []

/-- The keys for which the authority will be asked. -/
def toAsk (b : Batch) : List AskedKey :=
  match b.progress with
  | .open _ findings => findings.remaining
  | _ => []

/-- The keys for which the near sources are still to be consulted. -/
def toConsult (b : Batch) : List AskedKey :=
  match b.progress with
  | .open left _ => left
  | _ => []

/-- The keys about which nothing has been found out yet. -/
def unresolved (b : Batch) : List ProjectKey := b.toAsk.map (·.1) ++ b.toConsult.map (·.1)

/-- The keys of a batch as its progress accounts for them. -/
def accounted (b : Batch) : List ProjectKey :=
  match b.progress with
  | .lost => b.keys
  | _ => b.found.map (·.1) ++ b.unresolved

theorem accounted_open {b : Batch} {left : List AskedKey} {findings : Findings}
    (progress : b.progress = .open left findings) :
    b.accounted = findings.resolved.map (·.1) ++ (findings.remaining.map (·.1) ++ left.map (·.1)) := by
  simp only [accounted, found, unresolved, toAsk, toConsult, progress]

theorem accounted_resolved {b : Batch} {resolutions : List Resolved}
    (progress : b.progress = .resolved resolutions) : b.accounted = resolutions.map (·.1) := by
  simp only [accounted, found, unresolved, toAsk, toConsult, progress, List.map_nil, List.append_nil]

section After
variable (b : Batch) (left : List AskedKey) (findings : Findings)

@[simp] theorem found_after :
    ({ b with progress := .after left findings } : Batch).found = findings.resolved := by
  unfold BatchProgress.after
  split <;> rfl

@[simp] theorem toAsk_after :
    ({ b with progress := .after left findings } : Batch).toAsk = findings.remaining := by
  unfold BatchProgress.after
  split
  · rename_i none; simp only [toAsk, none]
  · rfl

@[simp] theorem toConsult_after :
    ({ b with progress := .after left findings } : Batch).toConsult = left := by
  unfold BatchProgress.after
  split <;> rfl

theorem accounted_after :
    ({ b with progress := .after left findings } : Batch).accounted =
      findings.resolved.map (·.1) ++ (findings.remaining.map (·.1) ++ left.map (·.1)) := by
  unfold BatchProgress.after
  split
  · rename_i none; simp only [accounted, found, unresolved, toAsk, toConsult, none]
  · rfl

end After

end Batch

/-- A key that was consulted for moves from one list of the findings to another. -/
theorem Findings.add_accounted (f : Findings) (asked : AskedKey) (r : Option Resolution)
    (left : List AskedKey) :
    ((f.add asked r).resolved.map (·.1) ++ ((f.add asked r).remaining.map (·.1) ++ left.map (·.1))).Perm
      (f.resolved.map (·.1) ++ (f.remaining.map (·.1) ++ (asked :: left).map (·.1))) := by
  cases r with
  | none => simp [add]
  | some r =>
    simp only [add, List.map_append, List.map_cons, List.map_nil, List.append_assoc,
      List.singleton_append, List.perm_append_left_iff]
    exact List.perm_middle.symm

theorem answersOf_keys (asked : List AskedKey) (result : Except QueryFault ConfigsResponse) :
    (answersOf asked result).map (·.1) = asked.map (·.1) := by
  cases result <;> simp only [answersOf, List.map_map, Function.comp_def]

theorem answersOf_nil (result : Except QueryFault ConfigsResponse) : answersOf [] result = [] := by
  cases result <;> rfl

/-- All that a batch has found out about the key is as `P` says, and it will not ask the
authority about it. -/
def Batch.OnlyFinds (b : Batch) (key : ProjectKey) (P : Resolution → Prop) : Prop :=
  (∀ r, (key, r) ∈ b.found → P r) ∧ key ∉ b.toAsk.map (·.1)

namespace Batch.OnlyFinds
variable {b : Batch} {key : ProjectKey} {P : Resolution → Prop} {left : List AskedKey} {findings : Findings}

theorem of_unstarted (progress : b.progress = .open left {}) : b.OnlyFinds key P := by
  refine ⟨fun r inside => ?_, fun inside => ?_⟩
  · rw [Batch.found, progress] at inside
    cases inside
  · rw [Batch.toAsk, progress] at inside
    cases inside

theorem consulted {asked : AskedKey} {said : Option Resolution} (only : b.OnlyFinds key P)
    (progress : b.progress = .open (asked :: left) findings) (own : asked.1 = key → ∃ r, said = some r ∧ P r) :
    ({ b with progress := .after left (findings.add asked said) } : Batch).OnlyFinds key P := by
  obtain ⟨found, ask⟩ := only
  rw [Batch.found, progress] at found
  rw [Batch.toAsk, progress] at ask
  refine ⟨fun r inside => ?_, fun inside => ?_⟩
  · rw [Batch.found_after] at inside
    cases said with
    | none => exact found r inside
    | some told =>
      rcases List.mem_append.mp inside with old | new
      · exact found r old
      · cases List.mem_singleton.mp new
        obtain ⟨_, same, holds⟩ := own rfl
        exact Option.some.inj same ▸ holds
  · rw [Batch.toAsk_after] at inside
    cases said with
    | none =>
      rw [Findings.add, List.map_append, List.mem_append] at inside
      rcases inside with old | new
      · exact ask old
      · obtain ⟨_, same, _⟩ := own (List.mem_singleton.mp new).symm
        cases same
    | some told => exact ask inside

theorem answered (only : b.OnlyFinds key P) (progress : b.progress = .open [] findings)
    (result : Except QueryFault ConfigsResponse) :
    ({ b with progress := .resolved (findings.answered result) } : Batch).OnlyFinds key P := by
  obtain ⟨found, ask⟩ := only
  rw [Batch.found, progress] at found
  rw [Batch.toAsk, progress] at ask
  refine ⟨fun r inside => ?_, List.not_mem_nil⟩
  rcases List.mem_append.mp inside with old | new
  · exact found r old
  · refine absurd ?_ ask
    rw [← answersOf_keys findings.remaining result]
    exact List.mem_map_of_mem new

end Batch.OnlyFinds

namespace Service

theorem mem_setBatch {s : Service} {b other : Batch} (member : other ∈ (s.setBatch b).batches) :
    other = b ∨ other ∈ s.batches ∧ other.id ≠ b.id := by
  obtain ⟨old, inside, rfl⟩ := List.mem_map.mp member
  split
  · exact Or.inl rfl
  · rename_i differ
    exact Or.inr ⟨inside, differ⟩

theorem ids_setBatch (s : Service) (b : Batch) :
    (s.setBatch b).batches.map (·.id) = s.batches.map (·.id) := by
  simp only [setBatch, List.map_map]
  apply List.map_congr_left
  intro old _
  simp only [Function.comp_apply]
  split
  · rename_i same; exact same.symm
  · rfl

theorem batch?_setBatch {s : Service} {b b' : Batch} (found : s.batch? b.id = some b) (same : b'.id = b.id) :
    (s.setBatch b').batch? b.id = some b' := by
  have numbers : ((·.id == b.id) ∘ fun other => if other.id = b'.id then b' else other) =
      (fun other : Batch => other.id == b.id) := by
    funext other
    simp only [Function.comp_apply]
    split
    · rename_i here
      rw [here]
    · rfl
  rw [batch?] at found
  rw [batch?, setBatch, List.find?_map, numbers, found, Option.map_some, if_pos same.symm]

section Steps
variable {s : Service} {b : Batch} {left : List AskedKey} {findings : Findings}

theorem consult_step {asked : AskedKey} (found : s.batch? b.id = some b)
    (progress : b.progress = .open (asked :: left) findings) (content : StoreContent) :
    ∃ samples, s.step (.consult b.id content) = { s.setBatch { b with
      progress := .after left (findings.add asked ((s.nearSources content).consult asked).resolution?) } with
        samples } := by
  obtain ⟨id, stamp, keys, _⟩ := b
  cases progress
  refine ⟨s.samples ++ ((s.nearSources content).consult asked).samples, ?_⟩
  simp only [step, consult, found]
  rfl

theorem answer_step (found : s.batch? b.id = some b) (progress : b.progress = .open [] findings)
    (result : Except QueryFault ConfigsResponse) :
    ∃ samples, s.step (.answer b.id result) =
      { s.setBatch { b with progress := .resolved (findings.answered result) } with samples } := by
  obtain ⟨id, stamp, keys, _⟩ := b
  cases progress
  refine ⟨s.samples ++ answerSamples (answersOf findings.remaining result), ?_⟩
  simp only [step, answer, found]
  rfl

theorem batch?_answer (found : s.batch? b.id = some b) (progress : b.progress = .open [] findings)
    (result : Except QueryFault ConfigsResponse) :
    (s.step (.answer b.id result)).batch? b.id =
      some { b with progress := .resolved (findings.answered result) } := by
  obtain ⟨samples, after⟩ := answer_step found progress result
  rw [after]
  exact batch?_setBatch found rfl

end Steps

/-- What the batches of a service obey: no number is used twice, and every progress accounts
for the keys of its batch. -/
structure Orderly (s : Service) : Prop where
  numbered : (s.batches.map (·.id)).Nodup
  used : ∀ b ∈ s.batches, b.id < s.dispatched
  distinct : ∀ b ∈ s.batches, b.keys.Nodup
  accounted : ∀ b ∈ s.batches, b.accounted.Perm b.keys

namespace Orderly

variable {s s' : Service}

/-- Nothing but the batches and their count matters. -/
theorem congr (orderly : s.Orderly) (batches : s'.batches = s.batches)
    (dispatched : s'.dispatched = s.dispatched) : s'.Orderly := by
  refine ⟨?_, ?_, ?_, ?_⟩
  · rw [batches]; exact orderly.numbered
  · rw [batches, dispatched]; exact orderly.used
  · rw [batches]; exact orderly.distinct
  · rw [batches]; exact orderly.accounted

theorem eq_of_id (orderly : s.Orderly) {b other : Batch} (member : b ∈ s.batches)
    (otherMember : other ∈ s.batches) (same : other.id = b.id) : other = b :=
  List.inj_on_of_nodup_map orderly.numbered otherMember member same

theorem batch?_eq (orderly : s.Orderly) {b : Batch} (member : b ∈ s.batches) : s.batch? b.id = some b := by
  cases found : s.batch? b.id with
  | none =>
    have differ := List.find?_eq_none.mp found b member
    exact absurd (beq_self_eq_true b.id) differ
  | some other =>
    obtain ⟨inside, same⟩ := mem_of_batch? found
    rw [orderly.eq_of_id member inside same]

/-- A batch that is resolved has one resolution for each of its keys. -/
theorem resolved (orderly : s.Orderly) {b : Batch} {resolutions : List Resolved} (member : b ∈ s.batches)
    (progress : b.progress = .resolved resolutions) : (resolutions.map (·.1)).Perm b.keys := by
  rw [← Batch.accounted_resolved progress]
  exact orderly.accounted b member

/-- A batch finds out about its own keys only. -/
theorem mem_keys_of_found (orderly : s.Orderly) {b : Batch} (member : b ∈ s.batches) {r : Resolved}
    (found : r ∈ b.found) : r.1 ∈ b.keys := by
  rw [← (orderly.accounted b member).mem_iff]
  unfold Batch.accounted
  split
  · rename_i lost
    rw [Batch.found, lost] at found
    cases found
  · exact List.mem_append_left _ (List.mem_map_of_mem found)

theorem setBatch (orderly : s.Orderly) {b b' : Batch} (member : b ∈ s.batches)
    (accounted : b'.accounted.Perm b.keys) (keys : b'.keys = b.keys) (same : b'.id = b.id) :
    (s.setBatch b').Orderly := by
  refine ⟨?_, ?_, ?_, ?_⟩
  · rw [ids_setBatch]; exact orderly.numbered
  · intro other inside
    rcases mem_setBatch inside with rfl | ⟨old, _⟩
    · rw [same]; exact orderly.used b member
    · exact orderly.used other old
  · intro other inside
    rcases mem_setBatch inside with rfl | ⟨old, _⟩
    · rw [keys]; exact orderly.distinct b member
    · exact orderly.distinct other old
  · intro other inside
    rcases mem_setBatch inside with rfl | ⟨old, _⟩
    · rw [keys]; exact accounted
    · exact orderly.accounted other old

theorem without (orderly : s.Orderly) (id : Nat) :
    (s.dropBatch id).Orderly where
  numbered := orderly.numbered.sublist (List.filter_sublist.map _)
  used b member := orderly.used b (List.mem_of_mem_filter member)
  distinct b member := orderly.distinct b (List.mem_of_mem_filter member)
  accounted b member := orderly.accounted b (List.mem_of_mem_filter member)

theorem started (orderly : s.Orderly) {now : Instant} {pieces : List (List ProjectKey)}
    {started : List Batch} (distinct : ∀ keys ∈ pieces, keys.Nodup)
    (all : Started s now pieces started s') : s'.Orderly := by
  have new : ∀ b ∈ started, s.dispatched ≤ b.id ∧ b.id < s.dispatched + started.length := by
    intro b member
    have inRange : b.id ∈ started.map (·.id) := List.mem_map_of_mem member
    rw [all.ids, List.mem_range'_1] at inRange
    exact inRange
  refine ⟨?_, ?_, ?_, ?_⟩
  · rw [all.batches, List.map_append, List.nodup_append]
    refine ⟨orderly.numbered, ?_, ?_⟩
    · rw [all.ids]; exact List.nodup_range'
    · intro id old id' recent same
      subst same
      obtain ⟨b, member, rfl⟩ := List.mem_map.mp old
      obtain ⟨b', member', same⟩ := List.mem_map.mp recent
      have bound := orderly.used b member
      have lower := (new b' member').1
      omega
  · intro b member
    rw [all.batches] at member
    rw [all.dispatched]
    rcases List.mem_append.mp member with old | recent
    · have bound := orderly.used b old
      omega
    · exact (new b recent).2
  · intro b member
    rw [all.batches] at member
    rcases List.mem_append.mp member with old | recent
    · exact orderly.distinct b old
    · exact distinct _ (all.fresh b recent).1
  · intro b member
    rw [all.batches] at member
    rcases List.mem_append.mp member with old | recent
    · exact orderly.accounted b old
    · obtain ⟨_, _, asked, told, progress⟩ := all.fresh b recent
      rw [Batch.accounted_open progress, askFor_keys told]
      exact .refl _

theorem move (orderly : s.Orderly) {e : Event} {log : List Entry} (move : Move s e log s') :
    s'.Orderly := by
  cases move with
  | dispatched _ _ all =>
    have emptied : ({ s with queued := ∅ } : Service).Orderly := orderly.congr rfl rfl
    exact emptied.started (fun keys member => s.queued.keys_nodup.sublist (sublist_of_mem_pieces member)) all
  | @consulted _ content b asked left findings _ found progress =>
    have member := (mem_of_batch? found).1
    have before := orderly.accounted b member
    rw [Batch.accounted_open progress] at before
    have after : ({ b with
        progress := .after left
          (findings.add asked ((s.nearSources content).consult asked).resolution?) } : Batch).accounted.Perm
        b.keys := by
      rw [Batch.accounted_after]
      exact (findings.add_accounted asked _ left).trans before
    exact (orderly.setBatch member after rfl rfl).congr rfl rfl
  | @answered _ result b findings _ found progress =>
    have member := (mem_of_batch? found).1
    have before := orderly.accounted b member
    rw [Batch.accounted_open progress] at before
    have after : ({ b with progress := .resolved (findings.answered result) } : Batch).accounted.Perm
        b.keys := by
      rw [Batch.accounted_resolved rfl, Findings.answered, List.map_append, answersOf_keys]
      simpa only [List.map_nil, List.append_nil] using before
    exact (orderly.setBatch member after rfl rfl).congr rfl rfl
  | @lost _ b _ _ found progress =>
    have after : ({ b with progress := .lost } : Batch).accounted.Perm b.keys := .refl _
    exact orderly.setBatch (mem_of_batch? found).1 after rfl rfl
  | @applied id now b resolutions _ found _ =>
    exact (orderly.without b.id).congr (batches_applyAll ..) (dispatched_applyAll ..)
  | @released id now b _ found _ =>
    exact (orderly.without b.id).congr (batches_releaseAll ..) (dispatched_releaseAll ..)
  | _ => exact orderly.congr rfl rfl

theorem run (orderly : s.Orderly) (events : List Event) : (s.run events).Orderly := by
  induction events generalizing s with
  | nil => exact orderly
  | cons e rest ih => exact ih (orderly.move (s.step_move e))

end Orderly

/-- What a step can make of a batch. -/
inductive BatchStep (s : Service) : Batch → Batch → Prop
  | idle {b} : BatchStep s b b
  | consulted {b content asked left findings} : b.progress = .open (asked :: left) findings →
      BatchStep s b { b with
        progress := .after left (findings.add asked ((s.nearSources content).consult asked).resolution?) }
  | answered {b result findings} : b.progress = .open [] findings →
      BatchStep s b { b with progress := .resolved (findings.answered result) }
  | lost {b} : BatchStep s b { b with progress := .lost }

section Origins
variable {s s' : Service} {e : Event} {log : List Entry} {b b' : Batch}

theorem BatchStep.same (step : BatchStep s b b') : b.id = b'.id ∧ b.stamp = b'.stamp ∧ b.keys = b'.keys := by
  cases step <;> exact ⟨rfl, rfl, rfl⟩

/-- Where a batch comes from: it was there before, or it has just been sent. -/
theorem Move.batch_origin (move : Move s e log s') (member : b' ∈ s'.batches) :
    (∃ b ∈ s.batches, BatchStep s b b') ∨ s.dispatched ≤ b'.id ∧ ∃ asked, e = .dispatch b'.stamp ∧
      s.askFor b'.stamp b'.keys = .ok asked ∧ b'.progress = .open asked {} := by
  have replaced {b next : Batch} (inHand : b ∈ s.batches) (step : BatchStep s b next)
      (member : b' ∈ (s.setBatch next).batches) : ∃ b ∈ s.batches, BatchStep s b b' := by
    rcases mem_setBatch member with rfl | ⟨old, _⟩
    · exact ⟨b, inHand, step⟩
    · exact ⟨b', old, .idle⟩
  cases move with
  | @dispatched _ started _ _ _ all =>
    rw [all.batches] at member
    rcases List.mem_append.mp member with old | recent
    · exact Or.inl ⟨b', old, .idle⟩
    · obtain ⟨_, rfl, asked, told, progress⟩ := all.fresh b' recent
      have number : b'.id ∈ started.map (·.id) := List.mem_map_of_mem recent
      rw [all.ids, List.mem_range'_1] at number
      exact Or.inr ⟨number.1, asked, rfl, told, progress⟩
  | consulted found progress => exact Or.inl (replaced (mem_of_batch? found).1 (.consulted progress) member)
  | answered found progress => exact Or.inl (replaced (mem_of_batch? found).1 (.answered progress) member)
  | lost found _ => exact Or.inl (replaced (mem_of_batch? found).1 .lost member)
  | applied _ _ _ =>
    rw [batches_applyAll] at member
    exact Or.inl ⟨b', mem_dropBatch member, .idle⟩
  | released _ _ _ =>
    rw [batches_releaseAll] at member
    exact Or.inl ⟨b', mem_dropBatch member, .idle⟩
  | _ => exact Or.inl ⟨b', member, .idle⟩

/-- What is found out about a batch was found out before, or was not yet. -/
theorem BatchStep.found_origin (step : BatchStep s b b') {r : Resolved} (inside : r ∈ b'.found) :
    r ∈ b.found ∨ r.1 ∈ b.unresolved := by
  cases step with
  | idle => exact Or.inl inside
  | @consulted content asked left findings progress =>
    rw [Batch.found_after] at inside
    rw [Batch.found, Batch.unresolved, Batch.toConsult, progress]
    cases said : ((s.nearSources content).consult asked).resolution? with
    | none => rw [said] at inside; exact Or.inl inside
    | some told =>
      rw [said] at inside
      rcases List.mem_append.mp inside with old | new
      · exact Or.inl old
      · rw [List.mem_singleton.mp new]
        exact Or.inr (List.mem_append_right _ List.mem_cons_self)
  | @answered result findings progress =>
    rw [Batch.found, Batch.unresolved, Batch.toAsk, progress]
    rcases List.mem_append.mp inside with old | new
    · exact Or.inl old
    · have key : r.1 ∈ (answersOf findings.remaining result).map (·.1) := List.mem_map_of_mem new
      rw [answersOf_keys] at key
      exact Or.inr (List.mem_append_left _ key)
  | lost => cases inside

theorem Move.found_origin (move : Move s e log s') (member : b' ∈ s'.batches) {r : Resolved} (inside : r ∈ b'.found) :
    ∃ b ∈ s.batches, b.id = b'.id ∧ b.stamp = b'.stamp ∧ (r ∈ b.found ∨ r.1 ∈ b.unresolved) := by
  rcases move.batch_origin member with ⟨b, old, step⟩ | ⟨_, asked, _, _, progress⟩
  · obtain ⟨id, stamp, _⟩ := step.same
    exact ⟨b, old, id, stamp, step.found_origin inside⟩
  · rw [Batch.found, progress] at inside
    cases inside

end Origins

theorem start_orderly (policy : Policy) (settings : ServiceSettings) (withOverrides : Bool) :
    (start policy settings withOverrides).Orderly :=
  ⟨List.nodup_nil, List.forall_mem_nil _, List.forall_mem_nil _, List.forall_mem_nil _⟩

end Service

end AdmissionCache
