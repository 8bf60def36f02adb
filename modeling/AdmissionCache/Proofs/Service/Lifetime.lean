import AdmissionCache.Proofs.Service.Completion

namespace AdmissionCache

/-- Whether the event is meant to end the worker, sooner or later. -/
def Event.ends : Event → Bool
  | .requestStop => true
  | .abandon => true
  | .crash => true
  | _ => false

namespace Service

/-- A running worker that nothing is about to end. -/
structure Lively (s : Service) : Prop where
  running : s.status = .running
  unstopped : .stop ∉ s.mail
  bounded : s.cache.policy.Bounded
  roomy : s.settings.batchSize ≠ 0

section Lively
variable {s s' : Service}

theorem askFor_eq_ok (bounded : s.cache.policy.Bounded) (now : Instant) (keys : List ProjectKey) :
    ∃ asked, s.askFor now keys = .ok asked := by
  rcases s.askFor_cases now keys with told | ⟨key, _, e, failed⟩
  · exact told
  · obtain ⟨revision, known⟩ := Cache.knownRevision_eq_ok bounded key now
    rw [known] at failed
    cases failed

/-- Nothing goes wrong when batches are started under such periods. -/
theorem Started.status_eq {now : Instant} {pieces : List (List ProjectKey)} {started : List Batch}
    (all : Started s now pieces started s') (bounded : s.cache.policy.Bounded) : s'.status = s.status := by
  rcases all.all with ⟨_, same⟩ | ⟨_, keys, _, e, failed⟩
  · exact same
  · obtain ⟨asked, told⟩ := askFor_eq_ok bounded now keys
    rw [told] at failed
    cases failed

theorem Lively.move (lively : s.Lively) {e : Event} {log : List Entry} (move : Move s e log s')
    (lasting : e.ends = false) : s'.Lively := by
  have bounded : s'.cache.policy.Bounded := move.policy ▸ lively.bounded
  have roomy : s'.settings.batchSize ≠ 0 := move.settings ▸ lively.roomy
  have running := lively.running
  have unstopped := lively.unstopped
  cases move with
  | mailed _ _ _ =>
    refine ⟨running, fun inside => ?_, bounded, roomy⟩
    rcases List.mem_append.mp inside with old | new
    · exact unstopped old
    · cases List.mem_singleton.mp new
  | queued _ first =>
    rw [first] at unstopped
    exact ⟨running, fun inside => unstopped (List.mem_cons_of_mem _ inside), bounded, roomy⟩
  | stopTaken _ first =>
    rw [first] at unstopped
    exact absurd List.mem_cons_self unstopped
  | vanished stopping =>
    rw [running] at stopping
    cases stopping
  | dispatched _ _ all =>
    obtain ⟨_, _, after⟩ := all.rest
    exact ⟨(all.status_eq lively.bounded).trans running, by rw [after]; exact unstopped, bounded, roomy⟩
  | unparted _ nothing => exact absurd nothing lively.roomy
  | @applied _ now b resolutions _ _ _ =>
    obtain ⟨_, _, _, _, after⟩ := applyAll_eq (s.dropBatch b.id) b.stamp now resolutions
    exact ⟨by rw [after]; exact running, by rw [after]; exact unstopped, bounded, roomy⟩
  | @released _ _ b _ _ _ =>
    obtain ⟨_, _, after⟩ := releaseAll_eq (s.dropBatch b.id) b.keys
    exact ⟨by rw [after]; exact running, by rw [after]; exact unstopped, bounded, roomy⟩
  | @unswept now visited e _ failed =>
    obtain ⟨_, _, swept⟩ := Cache.evictExpired_eq_ok lively.bounded now
    rw [swept] at failed
    cases failed
  | stopMailed => cases lasting
  | abandoned => cases lasting
  | crashed => cases lasting
  | _ => exact ⟨running, unstopped, bounded, roomy⟩

theorem Lively.run (lively : s.Lively) {events : List Event} (lasting : ∀ e ∈ events, e.ends = false) :
    (s.run events).Lively := by
  induction events generalizing s with
  | nil => exact lively
  | cons e rest ih =>
    rw [List.forall_mem_cons] at lasting
    exact ih (lively.move (s.step_move e) lasting.1) lasting.2

end Lively

/-- A worker that nobody ends runs on, whatever else happens. -/
theorem runs_on {policy : Policy} {settings : ServiceSettings} {events : List Event} (bounded : policy.Bounded)
    (roomy : settings.batchSize ≠ 0) (withOverrides : Bool) (lasting : ∀ e ∈ events, e.ends = false) :
    ((start policy settings withOverrides).run events).status = .running := by
  have first : (start policy settings withOverrides).Lively := ⟨rfl, List.not_mem_nil, bounded, roomy⟩
  exact (first.run lasting).running

end Service

end AdmissionCache
