import AdmissionCache.Proofs.Service.Batches
import AdmissionCache.Proofs.Service.Completion
import Mathlib.Data.List.Flatten

namespace AdmissionCache

/-- The places in which a key can be on its way. -/
inductive Place
  | calls
  | mail
  | queue
  | batch (id : Nat)
  deriving DecidableEq, Repr

/-- The key that a command hands over. -/
def WorkerCommand.key? : WorkerCommand → Option ProjectKey
  | .fetch key => some key
  | .stop => none

namespace Service

/-- The keys that calls have claimed and not yet sent. -/
def claimedKeys (calls : List Call) : List ProjectKey :=
  (calls.filter (·.stage = .claimed)).map (·.key)

/-- The keys in a place, each as often as it is there. -/
def keysAt (s : Service) : Place → List ProjectKey
  | .calls => claimedKeys s.calls
  | .mail => s.mail.filterMap WorkerCommand.key?
  | .queue => s.queued.keys
  | .batch id => (s.batches.filter (·.id = id)).flatMap (·.keys)

/-- All keys on their way. -/
def underway (s : Service) : List ProjectKey :=
  claimedKeys s.calls ++ s.mail.filterMap WorkerCommand.key? ++ s.queued.keys ++
    s.batches.flatMap (·.keys)

/-- The keys on their way, together with those that the worker has in hand during a step,
are the marked ones, each once. -/
structure Balanced (s : Service) (inHand : List ProjectKey) : Prop where
  once : (s.underway ++ inHand).Nodup
  marked : ∀ key, key ∈ s.underway ++ inHand ↔ s.cache.inFlight key = true

/-- What holds of a service in every run. -/
structure Owned (s : Service) : Prop where
  orderly : s.Orderly
  unrefused : s.status = .running → ∀ call ∈ s.calls, call.stage ≠ .refused
  balanced : s.status = .running → s.Balanced []

section Places
variable {s s' : Service}

theorem claimedKeys_append (a b : List Call) : claimedKeys (a ++ b) = claimedKeys a ++ claimedKeys b := by
  simp only [claimedKeys, List.filter_append, List.map_append]

theorem claimedKeys_eq_nil {calls : List Call} (unclaimed : ∀ call ∈ calls, call.stage ≠ .claimed) :
    claimedKeys calls = [] := by
  rw [claimedKeys, List.filter_eq_nil_iff.mpr fun call member => by simpa using unclaimed call member,
    List.map_nil]

theorem rest_stage {call c : Call} (member : c ∈ call.rest) : c.stage = .decided := by
  unfold Call.rest at member
  split at member
  · cases member
  · rw [List.mem_singleton.mp member]

/-- A call that is replaced by calls without claims takes its own claim along. -/
theorem claimedKeys_replaceCall {n : Nat} {call : Call} {calls : List Call} (atCall : s.calls[n]? = some call)
    (unclaimed : ∀ c ∈ calls, c.stage ≠ .claimed) :
    (claimedKeys s.calls).Perm (claimedKeys [call] ++ claimedKeys (s.replaceCall n calls).calls) := by
  obtain ⟨bound, here⟩ := List.getElem?_eq_some_iff.mp atCall
  have parted : s.calls = s.calls.take n ++ ([call] ++ s.calls.drop (n + 1)) := by
    rw [List.singleton_append, ← here, List.getElem_cons_drop, List.take_append_drop]
  rw [congrArg claimedKeys parted]
  simp only [replaceCall, claimedKeys_append, claimedKeys_eq_nil unclaimed, List.append_nil]
  exact List.perm_append_comm_assoc ..

theorem Balanced.congr {inHand inHand' : List ProjectKey} (balanced : s.Balanced inHand)
    (moved : (s'.underway ++ inHand').Perm (s.underway ++ inHand))
    (marks : ∀ key, s'.cache.inFlight key = s.cache.inFlight key) : s'.Balanced inHand' where
  once := moved.nodup_iff.mpr balanced.once
  marked key := by rw [moved.mem_iff, marks, balanced.marked]

/-- A key in hand is let go of when its mark is taken away. -/
theorem Balanced.letGo {key : ProjectKey} {inHand : List ProjectKey} (balanced : s.Balanced (key :: inHand))
    (same : s'.underway = s.underway)
    (marks : ∀ k, s'.cache.inFlight k = if k = key then false else s.cache.inFlight k) :
    s'.Balanced inHand := by
  have parted : (s.underway ++ key :: inHand).Perm (key :: (s.underway ++ inHand)) := List.perm_middle
  have once := parted.nodup_iff.mp balanced.once
  rw [List.nodup_cons] at once
  refine ⟨by rw [same]; exact once.2, fun k => ?_⟩
  rw [same, marks]
  split
  · rename_i here
    subst here
    simpa using once.1
  · rename_i away
    rw [← balanced.marked, parted.mem_iff, List.mem_cons, or_iff_right away]

theorem mem_underway_of_queued {key : ProjectKey} (inside : key ∈ s.queued.keys) : key ∈ s.underway := by
  simp only [underway, List.mem_append]
  exact Or.inl (Or.inr inside)

/-- A key in hand does not wait in the queue as well. -/
theorem Balanced.not_mem_queued {key : ProjectKey} {inHand : List ProjectKey} (balanced : s.Balanced (key :: inHand)) :
    key ∉ s.queued.keys := by
  have parted : (s.underway ++ key :: inHand).Perm (key :: (s.underway ++ inHand)) := List.perm_middle
  have once := parted.nodup_iff.mp balanced.once
  rw [List.nodup_cons] at once
  exact fun inside => once.1 (List.mem_append_left _ (mem_underway_of_queued inside))

theorem Balanced.requeue {key : ProjectKey} {inHand : List ProjectKey} (balanced : s.Balanced (key :: inHand))
    (queued : s'.queued = s.queued.insert key) (calls : s'.calls = s.calls) (mail : s'.mail = s.mail)
    (batches : s'.batches = s.batches) (marks : ∀ k, s'.cache.inFlight k = s.cache.inFlight k) :
    s'.Balanced inHand := by
  have parted : (s.underway ++ key :: inHand).Perm (key :: (s.underway ++ inHand)) := List.perm_middle
  have inserted : (s.queued.insert key).keys.Perm (key :: s.queued.keys) :=
    KeyMap.keys_insert_perm () balanced.not_mem_queued
  refine balanced.congr (.trans ?_ parted.symm) marks
  simp only [underway, queued, calls, mail, batches, List.append_assoc]
  have moved := inserted.append_right (s.batches.flatMap (·.keys) ++ inHand)
  refine ((moved.append_left _).append_left _).trans ?_
  rw [List.cons_append]
  exact (List.perm_middle.append_left _).trans List.perm_middle

/-- A resolution that is applied lets its key go, or puts it into the queue. -/
theorem Balanced.apply {stamp now : Instant} {r : Resolved} {inHand : List ProjectKey}
    (balanced : s.Balanced (r.1 :: inHand)) : (s.apply stamp now r).Balanced inHand := by
  obtain ⟨cache, queued, pendingSince, samples, after⟩ := s.apply_eq stamp now r
  rcases s.apply_custody stamp now r with ⟨same, marks⟩ | ⟨_, inserted, marks⟩
  · refine balanced.letGo ?_ marks
    rw [after] at same ⊢
    simp only [underway] at same ⊢
    rw [same]
  · exact balanced.requeue inserted (by rw [after]) (by rw [after]) (by rw [after]) marks

theorem Balanced.applyAll {stamp now : Instant} {resolutions : List Resolved}
    (balanced : s.Balanced (resolutions.map (·.1))) : (s.applyAll stamp now resolutions).Balanced [] := by
  induction resolutions generalizing s with
  | nil => exact balanced
  | cons r rest ih => exact ih balanced.apply

theorem Balanced.releaseAll {keys : List ProjectKey} (balanced : s.Balanced keys) :
    (s.releaseAll keys).Balanced [] := by
  induction keys generalizing s with
  | nil => exact balanced
  | cons key rest ih => exact ih (balanced.letGo rfl fun k => Cache.inFlight_fail ..)

theorem keys_setBatch (orderly : s.Orderly) {b b' : Batch} (member : b ∈ s.batches) (id : b'.id = b.id)
    (keys : b'.keys = b.keys) : (s.setBatch b').batches.flatMap (·.keys) = s.batches.flatMap (·.keys) := by
  simp only [setBatch, List.flatMap_map]
  refine List.flatMap_congr fun other inside => ?_
  split
  · rename_i same
    rw [orderly.eq_of_id member inside (same.trans id), keys]
  · rfl

/-- The batch with a number is the only one that goes with it. -/
theorem perm_without {batches : List Batch} (numbered : (batches.map (·.id)).Nodup) {b : Batch}
    (member : b ∈ batches) : batches.Perm (b :: batches.filter (·.id != b.id)) := by
  induction batches with
  | nil => cases member
  | cons head rest ih =>
    rw [List.map_cons, List.nodup_cons] at numbered
    rcases List.mem_cons.mp member with rfl | later
    · have others : rest.filter (·.id != b.id) = rest := by
        refine List.filter_eq_self.mpr fun other inside => ?_
        rw [bne_iff_ne]
        intro same
        exact numbered.1 (same ▸ List.mem_map_of_mem inside)
      rw [List.filter_cons_of_neg (by simp), others]
    · have differ : head.id ≠ b.id := fun same => numbered.1 (same ▸ List.mem_map_of_mem later)
      rw [List.filter_cons_of_pos (by simpa using differ)]
      exact ((ih numbered.2 later).cons _).trans (.swap ..)

/-- Taking a batch away takes away its keys and no others. -/
theorem keys_without {batches : List Batch} (numbered : (batches.map (·.id)).Nodup) {b : Batch}
    (member : b ∈ batches) :
    (batches.flatMap (·.keys)).Perm (b.keys ++ (batches.filter (·.id != b.id)).flatMap (·.keys)) :=
  (perm_without numbered member).flatMap_right _

theorem Balanced.setBatch (balanced : s.Balanced []) (orderly : s.Orderly) {b b' : Batch}
    (member : b ∈ s.batches) (keys : b'.keys = b.keys) (id : b'.id = b.id) :
    (s.setBatch b').Balanced [] := by
  refine balanced.congr ?_ fun _ => rfl
  have same := keys_setBatch orderly member id keys
  simp only [underway, List.append_nil] at same ⊢
  rw [same]
  exact .refl _

/-- A batch that is to be applied hands its keys over to the worker. -/
theorem Balanced.takeBatch (balanced : s.Balanced []) (orderly : s.Orderly) {b : Batch}
    (member : b ∈ s.batches) : (s.dropBatch b.id).Balanced b.keys := by
  refine balanced.congr ?_ fun _ => rfl
  have parted := keys_without orderly.numbered member
  simp only [underway, dropBatch, List.append_nil, List.append_assoc] at parted ⊢
  exact (((parted.trans List.perm_append_comm).symm.append_left _).append_left _).append_left _

theorem Balanced.dispatched (balanced : s.Balanced []) {now : Instant} {started : List Batch}
    (positive : s.settings.batchSize ≠ 0)
    (all : Started { s with queued := ∅ } now (pieces s.settings.batchSize s.queued.keys) started s')
    (alive : s'.status ≠ .crashed) : s'.Balanced [] := by
  obtain ⟨status, samples, same⟩ := all.rest
  have keys : started.flatMap (·.keys) = s.queued.keys := by
    rw [List.flatMap_def, all.pieces_eq alive]
    exact flatten_pieces (Nat.pos_of_ne_zero positive) _
  have calls : s'.calls = s.calls := by rw [same]
  have mail : s'.mail = s.mail := by rw [same]
  have queued : s'.queued.keys = [] := by rw [same]; rfl
  have cache : s'.cache = s.cache := by rw [same]
  refine balanced.congr ?_ fun key => by rw [cache]
  simp only [underway, calls, mail, queued, all.batches, List.flatMap_append, keys, List.append_nil,
    List.append_assoc]
  exact (List.perm_append_comm.append_left _).append_left _

theorem mem_replaceCall {n : Nat} {calls : List Call} {c : Call}
    (member : c ∈ (s.replaceCall n calls).calls) : c ∈ calls ∨ c ∈ s.calls := by
  rcases List.mem_append.mp member with before | after
  · rcases List.mem_append.mp before with taken | new
    · exact Or.inr (List.mem_of_mem_take taken)
    · exact Or.inl new
  · exact Or.inr (List.mem_of_mem_drop after)

/-- A key that is taken up gets its mark. -/
theorem Balanced.takeUp {key : ProjectKey} (balanced : s.Balanced []) (unmarked : s.cache.inFlight key = false)
    (moved : s'.underway.Perm (key :: s.underway))
    (marks : ∀ k, s'.cache.inFlight k = (s.cache.inFlight k || decide (k = key))) : s'.Balanced [] := by
  obtain ⟨once, marked⟩ := balanced
  simp only [List.append_nil] at once marked
  have fresh : key ∉ s.underway := fun inside => by
    rw [marked, unmarked] at inside
    cases inside
  refine ⟨?_, fun k => ?_⟩
  · rw [List.append_nil, moved.nodup_iff]
    exact List.nodup_cons.mpr ⟨fresh, once⟩
  · rw [List.append_nil, moved.mem_iff, List.mem_cons, marked, marks, Bool.or_eq_true, decide_eq_true_iff,
      or_comm]

theorem Balanced.claimed {purpose : Purpose} {key : ProjectKey} {now : Instant} {cache : Cache} {l : Lookup}
    {samples : List Sample} (balanced : s.Balanced []) (got : s.cache.get key now = .ok (cache, l))
    (wanted : l.scheduleFetch = true) :
    ({ s with cache, calls := s.calls ++ [⟨purpose, key, l.decision, .claimed⟩], samples } :
      Service).Balanced [] := by
  have looked := Cache.get_looked got
  obtain ⟨wants, _, schedule⟩ := looked.decision
  rw [wanted, eq_comm, Bool.and_eq_true, Bool.not_eq_true'] at schedule
  have own : claimedKeys [(⟨purpose, key, l.decision, .claimed⟩ : Call)] = [key] := rfl
  refine balanced.takeUp schedule.2 ?_ fun k => by rw [looked.inFlight, wanted, Bool.and_true]
  simp only [underway, claimedKeys_append, own, List.append_assoc, List.singleton_append]
  exact List.perm_middle

theorem Balanced.mailed {n : Nat} {call : Call} (balanced : s.Balanced []) (atCall : s.calls[n]? = some call)
    (claimed : call.stage = .claimed) :
    ({ s with mail := s.mail ++ [.fetch call.key], calls := (s.replaceCall n call.rest).calls } :
      Service).Balanced [] := by
  refine balanced.congr ?_ fun _ => rfl
  have unclaimed : ∀ c ∈ call.rest, c.stage ≠ .claimed := fun c member => by
    rw [rest_stage member]; exact nofun
  have taken := claimedKeys_replaceCall atCall unclaimed
  have own : claimedKeys [call] = [call.key] := by
    rw [claimedKeys, List.filter_singleton, claimed]; rfl
  have sent : (s.mail ++ [WorkerCommand.fetch call.key]).filterMap WorkerCommand.key? =
      s.mail.filterMap WorkerCommand.key? ++ [call.key] := List.filterMap_append
  simp only [underway, sent, List.append_nil, List.append_assoc, List.singleton_append]
  rw [own, List.singleton_append] at taken
  refine .trans ?_ (taken.symm.append_right _)
  exact (List.perm_middle.append_left _).trans List.perm_middle

theorem Balanced.judged {n : Nat} {call : Call} {outcomes : List Outcome} {samples : List Sample}
    (balanced : s.Balanced []) (atCall : s.calls[n]? = some call) (decided : call.stage = .decided) :
    ({ s with calls := (s.replaceCall n []).calls, outcomes, samples } : Service).Balanced [] := by
  refine balanced.congr ?_ fun _ => rfl
  have taken := @claimedKeys_replaceCall s n call [] atCall fun c member => nomatch member
  have own : claimedKeys [call] = [] := by
    rw [claimedKeys, List.filter_singleton, decided]; rfl
  rw [own, List.nil_append] at taken
  simp only [underway, List.append_nil]
  exact ((taken.symm.append_right _).append_right _).append_right _

/-- The worker takes the key of the first command in hand. -/
theorem Balanced.opened {key : ProjectKey} {mail : List WorkerCommand} (balanced : s.Balanced [])
    (first : s.mail = .fetch key :: mail) : ({ s with mail } : Service).Balanced [key] := by
  refine balanced.congr ?_ fun _ => rfl
  have sent : s.mail.filterMap WorkerCommand.key? = key :: mail.filterMap WorkerCommand.key? := by
    rw [first]; rfl
  simp only [underway, sent, List.append_nil, List.append_assoc, List.cons_append]
  have last := List.perm_append_singleton key
    (mail.filterMap WorkerCommand.key? ++ (s.queued.keys ++ s.batches.flatMap (·.keys)))
  simp only [List.append_assoc] at last
  exact last.append_left _

theorem Balanced.queued {key : ProjectKey} {mail : List WorkerCommand} (balanced : s.Balanced [])
    (first : s.mail = .fetch key :: mail) :
    ({ s with mail, queued := s.queued.insert key } : Service).Balanced [] :=
  (balanced.opened first).requeue rfl rfl rfl rfl fun _ => rfl

end Places

namespace Owned
variable {s s' : Service}

theorem unrefused_replaceCall (owned : s.Owned) (running : s.status = .running) {n : Nat} {calls : List Call}
    (decided : ∀ c ∈ calls, c.stage = .decided) :
    ∀ c ∈ (s.replaceCall n calls).calls, c.stage ≠ .refused := by
  intro c member
  rcases mem_replaceCall member with new | old
  · rw [decided c new]; exact nofun
  · exact owned.unrefused running c old

theorem move (owned : s.Owned) {e : Event} {log : List Entry} (move : Move s e log s') : s'.Owned := by
  have orderly := owned.orderly.move move
  cases move with
  | idle => exact owned
  | claimed got wanted =>
    refine ⟨orderly, fun running c member => ?_, fun running => (owned.balanced running).claimed got wanted⟩
    rcases List.mem_append.mp member with old | new
    · exact owned.unrefused running c old
    · rw [List.mem_singleton.mp new]; exact nofun
  | @looked _ _ _ _ _ decided _ got unwanted ended =>
    have looked := Cache.get_looked got
    refine ⟨orderly, fun running c member => ?_, fun running => ?_⟩
    · rcases List.mem_append.mp member with old | new
      · exact owned.unrefused running c old
      · rw [ended c new]; exact nofun
    · refine (owned.balanced running).congr ?_ fun other => ?_
      · have none : claimedKeys decided = [] := claimedKeys_eq_nil fun c member => by
          rw [ended c member]; exact nofun
        simp only [underway, claimedKeys_append, none, List.append_nil]
        exact .refl _
      · rw [looked.inFlight, unwanted, Bool.and_false, Bool.or_false]
  | mailed atCall claimed _ =>
    exact ⟨orderly, fun running => owned.unrefused_replaceCall running fun c member => rest_stage member,
      fun running => (owned.balanced running).mailed atCall claimed⟩
  | refused _ _ deaf =>
    have ended (running : s.status = .running) : False := by
      rw [running] at deaf; cases deaf
    exact ⟨orderly, fun running => (ended running).elim, fun running => (ended running).elim⟩
  | @freed n call atCall refused =>
    have ended (running : s.status = .running) : False :=
      owned.unrefused running call (List.mem_of_getElem? atCall) refused
    exact ⟨orderly, fun running => (ended running).elim, fun running => (ended running).elim⟩
  | judged atCall decided =>
    exact ⟨orderly, fun running => owned.unrefused_replaceCall running fun c member => (nomatch member),
      fun running => (owned.balanced running).judged atCall decided⟩
  | stopMailed _ =>
    refine ⟨orderly, owned.unrefused, fun running => (owned.balanced running).congr ?_ fun _ => rfl⟩
    have same : (s.mail ++ [WorkerCommand.stop]).filterMap WorkerCommand.key? =
        s.mail.filterMap WorkerCommand.key? := by
      rw [List.filterMap_append]; exact List.append_nil _
    simp only [underway, same]
    exact .refl _
  | queued running first =>
    exact ⟨orderly, owned.unrefused, fun _ => (owned.balanced running).queued first⟩
  | dispatched running positive all =>
    obtain ⟨status, samples, same⟩ := all.rest
    have calls : s'.calls = s.calls := by rw [same]
    refine ⟨orderly, fun _ => by rw [calls]; exact owned.unrefused running, fun still => ?_⟩
    have alive : s'.status ≠ .crashed := by rw [still]; exact nofun
    exact (owned.balanced running).dispatched positive all alive
  | @consulted _ content b asked left findings _ found _ =>
    have keys : ({ b with
        progress := .after left
          (findings.add asked ((s.nearSources content).consult asked).resolution?) } : Batch).keys = b.keys := rfl
    refine ⟨orderly, owned.unrefused, fun running => ?_⟩
    have replaced := (owned.balanced running).setBatch owned.orderly (mem_of_batch? found).1 keys rfl
    exact replaced.congr (.refl _) fun _ => rfl
  | @answered _ result b findings _ found _ =>
    have keys : ({ b with progress := .resolved (findings.answered result) } : Batch).keys = b.keys := rfl
    refine ⟨orderly, owned.unrefused, fun running => ?_⟩
    have replaced := (owned.balanced running).setBatch owned.orderly (mem_of_batch? found).1 keys rfl
    exact replaced.congr (.refl _) fun _ => rfl
  | @lost _ b _ _ found _ =>
    have keys : ({ b with progress := .lost } : Batch).keys = b.keys := rfl
    exact ⟨orderly, owned.unrefused, fun running =>
      (owned.balanced running).setBatch owned.orderly (mem_of_batch? found).1 keys rfl⟩
  | @applied _ now b resolutions running found progress =>
    have member := (mem_of_batch? found).1
    have taken := (owned.balanced running).takeBatch owned.orderly member
    have accounted := owned.orderly.resolved member progress
    obtain ⟨_, _, _, _, after⟩ := applyAll_eq (s.dropBatch b.id) b.stamp now resolutions
    refine ⟨orderly, fun _ => by rw [after]; exact owned.unrefused running, fun _ => ?_⟩
    exact (taken.congr (accounted.append_left _) fun _ => rfl).applyAll
  | @released _ now b running found _ =>
    have taken := (owned.balanced running).takeBatch owned.orderly (mem_of_batch? found).1
    obtain ⟨_, _, after⟩ := releaseAll_eq (s.dropBatch b.id) b.keys
    exact ⟨orderly, fun _ => by rw [after]; exact owned.unrefused running, fun _ => taken.releaseAll⟩
  | reloaded running _ _ =>
    exact ⟨orderly, owned.unrefused, fun _ => (owned.balanced running).congr (.refl _) fun key =>
      inFlight_install ..⟩
  | swept running gone =>
    exact ⟨orderly, owned.unrefused, fun _ => (owned.balanced running).congr (.refl _)
      (Cache.evictExpired_swept gone).inFlight⟩
  | kept =>
    exact ⟨orderly, owned.unrefused, fun running => (owned.balanced running).congr (.refl _) fun _ => rfl⟩
  | globalLearned =>
    exact ⟨orderly, owned.unrefused, fun running => (owned.balanced running).congr (.refl _) fun _ => rfl⟩
  | _ => exact ⟨orderly, nofun, nofun⟩

theorem run (owned : s.Owned) (events : List Event) : (s.run events).Owned := by
  induction events generalizing s with
  | nil => exact owned
  | cons e rest ih => exact ih (owned.move (s.step_move e))

end Owned

theorem start_owned (policy : Policy) (settings : ServiceSettings) (withOverrides : Bool) :
    (start policy settings withOverrides).Owned where
  orderly := start_orderly ..
  unrefused _ _ member := nomatch member
  balanced _ := ⟨List.nodup_nil, fun _ => ⟨fun member => (nomatch member), fun marked => nomatch marked⟩⟩

section Held
variable {s : Service} {key : ProjectKey}

/-- The keys on their way, each with the place where it is. -/
def positions (s : Service) : List (Place × ProjectKey) :=
  (claimedKeys s.calls).map (.calls, ·) ++ (s.mail.filterMap WorkerCommand.key?).map (.mail, ·) ++
    s.queued.keys.map (.queue, ·) ++ s.batches.flatMap fun b => b.keys.map (.batch b.id, ·)

theorem positions_keys (s : Service) : s.positions.map (·.2) = s.underway := by
  simp only [positions, underway, List.map_append, List.map_map, List.map_flatMap, Function.comp_def,
    List.map_id']

theorem mem_positions {place : Place} : (place, key) ∈ s.positions ↔ key ∈ s.keysAt place := by
  cases place with
  | batch id =>
    have swap (b : Batch) : (b ∈ s.batches ∧ key ∈ b.keys ∧ b.id = id) ↔
        ((b ∈ s.batches ∧ b.id = id) ∧ key ∈ b.keys) := by
      rw [and_comm (a := key ∈ b.keys), and_assoc]
    simpa [positions, keysAt] using exists_congr swap
  | _ => simp [positions, keysAt]

theorem keysAt_sublist (s : Service) (place : Place) : (s.keysAt place).Sublist s.underway := by
  have last {a b : List ProjectKey} : b.Sublist (a ++ b) := List.sublist_append_right ..
  have first {a b : List ProjectKey} : a.Sublist (a ++ b) := List.sublist_append_left ..
  cases place with
  | calls => exact (first.trans first).trans first
  | mail => exact (last.trans first).trans first
  | queue => exact last.trans first
  | batch id => exact .trans (List.filter_sublist.flatMap _) last

theorem mem_underway_iff : key ∈ s.underway ↔ ∃ place, key ∈ s.keysAt place := by
  rw [← positions_keys, List.mem_map]
  constructor
  · rintro ⟨⟨place, _⟩, member, rfl⟩
    exact ⟨place, mem_positions.mp member⟩
  · rintro ⟨place, member⟩
    exact ⟨(place, key), mem_positions.mpr member, rfl⟩

theorem place_unique (once : s.underway.Nodup) {place other : Place} (here : key ∈ s.keysAt place)
    (there : key ∈ s.keysAt other) : other = place := by
  rw [← positions_keys] at once
  have same := List.inj_on_of_nodup_map once (mem_positions.mpr there) (mem_positions.mpr here) rfl
  exact congrArg (·.1) same

/-- A key that waits in the queue is in no batch. -/
theorem Owned.not_mem_keys_of_queued (owned : s.Owned) (running : s.status = .running)
    (queued : key ∈ s.queued.keys) {b : Batch} (member : b ∈ s.batches) : key ∉ b.keys := by
  intro inside
  have once := (owned.balanced running).once
  rw [List.append_nil] at once
  have here : key ∈ s.keysAt .queue := queued
  have there : key ∈ s.keysAt (.batch b.id) :=
    List.mem_flatMap.mpr ⟨b, List.mem_filter.mpr ⟨member, decide_eq_true rfl⟩, inside⟩
  cases place_unique once here there

end Held

/-- In every run, as long as the worker runs, a key is marked as in flight exactly if it is
in one place on its way, once, and in no other. -/
theorem in_flight_iff_in_one_place (policy : Policy) (settings : ServiceSettings) (withOverrides : Bool)
    (events : List Event) (key : ProjectKey)
    (running : ((start policy settings withOverrides).run events).status = .running) :
    (((start policy settings withOverrides).run events).cache.inFlight key = true ↔
      ∃ place, (((start policy settings withOverrides).run events).keysAt place).count key = 1 ∧
        ∀ other, other ≠ place → key ∉ ((start policy settings withOverrides).run events).keysAt other) ∧
    (((start policy settings withOverrides).run events).cache.inFlight key = false ↔
      ∀ place, key ∉ ((start policy settings withOverrides).run events).keysAt place) := by
  generalize reached : (start policy settings withOverrides).run events = s at running ⊢
  have owned : s.Owned := reached ▸ (start_owned policy settings withOverrides).run events
  obtain ⟨once, marked⟩ := owned.balanced running
  simp only [List.append_nil] at once marked
  constructor
  · rw [← marked, mem_underway_iff]
    constructor
    · rintro ⟨place, here⟩
      refine ⟨place, List.count_eq_one_of_mem (once.sublist (s.keysAt_sublist place)) here, ?_⟩
      intro other differ there
      exact differ (place_unique once here there)
    · rintro ⟨place, count, _⟩
      exact ⟨place, List.count_pos_iff.mp (by omega)⟩
  · rw [← Bool.not_eq_true, ← marked, mem_underway_iff, not_exists]

theorem in_one_place_once_dispatched :
    let s := (start ⟨.ofSecs 60, .zero, .ofSecs 10⟩ { batchSize := 10, queryTimeout := .ofSecs 30 } false).run
      [.look .lookup "a" .origin, .advance 0, .look .check "b" .origin, .receive, .dispatch .origin]
    s.cache.inFlight "a" = true ∧ ∃ place, (s.keysAt place).count "a" = 1 ∧
      ∀ other, other ≠ place → "a" ∉ s.keysAt other := by
  have marked : ((start ⟨.ofSecs 60, .zero, .ofSecs 10⟩ { batchSize := 10, queryTimeout := .ofSecs 30 }
      false).run [.look .lookup "a" .origin, .advance 0, .look .check "b" .origin, .receive,
        .dispatch .origin]).cache.inFlight "a" = true := by decide +kernel
  exact ⟨marked, (in_flight_iff_in_one_place _ _ _ _ "a" (by decide +kernel)).1.mp marked⟩

end Service

end AdmissionCache
