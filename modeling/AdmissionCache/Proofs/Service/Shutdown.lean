import AdmissionCache.Proofs.Service.Sweeping

namespace AdmissionCache

namespace Service

/-- The keys that calls have claimed, and neither sent nor given back. -/
def heldKeys (calls : List Call) : List ProjectKey := (calls.filter (·.stage ≠ .decided)).map (·.key)

/-- The key is marked, and no call will send it or give it back. -/
def Abandoned (s : Service) (key : ProjectKey) : Prop :=
  s.cache.inFlight key = true ∧ key ∉ heldKeys s.calls

instance (s : Service) (key : ProjectKey) : Decidable (s.Abandoned key) := inferInstanceAs (Decidable (_ ∧ _))

/-- The keys that calls hold are marked, and no two calls hold the same one. -/
structure Claims (s : Service) : Prop where
  once : (heldKeys s.calls).Nodup
  marked : ∀ key ∈ heldKeys s.calls, s.cache.inFlight key = true

section Ended
variable {s s' : Service} {e : Event} {log : List Entry} {key : ProjectKey} {n : Nat} {call : Call}

/-- Once the worker has ended, only calls change the cache. -/
theorem Move.cache_ended (move : Move s e log s') (ended : s.status ≠ .running) (other : e.isCall = false) :
    s'.cache = s.cache := by
  cases move with
  | claimed _ _ => cases other
  | looked _ _ _ => cases other
  | freed _ _ => cases other
  | dispatched running _ _ => exact absurd running ended
  | applied running _ _ => exact absurd running ended
  | released running _ _ => exact absurd running ended
  | reloaded running _ _ => exact absurd running ended
  | swept running _ => exact absurd running ended
  | unswept running _ => exact absurd running ended
  | _ => rfl

theorem Move.knows_ended (move : Move s e log s') (ended : s.status ≠ .running) (key : ProjectKey) :
    s'.cache.knows key = s.cache.knows key := by
  by_cases other : e.isCall = false
  · rw [move.cache_ended ended other]
  · refine move.knows_kept ?_ key
    cases e with
    | look purpose key now => rfl
    | advance n => rfl
    | _ => exact absurd rfl other

theorem run_ended (ended : s.status ≠ .running) (later : List Event) :
    (s.run later).status ≠ .running ∧ ∀ key, (s.run later).cache.knows key = s.cache.knows key := by
  induction later generalizing s with
  | nil => exact ⟨ended, fun _ => rfl⟩
  | cons e rest ih =>
    have move := s.step_move e
    obtain ⟨ended', knows⟩ := ih fun running => ended (move.ran running)
    exact ⟨ended', fun key => (knows key).trans (move.knows_ended ended key)⟩

/-- A worker that is gone does not come back. -/
theorem Move.deaf (move : Move s e log s') (deaf : s.status.listens = false) : s'.status.listens = false := by
  have absurd {status : WorkerStatus} (was : s.status = status) (heard : status.listens = true) : False := by
    rw [was, heard] at deaf
    cases deaf
  cases move with
  | dispatched running _ _ => exact (absurd running rfl).elim
  | applied running _ _ => exact (absurd running rfl).elim
  | released running _ _ => exact (absurd running rfl).elim
  | stopTaken running _ => exact (absurd running rfl).elim
  | abandoned running => exact (absurd running rfl).elim
  | vanished stopping => exact (absurd stopping rfl).elim
  | unparted _ _ => rfl
  | unswept _ _ => rfl
  | crashed _ => rfl
  | _ => exact deaf

theorem ended_of_deaf (deaf : s.status.listens = false) : s.status ≠ .running := fun running => by
  rw [running] at deaf
  cases deaf

theorem heldKeys_append (a b : List Call) : heldKeys (a ++ b) = heldKeys a ++ heldKeys b := by
  simp only [heldKeys, List.filter_append, List.map_append]

theorem heldKeys_singleton (held : call.stage ≠ .decided) : heldKeys [call] = [call.key] := by
  rw [heldKeys, List.filter_singleton, decide_eq_true held]
  rfl

theorem heldKeys_of_decided {calls : List Call} (decided : ∀ call ∈ calls, call.stage = .decided) :
    heldKeys calls = [] := by
  rw [heldKeys, List.filter_eq_nil_iff.mpr fun call member => by simpa using decided call member, List.map_nil]

/-- A call that is replaced takes along what it holds. -/
theorem heldKeys_replaceCall (atCall : s.calls[n]? = some call) (calls : List Call) :
    (heldKeys s.calls ++ heldKeys calls).Perm (heldKeys [call] ++ heldKeys (s.replaceCall n calls).calls) := by
  obtain ⟨bound, here⟩ := List.getElem?_eq_some_iff.mp atCall
  have parted : s.calls = s.calls.take n ++ ([call] ++ s.calls.drop (n + 1)) := by
    rw [List.singleton_append, ← here, List.getElem_cons_drop, List.take_append_drop]
  rw [congrArg heldKeys parted]
  refine List.perm_iff_count.mpr fun key => ?_
  simp only [replaceCall, heldKeys_append, List.count_append]
  omega

theorem heldKeys_leave (atCall : s.calls[n]? = some call) (held : call.stage ≠ .decided) (calls : List Call)
    (decided : ∀ c ∈ calls, c.stage = .decided) :
    (heldKeys s.calls).Perm (call.key :: heldKeys (s.replaceCall n calls).calls) := by
  have moved := heldKeys_replaceCall atCall calls
  rwa [heldKeys_of_decided decided, List.append_nil, heldKeys_singleton held] at moved

/-- What an event does to the marks once the worker has ended: a call claims a key, sends it or gives it
back, or all stays as it is. -/
inductive Handled (s s' : Service) : Prop
  | claimed (key : ProjectKey) : s.cache.inFlight key = false →
      (heldKeys s'.calls).Perm (key :: heldKeys s.calls) →
      (∀ k, s'.cache.inFlight k = (s.cache.inFlight k || decide (k = key))) → Handled s s'
  | sent (key : ProjectKey) : s.status.listens = true →
      (heldKeys s.calls).Perm (key :: heldKeys s'.calls) →
      (∀ k, s'.cache.inFlight k = s.cache.inFlight k) → Handled s s'
  | freed (key : ProjectKey) : (heldKeys s.calls).Perm (key :: heldKeys s'.calls) →
      (∀ k, s'.cache.inFlight k = if k = key then false else s.cache.inFlight k) → Handled s s'
  | kept : (heldKeys s'.calls).Perm (heldKeys s.calls) →
      (∀ k, s'.cache.inFlight k = s.cache.inFlight k) → Handled s s'

theorem Move.handled (move : Move s e log s') (ended : s.status ≠ .running) : Handled s s' := by
  cases move with
  | @claimed purpose key now cache l samples got wanted =>
    have looked := Cache.get_looked got
    obtain ⟨wants, _, schedule⟩ := looked.decision
    rw [wanted, eq_comm, Bool.and_eq_true, Bool.not_eq_true'] at schedule
    refine .claimed key schedule.2 ?_ fun k => by rw [looked.inFlight, wanted, Bool.and_true]
    rw [heldKeys_append, heldKeys_singleton (by exact nofun)]
    exact List.perm_append_singleton ..
  | looked got unwanted decided =>
    refine .kept ?_ fun k => by rw [(Cache.get_looked got).inFlight, unwanted, Bool.and_false, Bool.or_false]
    rw [heldKeys_append, heldKeys_of_decided decided, List.append_nil]
  | @mailed n call atCall claimed listening =>
    have leave := heldKeys_leave atCall (by rw [claimed]; exact nofun) call.rest fun _ => rest_stage
    exact .sent call.key listening leave fun _ => rfl
  | @refused n call atCall claimed _ =>
    refine .kept ?_ fun _ => rfl
    have before : heldKeys [call] = [call.key] := heldKeys_singleton (by rw [claimed]; exact nofun)
    have moved := heldKeys_replaceCall atCall [{ call with stage := .refused }]
    rw [before] at moved
    exact ((List.perm_append_left_iff [call.key]).mp (List.perm_append_comm.trans moved)).symm
  | @freed n call atCall refused =>
    have leave := heldKeys_leave atCall (by rw [refused]; exact nofun) call.rest fun _ => rest_stage
    exact .freed call.key leave fun k => Cache.inFlight_fail ..
  | @judged n call outcomes samples atCall decided =>
    refine .kept ?_ fun _ => rfl
    have moved := heldKeys_replaceCall atCall []
    have free : heldKeys [call] = [] := heldKeys_of_decided (by simpa using decided)
    rw [free] at moved
    exact (List.append_nil _ ▸ moved).symm
  | dispatched running _ _ => exact absurd running ended
  | applied running _ _ => exact absurd running ended
  | released running _ _ => exact absurd running ended
  | reloaded running _ _ => exact absurd running ended
  | swept running _ => exact absurd running ended
  | unswept running _ => exact absurd running ended
  | _ => exact .kept (.refl _) fun _ => rfl

theorem Claims.handled (claims : s.Claims) (handled : Handled s s') : s'.Claims := by
  cases handled with
  | claimed key unmarked held marks =>
    have fresh : key ∉ heldKeys s.calls := fun inside => by
      rw [claims.marked key inside] at unmarked
      cases unmarked
    refine ⟨held.nodup_iff.mpr (List.nodup_cons.mpr ⟨fresh, claims.once⟩), fun k inside => ?_⟩
    rw [marks, Bool.or_eq_true, decide_eq_true_iff]
    rcases List.mem_cons.mp (held.mem_iff.mp inside) with same | other
    · exact Or.inr same
    · exact Or.inl (claims.marked k other)
  | sent key _ held marks =>
    refine ⟨(List.nodup_cons.mp (held.nodup_iff.mp claims.once)).2, fun k inside => ?_⟩
    rw [marks]
    exact claims.marked k (held.mem_iff.mpr (List.mem_cons_of_mem _ inside))
  | freed key held marks =>
    obtain ⟨own, others⟩ := List.nodup_cons.mp (held.nodup_iff.mp claims.once)
    refine ⟨others, fun k inside => ?_⟩
    have differ : k ≠ key := fun same => own (same ▸ inside)
    rw [marks, if_neg differ]
    exact claims.marked k (held.mem_iff.mpr (List.mem_cons_of_mem _ inside))
  | kept held marks =>
    refine ⟨held.nodup_iff.mpr claims.once, fun k inside => ?_⟩
    rw [marks]
    exact claims.marked k (held.mem_iff.mp inside)

/-- Of a running worker, claims are held by calls that have yet to send them. -/
theorem Owned.claims (owned : s.Owned) (running : s.status = .running) : s.Claims := by
  have held : heldKeys s.calls = s.keysAt .calls := by
    refine congrArg (List.map _) (List.filter_congr fun call member => ?_)
    have unrefused := owned.unrefused running call member
    cases stage : call.stage with
    | refused => exact absurd stage unrefused
    | _ => rfl
  obtain ⟨once, marked⟩ := owned.balanced running
  simp only [List.append_nil] at once marked
  have onTheWay := s.keysAt_sublist .calls
  rw [← held] at onTheWay
  exact ⟨once.sublist onTheWay, fun key inside => (marked key).mp (onTheWay.subset inside)⟩

/-- The step with which the worker ends leaves calls and marks as they are. -/
theorem Move.ending (move : Move s e log s') (running : s.status = .running) (ended : s'.status ≠ .running) :
    s'.calls = s.calls ∧ ∀ key, s'.cache.inFlight key = s.cache.inFlight key := by
  cases move with
  | dispatched _ _ all =>
    obtain ⟨_, _, after⟩ := all.rest
    rw [after]
    exact ⟨rfl, fun _ => rfl⟩
  | applied _ _ _ =>
    rw [status_applyAll] at ended
    exact absurd running ended
  | released _ _ _ =>
    rw [status_releaseAll] at ended
    exact absurd running ended
  | stopTaken _ _ => exact ⟨rfl, fun _ => rfl⟩
  | abandoned _ => exact ⟨rfl, fun _ => rfl⟩
  | unparted _ _ => exact ⟨rfl, fun _ => rfl⟩
  | unswept _ _ => exact ⟨rfl, (Cache.abandonSweep_swept ..).inFlight⟩
  | crashed _ => exact ⟨rfl, fun _ => rfl⟩
  | vanished stopping =>
    rw [running] at stopping
    cases stopping
  | _ => exact absurd running ended

theorem Claims.move (claims : s.Claims) (owned : s.Owned) (move : Move s e log s') : s'.Claims := by
  by_cases running : s.status = .running
  · by_cases still : s'.status = .running
    · exact (owned.move move).claims still
    · obtain ⟨calls, marks⟩ := move.ending running still
      refine ⟨by rw [calls]; exact claims.once, fun key inside => ?_⟩
      rw [calls] at inside
      exact (marks key).trans (claims.marked key inside)
  · exact claims.handled (move.handled running)

theorem Claims.run (claims : s.Claims) (owned : s.Owned) (events : List Event) : (s.run events).Claims := by
  induction events generalizing s with
  | nil => exact claims
  | cons e rest ih => exact ih (claims.move owned (s.step_move e)) (owned.move (s.step_move e))

/-- Once nothing can be sent, no key is abandoned that was not, and none is taken up again. -/
theorem Handled.abandoned_iff (handled : Handled s s') (deaf : s.status.listens = false) (key : ProjectKey) :
    s'.Abandoned key ↔ s.Abandoned key := by
  cases handled with
  | claimed taken unmarked held marks =>
    have marked : s.cache.inFlight key = true → key ≠ taken := fun marked same => by
      rw [same, unmarked] at marked
      cases marked
    rw [Abandoned, Abandoned, marks, held.mem_iff, List.mem_cons, Bool.or_eq_true, decide_eq_true_iff]
    tauto
  | sent _ listening _ _ =>
    rw [deaf] at listening
    cases listening
  | freed given held marks =>
    rw [Abandoned, Abandoned, marks, held.mem_iff, List.mem_cons]
    by_cases own : key = given
    · simp only [own, if_true, true_or, not_true_eq_false, and_false, Bool.false_eq_true, false_and]
    · simp only [own, if_false, false_or]
  | kept held marks => rw [Abandoned, Abandoned, marks, held.mem_iff]

theorem run_deaf (deaf : s.status.listens = false) (later : List Event) :
    (s.run later).status.listens = false ∧ ∀ key, (s.run later).Abandoned key ↔ s.Abandoned key := by
  induction later generalizing s with
  | nil => exact ⟨deaf, fun _ => .rfl⟩
  | cons e rest ih =>
    have move := s.step_move e
    obtain ⟨deaf', abandoned⟩ := ih (move.deaf deaf)
    exact ⟨deaf', fun key => (abandoned key).trans ((move.handled (ended_of_deaf deaf)).abandoned_iff deaf key)⟩

theorem Claims.inFlight_iff (claims : s.Claims) (key : ProjectKey) :
    s.cache.inFlight key = true ↔ s.Abandoned key ∨ key ∈ heldKeys s.calls := by
  have marked := claims.marked key
  unfold Abandoned
  tauto

/-- Whatever calls come and go, a key that none of them holds any more is marked or not as before. -/
theorem Claims.restored (claims : s.Claims) (owned : s.Owned) (deaf : s.status.listens = false)
    (later : List Event) (free : key ∉ heldKeys s.calls) (free' : key ∉ heldKeys (s.run later).calls) :
    (s.run later).cache.inFlight key = s.cache.inFlight key := by
  have marked := claims.inFlight_iff key
  have marked' := (claims.run owned later).inFlight_iff key
  rw [or_iff_left free] at marked
  rw [or_iff_left free', (run_deaf deaf later).2 key, ← marked] at marked'
  exact Bool.eq_iff_iff.mpr marked'

theorem getElem?_replaceCall (atCall : s.calls[n]? = some call) (c : Call) (rest : List Call) :
    (s.replaceCall n (c :: rest)).calls[n]? = some c := by
  obtain ⟨bound, _⟩ := List.getElem?_eq_some_iff.mp atCall
  have front : (s.calls.take n).length = n := List.length_take_of_le (Nat.le_of_lt bound)
  rw [replaceCall, List.append_assoc, List.getElem?_append_right (Nat.le_of_eq front), front, Nat.sub_self]
  rfl

theorem advance_claimed (deaf : s.status.listens = false) (atCall : s.calls[n]? = some call)
    (claimed : call.stage = .claimed) : s.advance n = s.replaceCall n [{ call with stage := .refused }] := by
  simp only [advance, atCall, claimed, deaf, Bool.false_eq_true, if_false]

theorem advance_refused (atCall : s.calls[n]? = some call) (refused : call.stage = .refused) :
    s.advance n = { s with cache := s.cache.fail call.key, calls := (s.replaceCall n call.rest).calls } := by
  simp only [advance, atCall, refused]
  rfl

/-- A claim that cannot be sent is given back by the next two steps of its call. -/
theorem gives_back (deaf : s.status.listens = false) (atCall : s.calls[n]? = some call)
    (held : call.stage ≠ .decided) :
    ∃ steps ≤ 2, ∀ k, (s.run (List.replicate steps (.advance n))).cache.inFlight k =
      if k = call.key then false else s.cache.inFlight k := by
  cases stage : call.stage with
  | decided => exact absurd stage held
  | refused =>
    refine ⟨1, by omega, fun k => ?_⟩
    change (s.advance n).cache.inFlight k = _
    rw [advance_refused atCall stage]
    exact Cache.inFlight_fail ..
  | claimed =>
    refine ⟨2, Nat.le_refl _, fun k => ?_⟩
    change ((s.advance n).advance n).cache.inFlight k = _
    have atRefused := getElem?_replaceCall atCall { call with stage := .refused } []
    rw [advance_claimed deaf atCall stage, advance_refused atRefused rfl]
    exact Cache.inFlight_fail ..

section Last
variable {before : List Call}

theorem replaceCall_last (last : s.calls = before ++ [call]) (calls : List Call) :
    (s.replaceCall before.length calls).calls = before ++ calls := by
  rw [replaceCall, last, List.take_left, List.drop_eq_nil_of_le (by simp), List.append_nil]

theorem advance_past (all : s.calls = before) : s.advance before.length = s := by
  have none : s.calls[before.length]? = none := by rw [all, List.getElem?_eq_none (Nat.le_refl _)]
  simp only [advance, none]

theorem advance_last (last : s.calls = before ++ [call]) (decided : call.stage = .decided) :
    (s.advance before.length).calls = before ∧ (s.advance before.length).cache = s.cache := by
  have atCall : s.calls[before.length]? = some call := by rw [last, List.getElem?_concat_length]
  obtain ⟨_, _, judged⟩ := judge_eq (s.replaceCall before.length []) call.key call.decision
  simp only [advance, atCall, decided, judged]
  exact ⟨(replaceCall_last last []).trans (List.append_nil _), rfl⟩

/-- A decided call at the end leaves the cache as it is. -/
theorem finish_decided (last : s.calls = before ++ [call]) (decided : call.stage = .decided) :
    (s.finish before.length).calls = before ∧ (s.finish before.length).cache = s.cache := by
  obtain ⟨calls, cache⟩ := advance_last last decided
  rw [finish, advance_past calls, advance_past calls]
  exact ⟨calls, cache⟩

/-- A call at the end gives its claim back if it cannot send it. -/
theorem finish_claimed (deaf : s.status.listens = false) (last : s.calls = before ++ [call])
    (claimed : call.stage = .claimed) :
    (s.finish before.length).calls = before ∧ (s.finish before.length).cache = s.cache.fail call.key := by
  have atCall : s.calls[before.length]? = some call := by rw [last, List.getElem?_concat_length]
  let refused : Call := { call with stage := .refused }
  have atRefused : (s.replaceCall before.length [refused]).calls[before.length]? = some refused :=
    getElem?_replaceCall atCall refused []
  have given : ((s.advance before.length).advance before.length).calls = before ++ refused.rest ∧
      ((s.advance before.length).advance before.length).cache = s.cache.fail call.key := by
    rw [advance_claimed deaf atCall claimed, advance_refused atRefused rfl]
    exact ⟨replaceCall_last (replaceCall_last last [refused]) refused.rest, rfl⟩
  rw [finish]
  generalize (s.advance before.length).advance before.length = freed at given ⊢
  obtain ⟨calls, cache⟩ := given
  rw [← cache]
  cases purpose : call.purpose with
  | lookup =>
    have nothing : refused.rest = [] := by simp only [Call.rest, refused, purpose]
    rw [nothing, List.append_nil] at calls
    rw [advance_past calls]
    exact ⟨calls, rfl⟩
  | check =>
    have decided : refused.rest = [{ refused with stage := .decided }] := by
      simp only [Call.rest, refused, purpose]
    rw [decided] at calls
    exact advance_last calls rfl

/-- A call that nothing happens in between leaves all marks as they were, and no call behind. -/
theorem call_deaf {purpose : Purpose} {now : Instant} {d : Decision} (deaf : s.status.listens = false)
    (called : s.call purpose key now = .ok (s', d)) :
    s'.calls = s.calls ∧ ∀ k, s'.cache.inFlight k = s.cache.inFlight k := by
  cases got : s.cache.get key now with
  | error fault =>
    rw [call, look, got] at called
    cases called
  | ok answer =>
    obtain ⟨cache, l⟩ := answer
    have looked := Cache.get_looked got
    obtain ⟨wants, _, schedule⟩ := looked.decision
    rw [call, s.look_ok got] at called
    cases called
    let next : Service := { s with cache, calls := s.calls ++ l.opened purpose key, samples := s.samples ++ l.samples }
    change (next.finish s.calls.length).calls = _ ∧ ∀ k, (next.finish s.calls.length).cache.inFlight k = _
    cases wanted : l.scheduleFetch with
    | true =>
      have opened : next.calls = s.calls ++ [⟨purpose, key, l.decision, .claimed⟩] := by
        simp only [next, Lookup.opened, wanted, if_true]
      obtain ⟨calls, freed⟩ := finish_claimed (s := next) deaf opened rfl
      rw [wanted, eq_comm, Bool.and_eq_true, Bool.not_eq_true'] at schedule
      refine ⟨calls, fun k => ?_⟩
      rw [freed, Cache.inFlight_fail, looked.inFlight, wanted, Bool.and_true]
      split
      · rename_i own
        rw [own, schedule.2]
      · rename_i other
        rw [decide_eq_false other, Bool.or_false]
    | false =>
      have marks (k : ProjectKey) : cache.inFlight k = s.cache.inFlight k := by
        rw [looked.inFlight, wanted, Bool.and_false, Bool.or_false]
      cases purpose with
      | lookup =>
        have opened : next.calls = s.calls := by
          simp only [next, Lookup.opened, wanted, Bool.false_eq_true, if_false, Call.rest, List.append_nil]
        rw [finish, advance_past opened, advance_past opened, advance_past opened]
        exact ⟨opened, marks⟩
      | check =>
        have opened : next.calls = s.calls ++ [⟨.check, key, l.decision, .decided⟩] := by
          simp only [next, Lookup.opened, wanted, Bool.false_eq_true, if_false, Call.rest]
        obtain ⟨calls, kept⟩ := finish_decided opened rfl
        exact ⟨calls, fun k => by rw [kept, ← marks]⟩

end Last

theorem look_decides (s : Service) (purpose : Purpose) (key : ProjectKey) (now : Instant) :
    (s.look purpose key now).map (·.2) = ((s.cache.knows key).read s.cache.policy now).map (·.decision) := by
  have asked : (s.look purpose key now).map (·.2) = ((s.cache.get key now).map (·.2)).map (·.decision) := by
    unfold look
    cases s.cache.get key now <;> rfl
  rw [asked, Cache.get_answer, Cache.read_eq]
  cases (s.cache.knows key).read s.cache.policy now <;> rfl

theorem call_ok (bounded : s.cache.policy.Bounded) (purpose : Purpose) (key : ProjectKey) (now : Instant) :
    ∃ s' d, s.call purpose key now = .ok (s', d) := by
  obtain ⟨r, read⟩ := Cache.read_eq_ok bounded key now
  obtain ⟨cache, l, got⟩ := Cache.get_ok_of_read read
  unfold call look
  rw [got]
  exact ⟨_, _, rfl⟩

end Ended

/-- What has become of a service `s` whose worker has ended. -/
structure Ended (s s' : Service) : Prop where
  ended : s'.status ≠ .running
  /-- Nothing is applied, reloaded or swept any more. -/
  unapplied : ∀ e, e.isCall = false → (s'.step e).cache = s'.cache
  knows : ∀ key, s'.cache.knows key = s.cache.knows key

/-- What has become of a service `s` to whose worker nothing can be sent. -/
structure Gone (s s' : Service) : Prop where
  deaf : s'.status.listens = false
  answers : s.cache.policy.Bounded → ∀ purpose key now, ∃ s'' d, s'.call purpose key now = .ok (s'', d)
  /-- A call is answered by the age of what was known at the end. -/
  decides : ∀ purpose key now,
    (s'.look purpose key now).map (·.2) = ((s.cache.knows key).read s.cache.policy now).map (·.decision)
  /-- A call that nothing happens in between leaves no trace. -/
  traceless : ∀ purpose key now s'' d, s'.call purpose key now = .ok (s'', d) →
    s''.calls = s'.calls ∧ ∀ k, s''.cache.inFlight k = s'.cache.inFlight k
  /-- With calls going on, a key is marked if it was left behind or if one of them holds it. -/
  marked : ∀ key, s'.cache.inFlight key = true ↔ s.Abandoned key ∨ key ∈ heldKeys s'.calls
  once : (heldKeys s'.calls).Nodup
  apart : ∀ key ∈ heldKeys s'.calls, ¬ s.Abandoned key
  /-- Whatever calls go on at the same time, when none holds a key it is marked or not as before. -/
  restored : ∀ later key, key ∉ heldKeys s'.calls → key ∉ heldKeys (s'.run later).calls →
    (s'.run later).cache.inFlight key = s'.cache.inFlight key
  /-- A call that holds a key gives it back. -/
  freed : ∀ (n : Nat) call, s'.calls[n]? = some call → call.stage ≠ .decided →
    ∃ steps ≤ 2, ∀ k, (s'.run (List.replicate steps (.advance n))).cache.inFlight k =
      if k = call.key then false else s'.cache.inFlight k

end Service

end AdmissionCache
