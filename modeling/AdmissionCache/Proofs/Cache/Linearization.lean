import AdmissionCache.Cache.Threads
import AdmissionCache.Proofs.Cache.Views

namespace AdmissionCache

namespace Cache

/-- A slot that is set to what it is stays as it is. -/
theorem setSlot_slotOrNew {c : Cache} {key : ProjectKey} {s : Slot} (present : c.slot? key = some s) :
    c.setSlot key (c.slotOrNew key) = c := by
  have same : c.slots.insert key (c.slotOrNew key) = c.slots := by
    refine KeyMap.ext_get? fun other => ?_
    by_cases own : other = key
    · rw [own, KeyMap.get?_insert_self, slotOrNew_of_slot? present]
      exact present.symm
    · exact KeyMap.get?_insert_of_ne _ own
  rw [setSlot, same]

/-- Whatever happened since the first section of a lookup, the second one does what the lookup
would do if it began now. If it finds nothing to claim, the key has a slot already. -/
theorem claim_eq_get (c : Cache) (key : ProjectKey) (now : Instant) : c.claim key now = c.get key now := by
  cases reads : c.read key now with
  | error fault =>
    rw [claim, get, slotOrNew_read, reads]
    rfl
  | ok r =>
    cases wanted : r.wantsFetch with
    | true =>
      rw [get, reads]
      exact (if_pos wanted).symm
    | false =>
      have idle : c.claim key now = .ok (c.setSlot key (c.slotOrNew key), ⟨r.decision, false⟩) := by
        rw [claim, slotOrNew_read, reads]
        simp only [bind, Except.bind, wanted, Bool.or_false]
      have unchanged : c.get key now = .ok (c, ⟨r.decision, false⟩) := by
        rw [get, reads]
        exact if_neg (Bool.eq_false_iff.mp wanted)
      cases present : c.slot? key with
      | none =>
        rw [read, present] at reads
        cases reads
        cases wanted
      | some s => rw [idle, unchanged, setSlot_slotOrNew present]

theorem enterClaim_eq_perform (c : Cache) (key : ProjectKey) (now : Instant) :
    c.enterClaim key now = c.perform (.get key now) := by
  rw [enterClaim, claim_eq_get]
  rfl

/-- An operation that ends with its first section has been performed. -/
theorem perform_of_answered {c c' : Cache} {op : Operation} {answer : Answer}
    (ended : c.enter op = (c', .answered answer)) : c.perform op = (c', answer) := by
  cases op with
  | get key now =>
    rw [perform, get]
    cases reads : c.read key now with
    | error fault =>
      rw [enter, reads] at ended
      cases ended
      rfl
    | ok r =>
      obtain ⟨decision, wants⟩ := r
      rw [enter, reads] at ended
      cases wants with
      | true => cases ended
      | false =>
        cases ended
        rfl
  | _ =>
    cases ended
    rfl

/-- Only a lookup has a second section, and its first one changes nothing. -/
theorem enter_eq_claiming {c c' : Cache} {op : Operation} {key : ProjectKey} {now : Instant}
    (claims : c.enter op = (c', .claiming key now)) : c' = c ∧ op = .get key now := by
  cases op with
  | get key' now' =>
    cases reads : c.read key' now' with
    | error fault =>
      rw [enter, reads] at claims
      cases claims
    | ok r =>
      obtain ⟨decision, wants⟩ := r
      rw [enter, reads] at claims
      cases wants with
      | true =>
        cases claims
        exact ⟨rfl, rfl⟩
      | false => cases claims
  | _ => cases claims

theorem performAll_cons (c : Cache) (op : Operation) (later : List Operation) :
    c.performAll (op :: later) =
      (((c.perform op).1.performAll later).1, (c.perform op).2 :: ((c.perform op).1.performAll later).2) := rfl

theorem performAll_append (c : Cache) (ops later : List Operation) :
    c.performAll (ops ++ later) =
      (((c.performAll ops).1.performAll later).1,
        (c.performAll ops).2 ++ ((c.performAll ops).1.performAll later).2) := by
  induction ops generalizing c with
  | nil => rfl
  | cons op ops ih =>
    rw [List.cons_append, performAll_cons, performAll_cons, ih]
    rfl

/-- Whether an operation ends a fetch of a key. -/
def Operation.endsFetch (key : ProjectKey) : Operation → Bool
  | .put own _ _ => own == key
  | .refresh own _ _ => own == key
  | .putMissing own _ => own == key
  | .fail own => own == key
  | _ => false

/-- Whether an operation with such an answer schedules a fetch of a key. -/
def Operation.schedules (key : ProjectKey) : Operation → Answer → Bool
  | .get own _, .lookup l => decide (key = own) && l.scheduleFetch
  | _, _ => false

/-- A fetch is scheduled only where none is under way, and it is under way from then on until it is
ended. -/
theorem perform_marks {c : Cache} {op : Operation} {key : ProjectKey} (kept : op.endsFetch key = false) :
    (c.perform op).1.inFlight key = (c.inFlight key || op.schedules key (c.perform op).2) ∧
      (op.schedules key (c.perform op).2 = true → c.inFlight key = false) := by
  have completed {own stamp learn} (other : (own == key) = false) :
      (c.complete own stamp learn).1.inFlight key = (c.inFlight key || false) := by
    have differ : key ≠ own := fun same => ne_of_beq_false other same.symm
    rw [inFlight_complete, if_neg differ, Bool.or_false]
  cases op with
  | get own now =>
    rw [perform]
    cases got : c.get own now with
    | error fault => exact ⟨(Bool.or_false _).symm, nofun⟩
    | ok result =>
      obtain ⟨c', l⟩ := result
      have looked := get_looked got
      obtain ⟨wants, _, scheduled⟩ := looked.decision
      refine ⟨looked.inFlight key, fun schedules => ?_⟩
      obtain ⟨same, sent⟩ : key = own ∧ l.scheduleFetch = true := by
        simpa [Operation.schedules, orFault, Except.map] using schedules
      rw [same]
      rw [scheduled, Bool.and_eq_true] at sent
      simpa using sent.2
  | peek own now =>
    rw [perform]
    cases c.peek own now <;> exact ⟨(Bool.or_false _).symm, nofun⟩
  | knownRevision own now =>
    rw [perform]
    cases c.knownRevision own now <;> exact ⟨(Bool.or_false _).symm, nofun⟩
  | evictExpired now visited =>
    rw [perform]
    cases swept : c.evictExpired now with
    | error fault =>
      exact ⟨((c.abandonSweep_swept now visited).inFlight key).trans (Bool.or_false _).symm, nofun⟩
    | ok result =>
      obtain ⟨c', removed⟩ := result
      exact ⟨((evictExpired_swept swept).inFlight key).trans (Bool.or_false _).symm, nofun⟩
  | applyOverride own config now =>
    exact ⟨(inFlight_applyOverride ..).trans (Bool.or_false _).symm, nofun⟩
  | invalidate own => exact ⟨(inFlight_invalidate ..).trans (Bool.or_false _).symm, nofun⟩
  | fail own =>
    have differ : key ≠ own := fun same => ne_of_beq_false kept same.symm
    exact ⟨((inFlight_fail ..).trans (if_neg differ)).trans (Bool.or_false _).symm, nofun⟩
  | put own config stamp =>
    have unmarked : (c.put own config stamp).1.inFlight key = (c.inFlight key || false) := completed kept
    exact ⟨unmarked, nofun⟩
  | refresh own revision stamp =>
    have unmarked : (c.refresh own revision stamp).1.inFlight key = (c.inFlight key || false) := completed kept
    exact ⟨unmarked, nofun⟩
  | putMissing own stamp =>
    have unmarked : (c.putMissing own stamp).1.inFlight key = (c.inFlight key || false) := completed kept
    exact ⟨unmarked, nofun⟩
  | size => exact ⟨(Bool.or_false _).symm, nofun⟩
  | isEmpty => exact ⟨(Bool.or_false _).symm, nofun⟩

/-- What the operations of a history answer one after the other. -/
def Replays {τ : Type u} (c : Cache) (history : List (Completed τ)) (c' : Cache) : Prop :=
  c.performAll (history.map (·.operation)) = (c', history.map (·.answer))

section Histories
variable {τ : Type u} {c c' : Cache} {key : ProjectKey}

theorem replays_cons {d : Completed τ} {later : List (Completed τ)} :
    Replays c (d :: later) c' ↔ ∃ next, c.perform d.operation = (next, d.answer) ∧ Replays next later c' := by
  rw [Replays, List.map_cons, List.map_cons, performAll_cons]
  constructor
  · intro same
    obtain ⟨cache, answers⟩ := Prod.mk.inj same
    obtain ⟨first, rest⟩ := List.cons.inj answers
    exact ⟨(c.perform d.operation).1, Prod.ext rfl first, Prod.ext cache rest⟩
  · rintro ⟨next, performed, replays⟩
    rw [performed]
    exact Prod.ext (congrArg (·.1) replays) (congrArg (d.answer :: ·.2) replays)

theorem replays_append {history later : List (Completed τ)} :
    Replays c (history ++ later) c' ↔ ∃ next, Replays c history next ∧ Replays next later c' := by
  induction history generalizing c with
  | nil => exact ⟨fun replays => ⟨c, rfl, replays⟩, fun ⟨_, same, replays⟩ => by cases same; exact replays⟩
  | cons d history ih =>
    rw [List.cons_append, replays_cons]
    constructor
    · rintro ⟨first, performed, replays⟩
      obtain ⟨next, before, after⟩ := ih.mp replays
      exact ⟨next, replays_cons.mpr ⟨first, performed, before⟩, after⟩
    · rintro ⟨next, before, after⟩
      obtain ⟨first, performed, replays⟩ := replays_cons.mp before
      exact ⟨first, performed, ih.mpr ⟨next, replays, after⟩⟩

/-- Whether an operation that has ended scheduled a fetch of a key. -/
def Completed.schedules (key : ProjectKey) (d : Completed τ) : Bool := d.operation.schedules key d.answer

/-- As long as no fetch of a key ends, it is scheduled once at most, and not at all if a fetch is
under way. -/
theorem Replays.schedules_le {history : List (Completed τ)} (replays : Replays c history c')
    (kept : ∀ d ∈ history, d.operation.endsFetch key = false) :
    (history.filter (·.schedules key)).length + (if c.inFlight key then 1 else 0) ≤ 1 := by
  induction history generalizing c with
  | nil =>
    rw [List.filter_nil, List.length_nil]
    split <;> omega
  | cons d history ih =>
    obtain ⟨next, performed, later⟩ := replays_cons.mp replays
    have rest := ih later fun e member => kept e (List.mem_cons_of_mem _ member)
    obtain ⟨marks, free⟩ := perform_marks (c := c) (kept d (List.mem_cons_self ..))
    rw [performed] at marks free
    rw [marks] at rest
    cases sent : d.operation.schedules key d.answer with
    | true =>
      have head : (d :: history).filter (·.schedules key) = d :: history.filter (·.schedules key) :=
        List.filter_cons_of_pos sent
      rw [sent, Bool.or_true, if_pos rfl] at rest
      rw [head, List.length_cons, free sent]
      simpa using rest
    | false =>
      have head : (d :: history).filter (·.schedules key) = history.filter (·.schedules key) :=
        List.filter_cons_of_neg (by rw [Completed.schedules, sent]; exact Bool.false_ne_true)
      rw [sent, Bool.or_false] at rest
      rw [head]
      exact rest

end Histories

/-- The operations that a thread has not ended. -/
def Thread.pending (thread : Thread) : List Operation :=
  (thread.claim.map fun claim => .get claim.1 claim.2).toList ++ thread.waiting

/-- The most sections that a thread still needs. -/
def Thread.sectionsLeft (thread : Thread) : Nat := thread.claim.toList.length + 2 * thread.waiting.length

theorem Thread.pending_eq_nil {thread : Thread} (rested : thread.sectionsLeft = 0) : thread.pending = [] := by
  rw [sectionsLeft, Nat.add_eq_zero_iff, Nat.mul_eq_zero] at rested
  have unclaimed : thread.claim = none := Option.toList_eq_nil_iff.mp (List.length_eq_zero_iff.mp rested.1)
  have idle : thread.waiting = [] := List.length_eq_zero_iff.mp (rested.2.resolve_left (by decide))
  rw [pending, unclaimed, idle]
  rfl

namespace Threads

variable {τ : Type u} [DecidableEq τ]

theorem each_leave_self (s : Threads τ) (t : τ) (c : Cache) (thread : Thread) : (s.leave t c thread).each t = thread :=
  if_pos rfl

theorem each_leave_of_ne (s : Threads τ) {t u : τ} (differ : u ≠ t) (c : Cache) (thread : Thread) :
    (s.leave t c thread).each u = s.each u := if_neg differ

/-- All that a section of the thread `t` can do: nothing, if the thread has no operation left; read
for a lookup that has to claim; or end the thread's next operation, as if it were performed now. -/
inductive Turned (s : Threads τ) (t : τ) : Threads τ × Option (Completed τ) → Prop
  | idle : (s.each t).sectionsLeft = 0 → Turned s t (s, none)
  | reads {thread} : thread.pending = (s.each t).pending → thread.sectionsLeft < (s.each t).sectionsLeft →
      Turned s t (s.leave t s.cache thread, none)
  | ends {c op answer waiting} : (s.each t).pending = op :: waiting → 2 * waiting.length < (s.each t).sectionsLeft →
      s.cache.perform op = (c, answer) → Turned s t (s.leave t c ⟨none, waiting⟩, some ⟨t, op, answer⟩)

theorem turn_turned (s : Threads τ) (t : τ) : Turned s t (s.turn t) := by
  have oneMore (op : Operation) (waiting : List Operation) : (op :: waiting).length = waiting.length + 1 := rfl
  unfold turn
  split
  · rename_i key now waiting here
    rw [enterClaim_eq_perform]
    refine .ends (by rw [here]; rfl) ?_ rfl
    rw [here]
    exact Nat.lt_add_of_pos_left Nat.one_pos
  · rename_i here
    exact .idle (by rw [here]; rfl)
  · rename_i op waiting here
    have left : (s.each t).sectionsLeft = 2 * waiting.length + 2 := by
      rw [here, Thread.sectionsLeft, oneMore]
      exact Nat.zero_add _
    split
    · rename_i c answer ended
      exact .ends (by rw [here]; rfl) (by omega) (perform_of_answered ended)
    · rename_i c key now claims
      obtain ⟨rfl, rfl⟩ := enter_eq_claiming claims
      refine .reads (by rw [here]; rfl) ?_
      have claiming : Thread.sectionsLeft ⟨some (key, now), waiting⟩ = 1 + 2 * waiting.length := rfl
      omega

variable {s : Threads τ} {t : τ} {r : Threads τ × Option (Completed τ)}

/-- Only the end of an operation changes the cache. -/
theorem Turned.replays (turned : Turned s t r) : Replays s.cache r.2.toList r.1.cache := by
  cases turned with
  | idle => rfl
  | reads => rfl
  | ends _ _ performed => exact replays_cons.mpr ⟨_, performed, rfl⟩

/-- No operation gets lost, and each is ended by its own thread. -/
theorem Turned.pending (turned : Turned s t r) (u : τ) :
    (s.each u).pending = (r.2.toList.filter (·.thread = u)).map (·.operation) ++ (r.1.each u).pending := by
  by_cases own : u = t
  · subst own
    cases turned with
    | idle => rfl
    | reads same _ =>
      rw [each_leave_self]
      exact same.symm
    | ends next _ _ =>
      rw [each_leave_self, next]
      simp [Thread.pending]
  · cases turned with
    | idle => rfl
    | reads _ _ =>
      rw [each_leave_of_ne s own]
      rfl
    | ends _ _ _ =>
      have foreign : ¬ t = u := fun same => own same.symm
      rw [each_leave_of_ne s own]
      simp [foreign]

/-- Each section of a thread brings it closer to its end. -/
theorem Turned.sectionsLeft_le (turned : Turned s t r) (u : τ) :
    (r.1.each u).sectionsLeft ≤ (s.each u).sectionsLeft - [t].count u := by
  by_cases own : u = t
  · subst own
    rw [List.count_singleton_self]
    cases turned with
    | idle rested => exact Nat.le_of_eq (by rw [rested])
    | reads _ less =>
      rw [each_leave_self]
      omega
    | @ends c op answer waiting _ less _ =>
      have rest : Thread.sectionsLeft ⟨none, waiting⟩ = 2 * waiting.length := Nat.zero_add _
      rw [each_leave_self]
      omega
  · have none : [t].count u = 0 := List.count_eq_zero.mpr fun member => own (List.mem_singleton.mp member)
    rw [none, Nat.sub_zero]
    cases turned with
    | idle _ => exact Nat.le_refl _
    | reads _ _ => exact Nat.le_of_eq (congrArg Thread.sectionsLeft (each_leave_of_ne s own ..))
    | ends _ _ _ => exact Nat.le_of_eq (congrArg Thread.sectionsLeft (each_leave_of_ne s own ..))

theorem run_replays (s : Threads τ) (schedule : List τ) :
    Replays s.cache (s.run schedule).2 (s.run schedule).1.cache := by
  induction schedule generalizing s with
  | nil => rfl
  | cons t schedule ih => exact replays_append.mpr ⟨_, (turn_turned s t).replays, ih (s.turn t).1⟩

theorem run_pending (s : Threads τ) (schedule : List τ) (u : τ) :
    (s.each u).pending =
      ((s.run schedule).2.filter (·.thread = u)).map (·.operation) ++ ((s.run schedule).1.each u).pending := by
  induction schedule generalizing s with
  | nil => rfl
  | cons t schedule ih =>
    have first := (turn_turned s t).pending u
    rw [ih (s.turn t).1, ← List.append_assoc, ← List.map_append, ← List.filter_append] at first
    exact first

theorem run_sectionsLeft_le (s : Threads τ) (schedule : List τ) (u : τ) :
    ((s.run schedule).1.each u).sectionsLeft ≤ (s.each u).sectionsLeft - schedule.count u := by
  induction schedule generalizing s with
  | nil => exact Nat.le_refl _
  | cons t schedule ih =>
    have first := (turn_turned s t).sectionsLeft_le u
    have later := ih (s.turn t).1
    have sum : (t :: schedule).count u = [t].count u + schedule.count u := by
      rw [← List.singleton_append, List.count_append]
    have same : ((s.run (t :: schedule)).1.each u) = (((s.turn t).1.run schedule).1.each u) := rfl
    rw [same]
    omega

/-- Threads that share a cache are linearizable, in whatever order they get its lock. Every thread ends
its operations in the order of its program, and has ended them all once it has had the lock twice for
each. Every operation answers what it would answer if it were performed as a whole in its last section,
and the cache is the one that these operations make one after the other. So among lookups of a key only
one schedules a fetch, unless a fetch of the key is ended between them. -/
theorem sections_linearizable (c : Cache) (programs : τ → List Operation) (schedule : List τ) :
    let final := ((start c programs).run schedule).1
    let completed := ((start c programs).run schedule).2
    (∀ t, programs t = (completed.filter (·.thread = t)).map (·.operation) ++ (final.each t).pending ∧
        (2 * (programs t).length ≤ schedule.count t → (final.each t).pending = [])) ∧
      c.performAll (completed.map (·.operation)) = (final.cache, completed.map (·.answer)) ∧
      ∀ key before between after, completed = before ++ between ++ after →
        (∀ d ∈ between, d.operation.endsFetch key = false) → (between.filter (·.schedules key)).length ≤ 1 := by
  intro final completed
  have replays : Replays c completed final.cache := run_replays (start c programs) schedule
  refine ⟨fun t => ⟨run_pending (start c programs) schedule t, fun enough => ?_⟩, replays,
    fun key before between after parts kept => ?_⟩
  · have left : (final.each t).sectionsLeft ≤ ((start c programs).each t).sectionsLeft - schedule.count t :=
      run_sectionsLeft_le (start c programs) schedule t
    have all : ((start c programs).each t).sectionsLeft = 2 * (programs t).length := Nat.zero_add _
    exact Thread.pending_eq_nil (by omega)
  · rw [parts, replays_append] at replays
    obtain ⟨afterBetween, early, _⟩ := replays
    obtain ⟨afterBefore, _, during⟩ := replays_append.mp early
    have few := during.schedules_le kept
    omega

/-- Two threads read the same missing key before either claims it. The first one to claim schedules
the fetch, and the other one finds it under way. -/
theorem racing_lookups_schedule_once :
    let c : Cache := { policy := ⟨.ofSecs 10, .zero, .ofSecs 1⟩ }
    let programs : Bool → List Operation := fun t => [.get "a" (if t then .ofMillis 1 else .ofMillis 2)]
    let final := ((start c programs).run [true, false, false, true]).1
    let completed := ((start c programs).run [true, false, false, true]).2
    completed.map (fun d => (d.thread, d.schedules "a")) = [(false, true), (true, false)] ∧
      (∀ t, (final.each t).pending = []) ∧ (completed.filter (·.schedules "a")).length ≤ 1 := by
  intro c programs final completed
  have ran : completed.map (fun d => (d.thread, d.schedules "a")) = [(false, true), (true, false)] := by
    decide +kernel
  have kept : ∀ d ∈ completed, d.operation.endsFetch "a" = false := by decide +kernel
  obtain ⟨each, _, once⟩ := sections_linearizable c programs [true, false, false, true]
  have enough (t : Bool) : 2 * (programs t).length ≤ [true, false, false, true].count t := by cases t <;> decide
  exact ⟨ran, fun t => (each t).2 (enough t), once "a" [] completed [] (List.append_nil _).symm kept⟩

end Threads

end Cache

end AdmissionCache
