import AdmissionCache.Cache.Locked
import AdmissionCache.Proofs.Cache.Linearization

namespace AdmissionCache

theorem map_eq_error_iff {ε α β : Type} {x : Except ε α} {f : α → β} {e : ε} :
    x.map f = .error e ↔ x = .error e := by
  cases x with
  | error fault => exact ⟨fun same => by cases same; rfl, fun same => by cases same; rfl⟩
  | ok a => exact ⟨nofun, nofun⟩

namespace Cache

/-- The key has a configuration whose expiry is over, and the end of the grace period, which is to be
compared next, does not fit a duration. -/
def Unjudged (c : Cache) (key : ProjectKey) (now : Instant) : Prop :=
  ∃ config fetchedAt inFlight, c.slot? key = some ⟨.loaded config fetchedAt, inFlight⟩ ∧
    c.policy.expiry.nanos ≤ (now.since fetchedAt).nanos ∧
    Duration.bound ≤ c.policy.expiry.nanos + c.policy.grace.nanos

end Cache

theorem Policy.classify_eq_error_iff {p : Policy} {fetchedAt now : Instant} :
    p.classify fetchedAt now = .error .graceEnd ↔
      p.expiry.nanos ≤ (now.since fetchedAt).nanos ∧ Duration.bound ≤ p.expiry.nanos + p.grace.nanos := by
  have age : (now.since fetchedAt).nanos = now.nanos - fetchedAt.nanos := rfl
  rw [classify_eq, age]
  split_ifs with fresh bounded
  · exact ⟨nofun, fun old => absurd old.1 (Nat.not_le.mpr fresh)⟩
  · exact ⟨nofun, fun old => absurd old.2 (Nat.not_le.mpr bounded)⟩
  · exact ⟨nofun, fun old => absurd old.2 (Nat.not_le.mpr bounded)⟩
  · exact ⟨fun _ => ⟨Nat.not_lt.mp fresh, Nat.not_lt.mp bounded⟩, fun _ => rfl⟩

theorem Knowledge.read_eq_error_iff {p : Policy} {now : Instant} {k : Knowledge} :
    k.read p now = .error .graceEnd ↔
      ∃ config fetchedAt, k = .loaded config fetchedAt ∧ p.classify fetchedAt now = .error .graceEnd := by
  constructor
  · intro fails
    cases k with
    | nothing => cases fails
    | missing checkedAt =>
      rw [read] at fails
      split at fails <;> cases fails
    | loaded config fetchedAt =>
      refine ⟨config, fetchedAt, rfl, ?_⟩
      rw [read] at fails
      cases classified : p.classify fetchedAt now with
      | error fault =>
        cases fault
        rfl
      | ok freshness =>
        rw [classified] at fails
        cases freshness <;> cases fails
  · rintro ⟨config, fetchedAt, rfl, fails⟩
    rw [read, fails]
    rfl

namespace Cache

theorem read_eq_error_iff {c : Cache} {key : ProjectKey} {now : Instant} :
    c.read key now = .error .graceEnd ↔ c.Unjudged key now := by
  rw [read]
  constructor
  · intro fails
    cases present : c.slot? key with
    | none =>
      rw [present] at fails
      cases fails
    | some s =>
      rw [present] at fails
      obtain ⟨config, fetchedAt, known, old⟩ := Knowledge.read_eq_error_iff.mp (map_eq_error_iff.mp fails)
      exact ⟨config, fetchedAt, s.inFlight, by rw [present, ← known], Policy.classify_eq_error_iff.mp old⟩
  · rintro ⟨config, fetchedAt, inFlight, present, old⟩
    rw [present]
    exact map_eq_error_iff.mpr (Knowledge.read_eq_error_iff.mpr
      ⟨config, fetchedAt, rfl, Policy.classify_eq_error_iff.mpr old⟩)

/-- Where nothing comes between its two sections, a lookup faults in the first one only. -/
theorem get_eq_error_iff {c : Cache} {key : ProjectKey} {now : Instant} :
    c.get key now = .error .graceEnd ↔ c.Unjudged key now := by
  rw [← read_eq_error_iff, get, claim, slotOrNew_read]
  constructor
  · intro fails
    cases reads : c.read key now with
    | error fault =>
      cases fault
      rfl
    | ok r =>
      obtain ⟨decision, wants⟩ := r
      rw [reads] at fails
      cases wants <;> cases fails
  · intro fails
    rw [fails]
    rfl

theorem peek_eq_error_iff {c : Cache} {key : ProjectKey} {now : Instant} :
    c.peek key now = .error .graceEnd ↔ c.Unjudged key now := map_eq_error_iff.trans read_eq_error_iff

theorem knownRevision_eq_error_iff {c : Cache} {key : ProjectKey} {now : Instant} :
    c.knownRevision key now = .error .graceEnd ↔ c.Unjudged key now := map_eq_error_iff.trans peek_eq_error_iff

/-- What code that takes everything back at a fault comes to, and the cache that it leaves. -/
def unwound {α : Type} (c : Cache) : Except PeriodOverflow (Cache × α) → Except PeriodOverflow α × Cache
  | .ok (c', a) => (.ok a, c')
  | .error fault => (.error fault, c)

theorem setSlot_setSlot (c : Cache) (key : ProjectKey) (s t : Slot) :
    (c.setSlot key s).setSlot key t = c.setSlot key t := by
  have same : (c.slots.insert key s).insert key t = c.slots.insert key t := by
    refine KeyMap.ext_get? fun other => ?_
    simp only [KeyMap.get?_insert]
    split <;> rfl
  rw [setSlot, setSlot, same]
  rfl

/-- A slot that a key is given before it is read does not change what is read. -/
theorem read_setSlot_slotOrNew (c : Cache) (key : ProjectKey) (now : Instant) :
    (c.setSlot key (c.slotOrNew key)).read key now = c.read key now := by
  rw [← slotOrNew_read, slotOrNew_setSlot, if_pos rfl, ← slotOrNew_read]
  rfl

namespace Locked

variable {α β : Type}

theorem on_bind (c : Cache) (code : Locked α) (next : α → Locked β) :
    on c (code >>= next) =
      match on c code with
      | (.ok a, c') => on c' (next a)
      | (.error fault, c') => (.error fault, c') := by
  unfold on ExceptT.run StateT.run Id.run
  simp only [bind, ExceptT.bind, ExceptT.mk, StateT.bind, ExceptT.bindCont]
  cases code c with
  | mk result c' => cases result <;> rfl

theorem on_evaluate (c : Cache) (key : ProjectKey) (now : Instant) :
    on c (evaluate key now) = (c.read key now, c) := by
  have same : on c (evaluate key now) = on c (liftExcept (c.read key now)) := rfl
  rw [same]
  cases c.read key now <;> rfl

/-- Only a key with a slot can make a claim fault, and giving it one changed nothing then. -/
theorem on_claim (c : Cache) (key : ProjectKey) (now : Instant) :
    on c (claim key now) = c.unwound (c.claim key now) := by
  have opened : on c (claim key now) = on (c.setSlot key (c.slotOrNew key)) (do
      let r ← evaluate key now
      if r.wantsFetch then
        modify fun c => c.setSlot key { c.slotOrNew key with inFlight := true }
      return ⟨r.decision, r.wantsFetch⟩) := rfl
  rw [opened, on_bind, on_evaluate, read_setSlot_slotOrNew, Cache.claim, slotOrNew_read]
  cases reads : c.read key now with
  | error fault =>
    cases fault
    obtain ⟨config, fetchedAt, inFlight, present, _⟩ := read_eq_error_iff.mp reads
    exact Prod.ext rfl (setSlot_slotOrNew present)
  | ok r =>
    obtain ⟨decision, wants⟩ := r
    cases wants with
    | false =>
      have kept : ({ c.slotOrNew key with inFlight := (c.slotOrNew key).inFlight || false } : Slot) = c.slotOrNew key :=
        congrArg (Slot.mk _) (Bool.or_false _)
      exact Prod.ext rfl (congrArg (c.setSlot key) kept.symm)
    | true =>
      let opened := c.setSlot key (c.slotOrNew key)
      have marked : opened.setSlot key { opened.slotOrNew key with inFlight := true } =
          c.setSlot key { c.slotOrNew key with inFlight := (c.slotOrNew key).inFlight || true } := by
        rw [setSlot_setSlot, slotOrNew_setSlot, if_pos rfl, Bool.or_true]
      exact Prod.ext rfl marked

theorem on_lookup (c : Cache) (key : ProjectKey) (now : Instant) :
    on c (lookup key now) = c.unwound (c.get key now) := by
  rw [lookup, on_bind, on_evaluate, get]
  cases reads : c.read key now with
  | error fault => rfl
  | ok r =>
    obtain ⟨decision, wants⟩ := r
    cases wants with
    | false => rfl
    | true => exact on_claim c key now

theorem on_peek (c : Cache) (key : ProjectKey) (now : Instant) :
    on c (peek key now) = (c.peek key now, c) := by
  have same : peek key now = evaluate key now >>= fun r => pure r.decision.config? := rfl
  rw [same, on_bind, on_evaluate, Cache.peek]
  cases c.read key now <;> rfl

theorem on_knownRevision (c : Cache) (key : ProjectKey) (now : Instant) :
    on c (knownRevision key now) = (c.knownRevision key now, c) := by
  have same : knownRevision key now = peek key now >>= fun config => pure (config.bind (·.revision?)) := rfl
  rw [same, on_bind, on_peek, Cache.knownRevision]
  cases c.peek key now <;> rfl

/-- What a thread answers when its code has come to an end or to a fault, and the cache that it leaves. -/
def answered (answer : α → Answer) : Except PeriodOverflow α × Cache → Cache × Answer
  | (.ok a, c) => (c, answer a)
  | (.error fault, c) => (c, .fault fault)

theorem answered_unwound (answer : α → Answer) (c : Cache) (r : Except PeriodOverflow (Cache × α)) :
    answered answer (c.unwound r) = c.orFault (r.map (·.map id answer)) := by cases r <;> rfl

/-- The second section of the lookups of threads is this code. -/
theorem answered_on_claim (c : Cache) (key : ProjectKey) (now : Instant) :
    answered .lookup (on c (claim key now)) = c.enterClaim key now := by
  rw [on_claim, answered_unwound, enterClaim]

end Locked

def Operation.isRead : Operation → Bool
  | .get _ _ => true
  | .peek _ _ => true
  | .knownRevision _ _ => true
  | _ => false

def Answer.isFault : Answer → Bool
  | .fault _ => true
  | _ => false

/-- Whether a read has ended with a fault. -/
def Completed.faultedRead {τ : Type u} (d : Completed τ) : Bool := d.operation.isRead && d.answer.isFault

theorem perform_of_faultedRead {c c' : Cache} {op : Operation} {answer : Answer}
    (performed : c.perform op = (c', answer)) (read : op.isRead = true) (fault : answer.isFault = true) : c' = c := by
  cases op with
  | get key now =>
    rw [perform] at performed
    cases got : c.get key now with
    | error _ =>
      rw [got] at performed
      cases performed
      rfl
    | ok result =>
      rw [got] at performed
      cases performed
      cases fault
  | peek key now =>
    rw [perform] at performed
    cases peeked : c.peek key now <;>
      · rw [peeked] at performed
        cases performed
        rfl
  | knownRevision key now =>
    rw [perform] at performed
    cases known : c.knownRevision key now <;>
      · rw [known] at performed
        cases performed
        rfl
  | _ => cases read

/-- All that a thread without a claim is. -/
theorem Thread.eq_pending {thread : Thread} (unclaimed : thread.claim = none) : thread = ⟨none, thread.pending⟩ := by
  obtain ⟨claim, waiting⟩ := thread
  cases unclaimed
  rfl

namespace Threads

variable {τ : Type u} [DecidableEq τ]

/-- What one section changed can be put back. -/
theorem leave_leave_self (s : Threads τ) (t : τ) (c : Cache) (thread : Thread) :
    (s.leave t c thread).leave t s.cache (s.each t) = s := by
  have each : ((s.leave t c thread).leave t s.cache (s.each t)).each = s.each := by
    funext u
    by_cases own : u = t
    · rw [own, each_leave_self]
    · rw [each_leave_of_ne _ own, each_leave_of_ne _ own]
  exact congrArg (Threads.mk s.cache) each

/-- The next section of a thread that has read for a lookup. -/
theorem turn_claim {s : Threads τ} {t : τ} {key : ProjectKey} {now : Instant} {waiting : List Operation}
    (here : s.each t = ⟨some (key, now), waiting⟩) :
    s.turn t = (s.leave t (s.cache.perform (.get key now)).1 ⟨none, waiting⟩,
      some ⟨t, .get key now, (s.cache.perform (.get key now)).2⟩) := by
  rw [turn, here, ← enterClaim_eq_perform]

theorem turn_answered {s : Threads τ} {t : τ} {op : Operation} {waiting : List Operation} {c : Cache} {answer : Answer}
    (here : s.each t = ⟨none, op :: waiting⟩) (entered : s.cache.enter op = (c, .answered answer)) :
    s.turn t = (s.leave t c ⟨none, waiting⟩, some ⟨t, op, answer⟩) := by
  simp only [turn, here, entered]

theorem turn_claiming {s : Threads τ} {t : τ} {op : Operation} {waiting : List Operation} {c : Cache}
    {key : ProjectKey} {now : Instant} (here : s.each t = ⟨none, op :: waiting⟩)
    (entered : s.cache.enter op = (c, .claiming key now)) :
    s.turn t = (s.leave t c ⟨some (key, now), waiting⟩, none) := by
  simp only [turn, here, entered]

/-- The same threads before the same cache, except that some have no need of the claim which they were
about to make. -/
def Spares (s r : Threads τ) : Prop :=
  r.cache = s.cache ∧ ∀ u, (r.each u).claim = (s.each u).claim ∨ (r.each u).claim = none

variable {s r : Threads τ} {t : τ} {c : Cache} {thread mine : Thread} {waiting : List Operation}

theorem Spares.skip (spares : Spares (s.leave t s.cache thread) r) (unclaimed : (r.each t).claim = none) :
    Spares s r := by
  refine ⟨spares.1, fun u => ?_⟩
  by_cases own : u = t
  · exact .inr (own ▸ unclaimed)
  · have kept := spares.2 u
    rwa [each_leave_of_ne s own] at kept

theorem Spares.before (spares : Spares (s.leave t c thread) r) (same : mine.claim = (s.each t).claim) :
    Spares s (r.leave t s.cache mine) := by
  refine ⟨rfl, fun u => ?_⟩
  by_cases own : u = t
  · rw [own, each_leave_self]
    exact .inl same
  · have kept := spares.2 u
    rw [each_leave_of_ne s own] at kept
    rwa [each_leave_of_ne r own]

theorem Spares.unclaimed (spares : Spares (s.leave t c ⟨none, waiting⟩) r) :
    r.each t = ⟨none, (r.each t).waiting⟩ := by
  have unclaimed : (r.each t).claim = none := by
    have kept := spares.2 t
    rw [each_leave_self] at kept
    exact kept.elim id id
  rw [← unclaimed]

/-- What a section of `s` ended can be had on the way to `r`: without any section, as a read that
faulted is of no account, or by the same section. -/
def Mirrors (s r : Threads τ) (t : τ) (ended : Option (Completed τ)) : Prop :=
  (ended.toList.filter (!·.faultedRead) = [] ∧ Spares s r) ∨
    (ended.toList.filter (!·.faultedRead) = ended.toList ∧ ∃ q, Spares s q ∧ q.turn t = (r, ended))

theorem Spares.ends {op : Operation} {answer : Answer} (spares : Spares (s.leave t c ⟨none, waiting⟩) r)
    (performed : s.cache.perform op = (c, answer)) (same : mine.claim = (s.each t).claim)
    (again : (r.leave t s.cache mine).turn t =
      ((r.leave t s.cache mine).leave t c ⟨none, (r.each t).waiting⟩, some ⟨t, op, answer⟩)) :
    Mirrors s r t (some ⟨t, op, answer⟩) := by
  have unclaimed := spares.unclaimed
  cases faulted : Completed.faultedRead ⟨t, op, answer⟩ with
  | true =>
    obtain ⟨read, fault⟩ := Bool.and_eq_true_iff.mp faulted
    have kept : c = s.cache := perform_of_faultedRead performed read fault
    rw [kept] at spares
    exact .inl ⟨List.filter_cons_of_neg (by rw [faulted]; exact Bool.false_ne_true),
      spares.skip (congrArg Thread.claim unclaimed)⟩
  | false =>
    have cache : c = r.cache := spares.1.symm
    rw [cache, ← unclaimed, leave_leave_self] at again
    exact .inr ⟨List.filter_cons_of_pos (by rw [faulted]; rfl), _, spares.before same, again⟩

theorem turn_spared (spares : Spares (s.turn t).1 r) : Mirrors s r t (s.turn t).2 := by
  rcases here : s.each t with ⟨claim | ⟨key, now⟩, waiting⟩
  · cases waiting with
    | nil =>
      have idle : s.turn t = (s, none) := by simp only [turn, here]
      rw [idle] at spares ⊢
      exact .inl ⟨rfl, spares⟩
    | cons op waiting =>
      rcases entered : s.cache.enter op with ⟨c, stage⟩
      have again := each_leave_self r t s.cache ⟨none, op :: (r.each t).waiting⟩
      cases stage with
      | answered answer =>
        rw [turn_answered here entered] at spares ⊢
        exact spares.ends (perform_of_answered entered) (by rw [here]) (turn_answered again entered)
      | claiming key now =>
        have same : c = s.cache := (enter_eq_claiming entered).1
        rw [turn_claiming here entered] at spares ⊢
        cases claim : (r.each t).claim with
        | none =>
          rw [same] at spares
          exact .inl ⟨rfl, spares.skip claim⟩
        | some own =>
          have claims : (r.each t).claim = some (key, now) := by
            have kept := spares.2 t
            rw [each_leave_self] at kept
            exact kept.resolve_right (by rw [claim]; exact nofun)
          have theirs : r.each t = ⟨some (key, now), (r.each t).waiting⟩ := by rw [← claims]
          have cache : c = r.cache := spares.1.symm
          have turned := turn_claiming again entered
          rw [cache, ← theirs, leave_leave_self] at turned
          exact .inr ⟨rfl, _, spares.before (by rw [here]), turned⟩
  · have again := each_leave_self r t s.cache ⟨some (key, now), (r.each t).waiting⟩
    rw [turn_claim here] at spares ⊢
    exact spares.ends rfl (by rw [here]) (turn_claim again)

/-- Whatever the threads do, they can do it without the reads that fault. -/
theorem run_spared (s : Threads τ) (schedule : List τ) :
    ∃ r sections, sections.Sublist schedule ∧ Spares s r ∧
      r.run sections = ((s.run schedule).1, (s.run schedule).2.filter (!·.faultedRead)) := by
  induction schedule generalizing s with
  | nil => exact ⟨s, [], .slnil, ⟨rfl, fun _ => .inl rfl⟩, rfl⟩
  | cons t schedule ih =>
    obtain ⟨r, sections, sublist, spares, ran⟩ := ih (s.turn t).1
    have whole : s.run (t :: schedule) =
        (((s.turn t).1.run schedule).1, (s.turn t).2.toList ++ ((s.turn t).1.run schedule).2) := rfl
    rw [whole, List.filter_append]
    rcases turn_spared spares with ⟨nothing, spares⟩ | ⟨all, q, spares, turned⟩
    · rw [nothing]
      exact ⟨r, sections, sublist.cons t, spares, ran⟩
    · have begun : q.run (t :: sections) = ((r.run sections).1, (s.turn t).2.toList ++ (r.run sections).2) := by
        rw [run, turned]
      rw [all]
      exact ⟨q, t :: sections, sublist.cons_cons t, spares, by rw [begun, ran]⟩

end Threads

/-- A read that faults leaves no trace. It faults exactly where a configuration of the key has outlived
the expiry of a policy whose periods are too long to be added. Its code leaves the cache as it is then,
with every slot and mark, whether the fault comes in the first section of a lookup or, as others have
written in between, in the second one. And whatever threads do in whatever order, the operations other
than the reads that fault give the same answers in the same order, and the same cache, if those reads
are not made at all. -/
theorem faulted_reads_leave_no_trace {τ : Type u} [DecidableEq τ] (c : Cache) (key : ProjectKey) (now : Instant)
    (programs : τ → List Operation) (schedule : List τ) :
    let final := ((Threads.start c programs).run schedule).1
    let others := ((Threads.start c programs).run schedule).2.filter (!·.faultedRead)
    ((c.get key now = .error .graceEnd ↔ c.Unjudged key now) ∧
        (c.peek key now = .error .graceEnd ↔ c.Unjudged key now) ∧
        (c.knownRevision key now = .error .graceEnd ↔ c.Unjudged key now)) ∧
      (Locked.on c (Locked.lookup key now) = c.unwound (c.get key now) ∧
        Locked.on c (Locked.claim key now) = c.unwound (c.claim key now) ∧
        Locked.answered .lookup (Locked.on c (Locked.claim key now)) = c.enterClaim key now ∧
        Locked.on c (Locked.peek key now) = (c.peek key now, c) ∧
        Locked.on c (Locked.knownRevision key now) = (c.knownRevision key now, c)) ∧
      ∃ sections, sections.Sublist schedule ∧
        (Threads.start c fun t =>
          (others.filter (·.thread = t)).map (·.operation) ++ (final.each t).pending).run sections = (final, others) := by
  intro final others
  refine ⟨⟨get_eq_error_iff, peek_eq_error_iff, knownRevision_eq_error_iff⟩,
    ⟨Locked.on_lookup .., Locked.on_claim .., Locked.answered_on_claim .., Locked.on_peek ..,
      Locked.on_knownRevision ..⟩, ?_⟩
  obtain ⟨r, sections, sublist, ⟨cache, spared⟩, ran⟩ := Threads.run_spared (Threads.start c programs) schedule
  have unbegun (t : τ) : (r.each t).claim = none := (spared t).elim id id
  have program (t : τ) : r.each t =
      ⟨none, (others.filter (·.thread = t)).map (·.operation) ++ (final.each t).pending⟩ := by
    have pending := Threads.run_pending r sections t
    rw [ran] at pending
    rw [← pending]
    exact Thread.eq_pending (unbegun t)
  have begun : Threads.start c (fun t =>
      (others.filter (·.thread = t)).map (·.operation) ++ (final.each t).pending) = r := by
    obtain ⟨cache', each⟩ := r
    cases cache
    exact congrArg (Threads.mk c) (funext fun t => (program t).symm)
  rw [begun]
  exact ⟨sections, sublist, ran⟩

/-- A lookup that found no slot faults in its second section, as the key has an old configuration by then. -/
example :
    let c : Cache := { policy := ⟨.ofSecs 1, ⟨Duration.bound - 1⟩, .zero⟩ }
    let programs : Bool → List Operation := fun t =>
      if t then [.get "a" (.ofMillis 3000), .size] else [.applyOverride "a" ⟨[]⟩ .origin]
    ((Threads.start c programs).run [true, false, true, true]).2.map (fun d => (d.thread, d.faultedRead)) =
      [(false, false), (true, true), (true, false)] := by decide +kernel

end Cache

end AdmissionCache
