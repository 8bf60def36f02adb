import AdmissionCache.Proofs.Service.Ownership
import Mathlib.Algebra.Ring.Nat

namespace AdmissionCache

/-- The sum of what a metric recorded under the labels that count. -/
def recorded (samples : List Sample) (metric : Metric) (counts : Labels → Bool) : Nat :=
  ((samples.filter fun x => x.metric = metric ∧ counts x.labels).map (·.value)).sum

/-- Labels with another result than the given one. -/
def otherThan (result : String) (labels : Labels) : Bool := labels.lookup "result" != some result

/-- Whether a metric says anything about fetches. -/
def Metric.ofFetches : Metric → Bool
  | .fetchScheduled => true
  | .batchSize => true
  | .fetchResult => true
  | _ => false

/-- What samples say about fetches: how many were scheduled and how many have ended, how many keys
went out with batches and how many of those are resolved. -/
@[ext] structure Tally where
  scheduled : Nat
  ended : Nat
  sent : Nat
  resolved : Nat

def tally (samples : List Sample) : Tally where
  scheduled := counterTotal samples .fetchScheduled []
  ended := recorded samples .fetchResult (otherThan "pending")
  sent := recorded samples .batchSize fun _ => true
  resolved := recorded samples .fetchResult (otherThan "pending_expired")

/-- How many keys are found pending. -/
def pendings (resolved : List Resolved) : Nat := resolved.countP (·.2.isPending)

section Samples
variable {samples : List Sample} {metric : Metric} {counts : Labels → Bool}

theorem recorded_append (earlier later : List Sample) :
    recorded (earlier ++ later) metric counts = recorded earlier metric counts + recorded later metric counts := by
  simp only [recorded, List.filter_append, List.map_append, List.sum_append]

theorem recorded_eq_zero (foreign : ∀ x ∈ samples, x.metric ≠ metric) : recorded samples metric counts = 0 := by
  have none : samples.filter (fun x => x.metric = metric ∧ counts x.labels) = [] :=
    List.filter_eq_nil_iff.mpr fun x member => by simp [foreign x member]
  rw [recorded, none]
  rfl

/-- A counter shows what was recorded under its own labels. -/
theorem counterTotal_eq_recorded (samples : List Sample) (metric : Metric) (labels : Labels) :
    counterTotal samples metric labels = recorded samples metric (· = labels) := by
  simp only [counterTotal, recorded, decide_eq_true_eq]
  rfl

theorem tally_append (earlier later : List Sample) :
    tally (earlier ++ later) =
      ⟨(tally earlier).scheduled + (tally later).scheduled, (tally earlier).ended + (tally later).ended,
        (tally earlier).sent + (tally later).sent, (tally earlier).resolved + (tally later).resolved⟩ := by
  simp only [tally, counterTotal_eq_recorded, recorded_append]

theorem tally_foreign (foreign : ∀ x ∈ samples, x.metric.ofFetches = false) : tally samples = ⟨0, 0, 0, 0⟩ := by
  have none (metric : Metric) (own : metric.ofFetches = true) (counts : Labels → Bool) :
      recorded samples metric counts = 0 := by
    refine recorded_eq_zero fun x member same => ?_
    have other := foreign x member
    rw [same, own] at other
    cases other
  rw [tally, counterTotal_eq_recorded, none _ rfl, none _ rfl, none _ rfl, none _ rfl]

theorem tally_cons_foreign {x : Sample} (foreign : x.metric.ofFetches = false) (later : List Sample) :
    tally (x :: later) = tally later := by
  have none : tally [x] = ⟨0, 0, 0, 0⟩ := tally_foreign fun y member => List.mem_singleton.mp member ▸ foreign
  rw [← List.singleton_append, tally_append, none]
  simp only [Nat.zero_add]

theorem tally_scheduled : tally [⟨.fetchScheduled, [], 1⟩] = ⟨1, 0, 0, 0⟩ := rfl

theorem tally_sent (size : Nat) : tally [⟨.batchSize, [], size⟩] = ⟨0, 0, size, 0⟩ := rfl

/-- The end of a fetch that has been pending for too long is no further resolution of its key. -/
theorem tally_expired : tally [.ofFetch .authority "pending_expired"] = ⟨0, 1, 0, 0⟩ := rfl

/-- A key that is found pending is resolved for its batch, but its fetch has not ended. -/
theorem tally_ofFetch (source : SourceName) (r : Resolution) :
    tally [.ofFetch source r.name] = ⟨0, if r.isPending then 0 else 1, 0, 1⟩ := by
  cases r <;> cases source <;> rfl

theorem tally_answers (resolved : List Resolved) :
    ∃ ended, tally (answerSamples resolved) = ⟨0, ended, 0, resolved.length⟩ ∧
      ended + pendings resolved = resolved.length := by
  induction resolved with
  | nil => exact ⟨0, rfl, rfl⟩
  | cons r rest ih =>
    obtain ⟨ended, later, all⟩ := ih
    have parted : answerSamples (r :: rest) = [.ofFetch .authority r.2.name] ++ answerSamples rest := rfl
    rw [parted, tally_append, tally_ofFetch, later, pendings, List.countP_cons, List.length_cons]
    refine ⟨(if r.2.isPending then 0 else 1) + ended, ?_, ?_⟩
    · simp only [Nat.zero_add, Nat.add_comm 1]
    · rw [pendings] at all
      split <;> omega

/-- A near source never finds a key pending, and what it finds is recorded once. -/
theorem tally_consult (near : NearSources) (asked : AskedKey) :
    (near.consult asked).resolution? = none ∧ tally (near.consult asked).samples = ⟨0, 0, 0, 0⟩ ∨
      ∃ r, (near.consult asked).resolution? = some r ∧ r.isPending = false ∧
        tally (near.consult asked).samples = ⟨0, 1, 0, 1⟩ := by
  unfold NearSources.consult
  split
  · exact Or.inr ⟨_, rfl, rfl, rfl⟩
  · split
    · rename_i store _
      unfold NearSources.consultStore
      dsimp only
      split
      · exact Or.inr ⟨_, rfl, rfl, tally_cons_foreign rfl _⟩
      · exact Or.inr ⟨_, rfl, rfl, tally_cons_foreign rfl _⟩
      · exact Or.inl ⟨rfl, tally_cons_foreign rfl _⟩
      · exact Or.inl ⟨rfl, tally_cons_foreign rfl _⟩
    · exact Or.inl ⟨rfl, rfl⟩

theorem reloadSamples_foreign (previous : Snapshot) (d : Directory) :
    ∀ x ∈ previous.reloadSamples d, x.metric.ofFetches = false := by
  intro x member
  rcases List.mem_cons.mp member with rfl | later
  · rfl
  · split at later
    · split at later
      · cases later
      · rw [List.mem_singleton.mp later]
        rfl
    · cases later

end Samples

/-- No key is marked if no slot is. -/
theorem Cache.idle_of_slots {c : Cache} (idle : ∀ e ∈ c.slots.toList, e.2.inFlight = false) (key : ProjectKey) :
    c.inFlight key = false := by
  rw [inFlight]
  cases present : c.slot? key with
  | none =>
    rw [slotOrNew, present]
    rfl
  | some s =>
    rw [slotOrNew_of_slot? present]
    exact idle (key, s) ((c.slots.mem_toList_iff key s).mpr present)

/-- How many keys of a batch have not come to the end of their fetch: those that are not resolved, and
those that were found pending. -/
def Batch.unfinished (b : Batch) : Nat := b.unresolved.length + pendings b.found

namespace Batch

theorem length_unresolved (b : Batch) : b.unresolved.length = b.toAsk.length + b.toConsult.length := by
  rw [unresolved, List.length_append, List.length_map, List.length_map]

section Progress
variable {b : Batch} {left : List AskedKey} {findings : Findings}

theorem length_unresolved_open (progress : b.progress = .open left findings) :
    b.unresolved.length = findings.remaining.length + left.length := by
  rw [length_unresolved, toAsk, toConsult, progress]

theorem unfinished_open (progress : b.progress = .open left findings) :
    b.unfinished = findings.remaining.length + left.length + pendings findings.resolved := by
  rw [unfinished, length_unresolved_open progress, found, progress]

theorem length_unresolved_after (b : Batch) (left : List AskedKey) (findings : Findings) :
    ({ b with progress := .after left findings } : Batch).unresolved.length =
      findings.remaining.length + left.length := by
  rw [length_unresolved, toAsk_after, toConsult_after]

theorem unfinished_after (b : Batch) (left : List AskedKey) (findings : Findings) :
    ({ b with progress := .after left findings } : Batch).unfinished =
      findings.remaining.length + left.length + pendings findings.resolved := by
  rw [unfinished, length_unresolved_after, found_after]

theorem unfinished_le (b : Batch) : b.unfinished ≤ b.accounted.length := by
  unfold accounted
  split
  · rename_i lost
    rw [unfinished, length_unresolved, toAsk, toConsult, found, lost]
    exact Nat.zero_le _
  · have few : pendings b.found ≤ b.found.length := List.countP_le_length
    rw [unfinished, List.length_append, List.length_map]
    omega

end Progress

end Batch

namespace Service

/-- How many fetches have been scheduled and not come to their end, as far as the service knows of
them. -/
def outstanding (s : Service) : Nat :=
  (claimedKeys s.calls).length + (s.mail.filterMap WorkerCommand.key?).length + s.queued.keys.length +
    (s.batches.map Batch.unfinished).sum

/-- How many keys of batches are not resolved. -/
def unanswered (s : Service) : Nat := (s.batches.map fun b => b.unresolved.length).sum

/-- The books of a service, while the worker has some pending keys in hand. -/
structure Booked (s : Service) (inHand : Nat) : Prop where
  fetches : (tally s.samples).scheduled = (tally s.samples).ended + s.outstanding + inHand
  keys : (tally s.samples).sent = (tally s.samples).resolved + s.unanswered

section Booking
variable {s s' : Service} {inHand inHand' : Nat}

/-- Books stay balanced if what is recorded makes up for what has changed. -/
theorem Booked.add (booked : s.Booked inHand) {new : List Sample} {t : Tally} (recorded : s'.samples = s.samples ++ new)
    (told : tally new = t) (fetches : t.scheduled + s.outstanding + inHand = t.ended + s'.outstanding + inHand')
    (keys : t.sent + s.unanswered = t.resolved + s'.unanswered) : s'.Booked inHand' := by
  have old := booked.fetches
  have oldKeys := booked.keys
  constructor
  · rw [recorded, tally_append, told]
    dsimp only
    omega
  · rw [recorded, tally_append, told]
    dsimp only
    omega

/-- Samples that say nothing about fetches leave the books as they are, wherever fetches have moved. -/
theorem Booked.quiet (booked : s.Booked inHand) {new : List Sample} (recorded : s'.samples = s.samples ++ new)
    (foreign : ∀ x ∈ new, x.metric.ofFetches = false) (moved : s.outstanding + inHand = s'.outstanding + inHand')
    (unanswered : s'.unanswered = s.unanswered) : s'.Booked inHand' :=
  booked.add recorded (tally_foreign foreign) (by simpa only [Nat.zero_add] using moved) (by rw [unanswered])

theorem Booked.moved (booked : s.Booked inHand) (samples : s'.samples = s.samples)
    (moved : s.outstanding + inHand = s'.outstanding + inHand') (unanswered : s'.unanswered = s.unanswered) :
    s'.Booked inHand' :=
  booked.quiet (samples.trans (List.append_nil _).symm) (List.forall_mem_nil _) moved unanswered

/-- A sum over all batches is that of one batch and of the others. -/
theorem sum_batches (orderly : s.Orderly) {b : Batch} (member : b ∈ s.batches) (f : Batch → Nat) :
    (s.batches.map f).sum = f b + ((s.dropBatch b.id).batches.map f).sum := by
  rw [((perm_without orderly.numbered member).map f).sum_nat, List.map_cons, List.sum_cons]
  rfl

theorem sum_setBatch (orderly : s.Orderly) {b : Batch} (member : b ∈ s.batches) (progress : BatchProgress)
    (f : Batch → Nat) : ((s.setBatch { b with progress }).batches.map f).sum =
      f { b with progress } + ((s.dropBatch b.id).batches.map f).sum := by
  have others : (s.dropBatch b.id).batches.map (fun other => if other.id = b.id then { b with progress } else other) =
      (s.dropBatch b.id).batches := by
    refine (List.map_congr_left fun other inside => if_neg ?_).trans (List.map_id _)
    exact bne_iff_ne.mp (List.mem_filter.mp inside).2
  have moved := (perm_without orderly.numbered member).map fun other =>
    if other.id = b.id then { b with progress } else other
  rw [List.map_cons, if_pos rfl] at moved
  have replaced : (s.setBatch { b with progress }).batches.Perm ({ b with progress } :: (s.dropBatch b.id).batches) :=
    moved.trans (.of_eq (congrArg _ others))
  rw [(replaced.map f).sum_nat, List.map_cons, List.sum_cons]

/-- A call that is opened has its fetch to send if it has scheduled one, and only then. -/
theorem claimedKeys_opened (l : Lookup) (purpose : Purpose) (key : ProjectKey) :
    (claimedKeys (l.opened purpose key)).length = if l.scheduleFetch then 1 else 0 := by
  unfold Lookup.opened
  split
  · rfl
  · rw [claimedKeys_eq_nil fun c member => by rw [rest_stage member]; exact nofun]
    rfl

theorem tally_look (l : Lookup) : tally l.samples = ⟨if l.scheduleFetch then 1 else 0, 0, 0, 0⟩ := by
  rw [Lookup.samples, tally_cons_foreign rfl]
  split
  · exact tally_scheduled
  · rfl

/-- A lookup counts the fetch that its call has to send. -/
theorem Booked.look (booked : s.Booked inHand) (purpose : Purpose) (key : ProjectKey) (now : Instant) :
    (s.step (.look purpose key now)).Booked inHand := by
  simp only [step]
  cases got : s.cache.get key now with
  | error e =>
    simp only [Service.look, got]
    exact booked
  | ok answer =>
    obtain ⟨cache, l⟩ := answer
    rw [look_ok s got purpose]
    refine booked.add rfl (tally_look l) ?_ ?_
    · have opened := claimedKeys_opened l purpose key
      simp only [outstanding, record, claimedKeys_append, List.length_append]
      omega
    · simp only [unanswered, record, Nat.zero_add]

theorem length_claimedKeys_replaceCall {n : Nat} {call : Call} {calls : List Call} (atCall : s.calls[n]? = some call)
    (unclaimed : ∀ c ∈ calls, c.stage ≠ .claimed) :
    (claimedKeys s.calls).length = (if call.stage = .claimed then 1 else 0) +
      (claimedKeys (s.replaceCall n calls).calls).length := by
  have taken := (claimedKeys_replaceCall atCall unclaimed).length_eq
  rw [List.length_append] at taken
  have own : (claimedKeys [call]).length = if call.stage = .claimed then 1 else 0 := by
    rw [claimedKeys, List.filter_singleton]
    split <;> simp_all
  omega

theorem judge_foreign (s : Service) (key : ProjectKey) (d : Decision) :
    ∃ outcomes new, s.judge key d = { s with outcomes, samples := s.samples ++ new } ∧
      ∀ x ∈ new, x.metric.ofFetches = false := by
  have nothing : s = { s with samples := s.samples ++ [] } := by rw [List.append_nil]
  unfold judge emit
  split
  · split
    · exact ⟨_, [], by rw [List.append_nil], List.forall_mem_nil _⟩
    · rename_i o _ _
      refine ⟨s.outcomes, _, rfl, fun x member => ?_⟩
      rw [List.mem_singleton.mp member]
      rfl
  · exact ⟨s.outcomes, [], nothing, List.forall_mem_nil _⟩

/-- A call that goes on takes its fetch along, unless it is refused. -/
theorem Booked.advance (booked : s.Booked inHand) (n : Nat)
    (sent : ∀ call ∈ (s.step (.advance n)).calls, call.stage ≠ .refused) : (s.step (.advance n)).Booked inHand := by
  simp only [step, Service.advance] at sent ⊢
  cases atCall : s.calls[n]? with
  | none => exact booked
  | some call =>
    rw [atCall] at sent
    have unclaimed : ∀ c ∈ call.rest, c.stage ≠ .claimed := fun c member => by
      rw [rest_stage member]
      decide
    have gone := length_claimedKeys_replaceCall atCall unclaimed
    cases stage : call.stage with
    | claimed =>
      rw [stage, if_pos rfl] at gone
      simp only [stage] at sent ⊢
      split
      · have mailed : (s.mail ++ [WorkerCommand.fetch call.key]).filterMap WorkerCommand.key? =
            s.mail.filterMap WorkerCommand.key? ++ [call.key] := List.filterMap_append
        refine booked.moved rfl ?_ rfl
        simp only [outstanding, replaceCall, mailed, List.length_append, List.length_singleton] at gone ⊢
        omega
      · rename_i deaf
        rw [if_neg deaf] at sent
        refine absurd rfl (sent { call with stage := .refused } ?_)
        exact List.mem_append_left _ (List.mem_append_right _ (List.mem_singleton_self _))
    | refused =>
      rw [stage, if_neg (by decide), Nat.zero_add] at gone
      simp only [stage]
      refine booked.moved rfl ?_ rfl
      simp only [outstanding, replaceCall] at gone ⊢
      omega
    | decided =>
      have left : (claimedKeys s.calls).length = _ + (claimedKeys (s.replaceCall n []).calls).length :=
        length_claimedKeys_replaceCall atCall (List.forall_mem_nil _)
      rw [stage, if_neg (by decide), Nat.zero_add] at left
      simp only [stage]
      obtain ⟨outcomes, new, after, foreign⟩ := judge_foreign (s.replaceCall n []) call.key call.decision
      rw [after]
      refine booked.quiet rfl foreign ?_ rfl
      simp only [outstanding, replaceCall] at left ⊢
      omega

theorem Booked.receive (booked : s.Booked inHand) (balanced : s.Balanced []) : s.receive.Booked inHand := by
  unfold Service.receive
  split
  · exact booked
  · rename_i key mail first
    have absent := (balanced.opened first).not_mem_queued
    have inserted : (s.queued.insert key).keys.length = s.queued.keys.length + 1 :=
      (KeyMap.keys_insert_perm () absent).length_eq
    have sent : s.mail.filterMap WorkerCommand.key? = key :: mail.filterMap WorkerCommand.key? := by
      rw [first]
      rfl
    refine booked.moved rfl ?_ rfl
    simp only [outstanding, inserted, sent, List.length_cons]
    omega
  · rename_i mail first
    have sent : s.mail.filterMap WorkerCommand.key? = mail.filterMap WorkerCommand.key? := by
      rw [first]
      rfl
    refine booked.moved rfl ?_ rfl
    simp only [outstanding, sent]

/-- The keys that a batch is started with go over to it, and their number is recorded. -/
theorem Booked.startBatch {asked : List AskedKey} (booked : s.Booked (asked.length + inHand)) (now : Instant) :
    (s.startBatch now asked).Booked inHand := by
  have fresh (id : Nat) (stamp : Instant) (keys : List ProjectKey) :
      (⟨id, stamp, keys, .open asked {}⟩ : Batch).unresolved.length = asked.length := List.length_map ..
  refine booked.add rfl (tally_sent asked.length) ?_ ?_
  · simp only [outstanding, Service.startBatch, record, List.map_append, List.map_cons, List.map_nil,
      List.sum_append, List.sum_singleton, Batch.unfinished, fresh]
    have none : pendings (⟨s.dispatched, now, asked.map (·.1), .open asked {}⟩ : Batch).found = 0 := rfl
    omega
  · simp only [unanswered, Service.startBatch, record, List.map_append, List.map_cons, List.map_nil,
      List.sum_append, List.sum_singleton, fresh]
    omega

theorem Booked.startBatches {now : Instant} {pieces : List (List ProjectKey)}
    (booked : s.Booked pieces.flatten.length) (alive : (startBatches now pieces s).status ≠ .crashed) :
    (startBatches now pieces s).Booked 0 := by
  induction pieces generalizing s with
  | nil => exact booked
  | cons keys rest ih =>
    unfold Service.startBatches at alive ⊢
    cases told : s.askFor now keys with
    | error e =>
      rw [told] at alive
      exact absurd rfl alive
    | ok asked =>
      rw [told] at alive
      have same : keys.length = asked.length := by rw [← askFor_keys told, List.length_map]
      rw [List.flatten_cons, List.length_append, same] at booked
      exact ih (booked.startBatch now) alive

theorem Booked.dispatch {now : Instant} (booked : s.Booked 0) (alive : (s.dispatch now).status ≠ .crashed) :
    (s.dispatch now).Booked 0 := by
  unfold Service.dispatch at alive ⊢
  split
  · exact booked
  · rename_i waiting
    rw [if_neg waiting] at alive
    split
    · rename_i nothing
      rw [if_pos nothing] at alive
      exact absurd rfl alive
    · rename_i positive
      rw [if_neg positive] at alive
      refine Booked.startBatches (booked.moved rfl ?_ rfl) alive
      rw [flatten_pieces (Nat.pos_of_ne_zero positive)]
      have emptied : (∅ : KeySet).keys.length = 0 := rfl
      simp only [outstanding, emptied]
      omega

/-- A batch that goes on records what makes up for its progress. -/
theorem Booked.progressed (booked : s.Booked inHand) (orderly : s.Orderly) {b : Batch} (member : b ∈ s.batches)
    {progress : BatchProgress} {new : List Sample} {ended resolved : Nat} (told : tally new = ⟨0, ended, 0, resolved⟩)
    (finished : b.unfinished = ended + ({ b with progress } : Batch).unfinished)
    (answered : b.unresolved.length = resolved + ({ b with progress } : Batch).unresolved.length) :
    ((s.setBatch { b with progress }).record new).Booked inHand := by
  refine booked.add rfl told ?_ ?_
  · have before := sum_batches orderly member Batch.unfinished
    have after := sum_setBatch orderly member progress Batch.unfinished
    have others : (s.setBatch { b with progress }).calls = s.calls ∧ (s.setBatch { b with progress }).mail = s.mail ∧
        (s.setBatch { b with progress }).queued = s.queued := ⟨rfl, rfl, rfl⟩
    simp only [outstanding, record, others] at before after ⊢
    omega
  · have before := sum_batches orderly member fun b => b.unresolved.length
    have after := sum_setBatch orderly member progress fun b => b.unresolved.length
    simp only [unanswered, record] at before after ⊢
    omega

/-- What a near source says about a key takes the key from those that are not resolved. -/
theorem Booked.consulted (booked : s.Booked inHand) (orderly : s.Orderly) {b : Batch} (member : b ∈ s.batches)
    {asked : AskedKey} {left : List AskedKey} {findings : Findings} (progress : b.progress = .open (asked :: left) findings)
    (near : NearSources) :
    ((s.setBatch { b with progress := .after left (findings.add asked (near.consult asked).resolution?) }).record
      (near.consult asked).samples).Booked inHand := by
  have before := Batch.unfinished_open progress
  have unresolved := Batch.length_unresolved_open progress
  rw [List.length_cons] at before unresolved
  rcases tally_consult near asked with ⟨silent, told⟩ | ⟨r, said, final, told⟩
  · refine booked.progressed orderly member told ?_ ?_
    · rw [Batch.unfinished_after, silent, before]
      simp only [Findings.add, List.length_append, List.length_singleton]
      omega
    · rw [Batch.length_unresolved_after, silent, unresolved]
      simp only [Findings.add, List.length_append, List.length_singleton]
      omega
  · refine booked.progressed orderly member told ?_ ?_
    · have none : pendings [(asked.1, r)] = 0 := by rw [pendings, List.countP_singleton, final]; rfl
      have parted : pendings (findings.resolved ++ [(asked.1, r)]) = pendings findings.resolved + 0 :=
        none ▸ List.countP_append
      rw [Batch.unfinished_after, said, before]
      simp only [Findings.add, parted]
      omega
    · rw [Batch.length_unresolved_after, said, unresolved]
      simp only [Findings.add]
      omega

theorem Booked.consult (booked : s.Booked inHand) (orderly : s.Orderly) (id : Nat) (content : StoreContent) :
    (s.consult id content).Booked inHand := by
  unfold Service.consult
  split
  · rename_i _ number stamp keys asked left findings found
    exact booked.consulted orderly (mem_of_batch? found).1 rfl (s.nearSources content)
  · exact booked

/-- The answer of the authority resolves all keys that it was asked for. -/
theorem Booked.answer (booked : s.Booked inHand) (orderly : s.Orderly) (id : Nat)
    (result : Except QueryFault ConfigsResponse) : (s.answer id result).Booked inHand := by
  unfold Service.answer
  split
  · rename_i _ number stamp keys findings found
    obtain ⟨ended, told, all⟩ := tally_answers (answersOf findings.remaining result)
    have asked : (answersOf findings.remaining result).length = findings.remaining.length := by
      rw [← List.length_map (·.1), answersOf_keys, List.length_map]
    have parted : pendings (findings.answered result) =
        pendings findings.resolved + pendings (answersOf findings.remaining result) := List.countP_append
    refine booked.progressed orderly (mem_of_batch? found).1 told ?_ ?_
    · have after : (⟨number, stamp, keys, .resolved (findings.answered result)⟩ : Batch).unfinished =
          0 + pendings (findings.answered result) := rfl
      rw [Batch.unfinished_open rfl, after, parted, List.length_nil]
      omega
    · have after : (⟨number, stamp, keys, .resolved (findings.answered result)⟩ : Batch).unresolved.length = 0 := rfl
      rw [Batch.length_unresolved_open rfl, after, asked, List.length_nil]
  · exact booked

/-- A key that is applied was counted when it was resolved. Only a pending one is still in hand: it goes
back into the queue, or its fetch ends and is counted now. -/
theorem Booked.apply {stamp now : Instant} {r : Resolved} {rest : List Resolved}
    (booked : s.Booked (pendings (r :: rest))) (absent : r.1 ∉ s.queued.keys) :
    (s.apply stamp now r).Booked (pendings rest) := by
  obtain ⟨key, resolution⟩ := r
  have settled (final : resolution.isPending = false) : pendings ((key, resolution) :: rest) = pendings rest := by
    rw [pendings, List.countP_cons, final]
    rfl
  cases resolution with
  | pending =>
    have one : pendings ((key, .pending) :: rest) = pendings rest + 1 := by
      rw [pendings, List.countP_cons]
      rfl
    rw [one] at booked
    simp only [Service.apply, applyPending]
    split
    · have inserted : (s.queued.insert key).keys.length = s.queued.keys.length + 1 :=
        (KeyMap.keys_insert_perm () absent).length_eq
      refine booked.moved rfl ?_ rfl
      simp only [outstanding, inserted]
      omega
    · refine booked.add rfl tally_expired ?_ ?_
      · simp only [outstanding, giveUp, record]
        omega
      · simp only [unanswered, giveUp, record]
  | _ =>
    rw [settled rfl] at booked
    exact booked.moved rfl rfl rfl

theorem Booked.applyAll {stamp now : Instant} {resolutions : List Resolved} (booked : s.Booked (pendings resolutions))
    (balanced : s.Balanced (resolutions.map (·.1))) : (s.applyAll stamp now resolutions).Booked 0 := by
  induction resolutions generalizing s with
  | nil => exact booked
  | cons r rest ih => exact ih (booked.apply balanced.not_mem_queued) balanced.apply

/-- A batch that is applied leaves with the keys that it found pending. -/
theorem Booked.complete (booked : s.Booked 0) (owned : s.Owned) (running : s.status = .running)
    (unlost : ∀ b ∈ s.batches, b.progress ≠ .lost) (id : Nat) (now : Instant) : (s.complete id now).Booked 0 := by
  unfold Service.complete
  cases found : s.batch? id with
  | none => exact booked
  | some b =>
    obtain ⟨member, rfl⟩ := mem_of_batch? found
    have unfinished := sum_batches owned.orderly member Batch.unfinished
    have unresolved := sum_batches owned.orderly member fun b => b.unresolved.length
    dsimp only
    split
    · exact booked
    · rename_i resolutions progress
      have own : b.unfinished = pendings resolutions := by
        rw [Batch.unfinished, Batch.length_unresolved, Batch.toAsk, Batch.toConsult, Batch.found, progress]
        exact Nat.zero_add _
      have none : b.unresolved.length = 0 := by
        rw [Batch.length_unresolved, Batch.toAsk, Batch.toConsult, progress]
        rfl
      have taken := (owned.balanced running).takeBatch owned.orderly member
      have accounted := owned.orderly.resolved member progress
      refine Booked.applyAll (booked.moved rfl ?_ ?_) (taken.congr (accounted.append_left _) fun _ => rfl)
      · simp only [outstanding] at unfinished ⊢
        have calls : (s.dropBatch b.id).calls = s.calls := rfl
        have mail : (s.dropBatch b.id).mail = s.mail := rfl
        have queued : (s.dropBatch b.id).queued = s.queued := rfl
        rw [calls, mail, queued]
        omega
      · simp only [unanswered] at unresolved ⊢
        omega
    · rename_i progress
      exact absurd progress (unlost b member)

/-- No fetch was refused, and no batch broke down. -/
structure Unharmed (s : Service) : Prop where
  unrefused : ∀ call ∈ s.calls, call.stage ≠ .refused
  unlost : ∀ b ∈ s.batches, b.progress ≠ .lost

instance : (progress : BatchProgress) → Decidable (progress = .lost)
  | .open _ _ => .isFalse nofun
  | .resolved _ => .isFalse nofun
  | .lost => .isTrue rfl

instance (s : Service) : Decidable s.Unharmed :=
  decidable_of_iff ((∀ call ∈ s.calls, call.stage ≠ .refused) ∧ ∀ b ∈ s.batches, b.progress ≠ .lost)
    ⟨fun ⟨unrefused, unlost⟩ => ⟨unrefused, unlost⟩, fun unharmed => ⟨unharmed.unrefused, unharmed.unlost⟩⟩

theorem Booked.whileRunning {f : Service → Service} (booked : s.Booked 0)
    (does : s.status = .running → (f s).Booked 0) : (s.whileRunning f).Booked 0 := by
  by_cases running : s.status = .running
  · rw [whileRunning_of_running running]
    exact does running
  · rw [whileRunning_of_not_running running]
    exact booked

/-- Every event keeps the books, unless the worker breaks down over keys that it takes out of the queue. -/
theorem Booked.step (booked : s.Booked 0) (owned : s.Owned) (unharmed : s.Unharmed) {e : Event}
    (unharmed' : (s.step e).Unharmed) (kept : (s.step e).status ≠ .crashed ∨ s.queued.isEmpty = true) :
    (s.step e).Booked 0 := by
  cases e with
  | look purpose key now => exact booked.look purpose key now
  | advance n => exact booked.advance n unharmed'.unrefused
  | requestStop =>
    simp only [Service.step, requestStop]
    split
    · have same : (s.mail ++ [WorkerCommand.stop]).filterMap WorkerCommand.key? =
          s.mail.filterMap WorkerCommand.key? := by
        rw [List.filterMap_append]
        exact List.append_nil _
      refine booked.moved rfl ?_ rfl
      simp only [outstanding, same]
    · exact booked
  | receive =>
    simp only [Service.step]
    exact booked.whileRunning fun running => booked.receive (owned.balanced running)
  | abandon =>
    simp only [Service.step]
    refine booked.whileRunning fun _ => ?_
    split
    · exact booked.moved rfl rfl rfl
    · exact booked
  | vanish =>
    simp only [Service.step]
    split
    · exact booked.moved rfl rfl rfl
    · exact booked
  | dispatch now =>
    simp only [Service.step] at kept ⊢
    refine booked.whileRunning fun running => ?_
    rcases kept with alive | nothing
    · rw [whileRunning_of_running running] at alive
      exact booked.dispatch alive
    · rw [Service.dispatch, if_pos nothing]
      exact booked
  | consult id content => exact booked.consult owned.orderly id content
  | answer id result => exact booked.answer owned.orderly id result
  | lose id =>
    simp only [Service.step, lose] at unharmed' ⊢
    split
    · rename_i _ number stamp keys left findings found
      obtain ⟨_, rfl⟩ := mem_of_batch? found
      rw [found] at unharmed'
      have replaced : (s.setBatch ⟨number, stamp, keys, .lost⟩).batch? number = some ⟨number, stamp, keys, .lost⟩ :=
        batch?_setBatch found rfl
      exact absurd rfl (unharmed'.unlost _ (mem_of_batch? replaced).1)
    · exact booked
  | complete id now =>
    simp only [Service.step]
    exact booked.whileRunning fun running => booked.complete owned running unharmed.unlost id now
  | reload directory now =>
    simp only [Service.step]
    refine booked.whileRunning fun _ => ?_
    unfold reload
    split
    · exact booked
    · rename_i snapshot _
      split
      · exact booked.quiet rfl (reloadSamples_foreign snapshot directory) rfl rfl
      · exact booked.quiet rfl (reloadSamples_foreign snapshot directory) rfl rfl
  | sweep now =>
    simp only [Service.step]
    refine booked.whileRunning fun _ => ?_
    unfold sweep
    split
    · rename_i cache removed _
      have told : ∀ x ∈ [(⟨.evictions, [], removed⟩ : Sample), ⟨.cacheSize, [], cache.size⟩],
          x.metric.ofFetches = false := by simp [Metric.ofFetches]
      exact booked.quiet rfl told rfl rfl
    · exact booked.moved rfl rfl rfl
  | learnGlobal result =>
    have told (word : String) : ∀ x ∈ [(⟨.globalFetch, [("result", word)], 1⟩ : Sample)],
        x.metric.ofFetches = false := by simp [Metric.ofFetches]
    simp only [Service.step, learnGlobal]
    split
    · split
      · exact booked.quiet rfl (told "ready") rfl rfl
      · exact booked.quiet rfl (told "pending") rfl rfl
    · exact booked.quiet rfl (told "failed") rfl rfl
  | crash =>
    simp only [Service.step]
    exact booked.whileRunning fun _ => booked.moved rfl rfl rfl

section Breakdown
variable {e : Event} {log : List Entry}

/-- A worker that is broken down has broken down just now, or had done so before. -/
theorem Move.ran_or_crashed (move : Move s e log s') (crashed : s'.status = .crashed) :
    s.status = .running ∨ s.status = .crashed := by
  cases move with
  | dispatched running _ _ => exact Or.inl running
  | unparted running _ => exact Or.inl running
  | applied running _ _ => exact Or.inl running
  | released running _ _ => exact Or.inl running
  | unswept running _ => exact Or.inl running
  | crashed running => exact Or.inl running
  | stopTaken _ _ => cases crashed
  | abandoned _ => cases crashed
  | vanished _ => cases crashed
  | _ => exact Or.inr crashed

/-- A breakdown takes no mark away, and after it there is nobody who does. -/
theorem Move.marks_kept (move : Move s e log s') (crashed : s'.status = .crashed) (unharmed : s.Unharmed)
    {key : ProjectKey} (marked : s.cache.inFlight key = true) : s'.cache.inFlight key = true := by
  have alive (running : s.status = .running) (same : s'.status = s.status) : s'.cache.inFlight key = true := by
    rw [same, running] at crashed
    cases crashed
  cases move with
  | claimed got _ => rw [(Cache.get_looked got).inFlight, marked, Bool.true_or]
  | looked got _ _ => rw [(Cache.get_looked got).inFlight, marked, Bool.true_or]
  | freed atCall refused => exact absurd refused (unharmed.unrefused _ (List.mem_of_getElem? atCall))
  | dispatched _ _ all =>
    obtain ⟨_, _, same⟩ := all.rest
    rw [same]
    exact marked
  | applied running _ _ => exact alive running (status_applyAll ..)
  | released running _ _ => exact alive running (status_releaseAll ..)
  | reloaded running _ _ => exact alive running rfl
  | swept running _ => exact alive running rfl
  | unswept _ _ => exact ((Cache.abandonSweep_swept ..).inFlight key).trans marked
  | _ => exact marked

theorem Balanced.underway_eq_nil (balanced : s.Balanced []) (idle : ∀ key, s.cache.inFlight key = false) :
    s.underway = [] := by
  refine List.eq_nil_iff_forall_not_mem.mpr fun key inside => ?_
  have marked := (balanced.marked key).mp (List.mem_append_left _ inside)
  rw [idle key] at marked
  cases marked

theorem underway_eq_nil_iff : s.underway = [] ↔ claimedKeys s.calls = [] ∧
    s.mail.filterMap WorkerCommand.key? = [] ∧ s.queued.keys = [] ∧ s.batches.flatMap (·.keys) = [] := by
  simp only [underway, List.append_eq_nil_iff, and_assoc]

/-- Where nothing is on its way when the worker breaks down, nothing ever will be without a mark. -/
theorem Move.rests (move : Move s e log s') (orderly : s.Orderly) (crashed : s'.status = .crashed)
    (unharmed : s.Unharmed) (unharmed' : s'.Unharmed) (idle : ∀ key, s'.cache.inFlight key = false)
    (rested : s.underway = []) : s'.underway = [] := by
  have alive (running : s.status = .running) (same : s'.status = s.status) : s'.underway = [] := by
    rw [same, running] at crashed
    cases crashed
  obtain ⟨calls, mail, queue, batches⟩ := underway_eq_nil_iff.mp rested
  have replaced {b : Batch} (member : b ∈ s.batches) (progress : BatchProgress) :
      (s.setBatch { b with progress }).batches.flatMap (·.keys) = [] :=
    (@keys_setBatch s orderly b { b with progress } member rfl rfl).trans batches
  cases move with
  | @claimed _ key _ _ _ _ got wanted =>
    have marked := (Cache.get_looked got).inFlight key
    rw [idle key, wanted, decide_eq_true rfl, Bool.and_true, Bool.or_true] at marked
    cases marked
  | @looked _ _ _ _ _ decided _ _ _ ended =>
    have none : claimedKeys decided = [] := claimedKeys_eq_nil fun c member => by
      rw [ended c member]
      exact nofun
    refine underway_eq_nil_iff.mpr ⟨?_, mail, queue, batches⟩
    rw [claimedKeys_append, calls, none, List.append_nil]
  | mailed _ _ listening =>
    have deaf : s.status = .crashed := crashed
    rw [deaf] at listening
    cases listening
  | stopMailed listening =>
    have deaf : s.status = .crashed := crashed
    rw [deaf] at listening
    cases listening
  | @refused n call _ _ _ =>
    have left : ({ call with stage := .refused } : Call) ∈
        (s.replaceCall n [{ call with stage := .refused }]).calls :=
      List.mem_append_left _ (List.mem_append_right _ (List.mem_singleton_self _))
    exact absurd rfl (unharmed'.unrefused _ left)
  | freed atCall refused => exact absurd refused (unharmed.unrefused _ (List.mem_of_getElem? atCall))
  | judged atCall _ =>
    have parted := claimedKeys_replaceCall atCall (List.forall_mem_nil _)
    rw [calls] at parted
    exact underway_eq_nil_iff.mpr ⟨(List.append_eq_nil_iff.mp parted.nil_eq.symm).2, mail, queue, batches⟩
  | dispatched running _ all =>
    obtain ⟨_, _, same⟩ := all.rest
    have first := all.first
    have none : pieces s.settings.batchSize s.queued.keys = [] := by rw [queue, pieces_nil]
    rw [none, List.prefix_nil, List.map_eq_nil_iff] at first
    have old : s'.batches = s.batches := by rw [all.batches, first, List.append_nil]
    rw [same, old]
    exact underway_eq_nil_iff.mpr ⟨calls, mail, rfl, batches⟩
  | unparted _ _ => exact underway_eq_nil_iff.mpr ⟨calls, mail, rfl, batches⟩
  | consulted found _ => exact underway_eq_nil_iff.mpr ⟨calls, mail, queue, replaced (mem_of_batch? found).1 _⟩
  | answered found _ => exact underway_eq_nil_iff.mpr ⟨calls, mail, queue, replaced (mem_of_batch? found).1 _⟩
  | lost found _ => exact underway_eq_nil_iff.mpr ⟨calls, mail, queue, replaced (mem_of_batch? found).1 _⟩
  | queued running _ => exact alive running rfl
  | applied running _ _ => exact alive running (status_applyAll ..)
  | released running _ _ => exact alive running (status_releaseAll ..)
  | stopTaken _ _ => cases crashed
  | abandoned _ => cases crashed
  | vanished _ => cases crashed
  | _ => exact rested

end Breakdown

/-- The books are right as long as the worker runs. Where it has broken down, they are right if no key
is marked, since then none was on its way. -/
structure Reconciled (s : Service) : Prop where
  owned : s.Owned
  running : s.status = .running → s.Booked 0
  crashed : s.status = .crashed → (∀ key, s.cache.inFlight key = false) → s.underway = [] ∧ s.Booked 0

theorem Reconciled.step (reconciled : s.Reconciled) (unharmed : s.Unharmed) {e : Event}
    (unharmed' : (s.step e).Unharmed) : (s.step e).Reconciled := by
  have owned := reconciled.owned
  have move := s.step_move e
  refine ⟨owned.move move, fun runs => ?_, fun crashed idle => ?_⟩
  · exact (reconciled.running (move.ran runs)).step owned unharmed unharmed' (Or.inl (by rw [runs]; exact nofun))
  · have before (key : ProjectKey) : s.cache.inFlight key = false := by
      refine Bool.eq_false_iff.mpr fun marked => ?_
      have kept := move.marks_kept crashed unharmed marked
      rw [idle key] at kept
      cases kept
    have settled : s.underway = [] ∧ s.Booked 0 := by
      rcases move.ran_or_crashed crashed with running | broken
      · exact ⟨(owned.balanced running).underway_eq_nil before, reconciled.running running⟩
      · exact reconciled.crashed broken before
    obtain ⟨rested, booked⟩ := settled
    obtain ⟨_, _, queue, _⟩ := underway_eq_nil_iff.mp rested
    have empty : s.queued.isEmpty = true := List.isEmpty_iff.mpr (List.map_eq_nil_iff.mp queue)
    exact ⟨move.rests owned.orderly crashed unharmed unharmed' idle rested,
      booked.step owned unharmed unharmed' (Or.inr empty)⟩

theorem Reconciled.run (reconciled : s.Reconciled) {events : List Event}
    (unharmed : ∀ earlier, earlier <+: events → (s.run earlier).Unharmed) : (s.run events).Reconciled := by
  induction events generalizing s with
  | nil => exact reconciled
  | cons e rest ih =>
    have first : s.Unharmed := unharmed [] List.nil_prefix
    have second : (s.step e).Unharmed := unharmed [e] (List.cons_prefix_cons.mpr ⟨rfl, List.nil_prefix⟩)
    refine ih (reconciled.step first second) fun earlier inside => ?_
    exact unharmed (e :: earlier) (List.cons_prefix_cons.mpr ⟨rfl, inside⟩)

/-- Where no key is on its way, no fetch is outstanding and all keys of batches are resolved. -/
theorem Orderly.nothing_left (orderly : s.Orderly) (rested : s.underway = []) :
    s.outstanding = 0 ∧ s.unanswered = 0 := by
  obtain ⟨calls, mail, queue, batches⟩ := underway_eq_nil_iff.mp rested
  have each (b : Batch) (member : b ∈ s.batches) : b.unfinished = 0 := by
    have accounted := (orderly.accounted b member).length_eq
    rw [List.flatMap_eq_nil_iff.mp batches b member, List.length_nil] at accounted
    have few := b.unfinished_le
    omega
  have unfinished : (s.batches.map Batch.unfinished).sum = 0 := by
    rw [List.sum_eq_zero_iff_forall_eq_nat, List.forall_mem_map]
    exact each
  constructor
  · rw [outstanding, calls, mail, queue, unfinished]
    rfl
  · rw [unanswered, List.sum_eq_zero_iff_forall_eq_nat, List.forall_mem_map]
    intro b member
    have none := each b member
    rw [Batch.unfinished] at none
    omega

end Booking

theorem start_reconciled (policy : Policy) (settings : ServiceSettings) (withOverrides : Bool) :
    (start policy settings withOverrides).Reconciled where
  owned := start_owned ..
  running _ := ⟨rfl, rfl⟩
  crashed broken := by cases broken

/-- Before the worker stops, in every run in which no fetch is refused and no batch breaks down, and
whenever no key is in flight: as many fetches have ended as were scheduled, and as many keys are resolved
as went out with batches. A fetch of a key that is found pending ends later, or as one that was pending
for too long. -/
theorem fetch_metrics_balance (policy : Policy) (settings : ServiceSettings) (withOverrides : Bool)
    (events : List Event) (unstopped : ((start policy settings withOverrides).run events).status ≠ .stopping ∧
      ((start policy settings withOverrides).run events).status ≠ .stopped)
    (unharmed : ∀ earlier, earlier <+: events → ((start policy settings withOverrides).run earlier).Unharmed)
    (idle : ∀ key, ((start policy settings withOverrides).run events).cache.inFlight key = false) :
    let samples := ((start policy settings withOverrides).run events).samples
    counterTotal samples .fetchScheduled [] = recorded samples .fetchResult (otherThan "pending") ∧
      recorded samples .batchSize (fun _ => true) = recorded samples .fetchResult (otherThan "pending_expired") := by
  have reconciled := (start_reconciled policy settings withOverrides).run unharmed
  generalize (start policy settings withOverrides).run events = s at unstopped idle reconciled ⊢
  have settled : s.underway = [] ∧ s.Booked 0 := by
    cases status : s.status with
    | running => exact ⟨(reconciled.owned.balanced status).underway_eq_nil idle, reconciled.running status⟩
    | crashed => exact reconciled.crashed status idle
    | stopping => exact absurd status unstopped.1
    | stopped => exact absurd status unstopped.2
  obtain ⟨rested, fetches, keys⟩ := settled
  obtain ⟨none, all⟩ := reconciled.owned.orderly.nothing_left rested
  rw [none] at fetches
  rw [all] at keys
  exact ⟨fetches, keys⟩

/-- Three keys are fetched. The first batch takes two, for one of which there is an override by now. The third
key is found pending twice, and then for too long. -/
theorem pending_fetch_counted_once :
    let service := start ⟨.ofSecs 60, .zero, .ofSecs 10⟩ { batchSize := 2, queryTimeout := .ofSecs 1 } true
    let silence : StoreContent := fun _ => .ok none
    let events := [.look .lookup "o" .origin, .look .lookup "p" .origin, .look .check "n" .origin, .advance 0,
      .advance 0, .advance 0, .receive, .receive, .receive,
      .reload (.entries [⟨"o.json".toUTF8.toList, some "\x7b\x7d".toUTF8.toList⟩]) (.ofMillis 1),
      .dispatch (.ofMillis 2), .consult 0 silence, .consult 1 silence, .consult 0 silence, .answer 0 (.ok {}),
      .answer 1 (.ok { pending := ["p"] }), .complete 1 (.ofMillis 3), .complete 0 (.ofMillis 3),
      .dispatch (.ofMillis 1500), .consult 2 silence, .answer 2 (.ok { pending := ["p"] }),
      .complete 2 (.ofMillis 1600)]
    let samples := (service.run events).samples
    (∀ key, (service.run events).cache.inFlight key = false) ∧
      counterTotal samples .fetchScheduled [] = 3 ∧ recorded samples .fetchResult (otherThan "pending") = 3 ∧
      recorded samples .batchSize (fun _ => true) = 4 ∧
      recorded samples .fetchResult (otherThan "pending_expired") = 4 := by
  intro service silence events samples
  have unstopped : (service.run events).status ≠ .stopping ∧ (service.run events).status ≠ .stopped := by
    decide +kernel
  have unharmed (earlier : List Event) (inside : earlier <+: events) : (service.run earlier).Unharmed := by
    have each : ∀ n < events.length + 1, (service.run (events.take n)).Unharmed := by decide +kernel
    rw [List.prefix_iff_eq_take.mp inside]
    exact each _ (Nat.lt_succ_of_le inside.length_le)
  have idle : ∀ key, (service.run events).cache.inFlight key = false := by
    have slots : ∀ e ∈ (service.run events).cache.slots.toList, e.2.inFlight = false := by decide +kernel
    exact Cache.idle_of_slots slots
  have scheduled : counterTotal samples .fetchScheduled [] = 3 := by decide +kernel
  have sent : recorded samples .batchSize (fun _ => true) = 4 := by decide +kernel
  obtain ⟨ended, resolved⟩ := fetch_metrics_balance ⟨.ofSecs 60, .zero, .ofSecs 10⟩
    { batchSize := 2, queryTimeout := .ofSecs 1 } true events unstopped unharmed idle
  exact ⟨idle, scheduled, ended.symm.trans scheduled, sent, resolved.symm.trans sent⟩

end Service

end AdmissionCache
