import AdmissionCache.Proofs.Service.Completion
import Mathlib.Data.List.Induction

namespace AdmissionCache

/-- A check: the number of events before it began, and what it read. -/
structure Verdict where
  began : Nat
  key : ProjectKey
  decision : Decision

def Verdict.outcome? (v : Verdict) : Option Outcome := v.decision.admission.outcome? v.key

/-- What is to be judged at the end of a call. -/
def Call.verdict? (began : Nat) (c : Call) : Option Verdict :=
  match c.purpose with
  | .lookup => none
  | .check => some ⟨began, c.key, c.decision⟩

namespace Service

/-- A run up to some event: `begun` tells of each call how many events there were before it. -/
structure Watch where
  service : Service
  clock : Nat := 0
  begun : List Nat := []
  checks : List Verdict := []
  verdicts : List Verdict := []

namespace Watch

/-- The check that begins with an event. -/
def check? (w : Watch) : Event → Option Verdict
  | .look .check key now => (w.service.look .check key now).toOption.map fun r => ⟨w.clock, key, r.2⟩
  | _ => none

/-- The check that is judged with an event. -/
def verdict? (w : Watch) : Event → Option Verdict
  | .advance n => do
    let call ← w.service.calls[n]?
    let began ← w.begun[n]?
    if call.stage = .decided then some ⟨began, call.key, call.decision⟩ else none
  | _ => none

/-- When the calls began that are left after an event. -/
def begunAfter (w : Watch) (e : Event) : List Nat :=
  let calls := (w.service.step e).calls
  match e with
  | .advance n => if calls.length < w.service.calls.length then w.begun.eraseIdx n else w.begun
  | _ => w.begun ++ List.replicate (calls.length - w.service.calls.length) w.clock

def step (w : Watch) (e : Event) : Watch where
  service := w.service.step e
  clock := w.clock + 1
  begun := w.begunAfter e
  checks := w.checks ++ (w.check? e).toList
  verdicts := w.verdicts ++ (w.verdict? e).toList

/-- What the calls are to judge that began when `begun` tells. -/
def due (begun : List Nat) (calls : List Call) : List Verdict :=
  (begun.zip calls).filterMap fun c => c.2.verdict? c.1

/-- The checks that are not judged yet. -/
def pending (w : Watch) : List Verdict := due w.begun w.service.calls

/-- What holds of a run that is watched. -/
structure Sound (w : Watch) : Prop where
  tracked : w.begun.length = w.service.calls.length
  judging : ∀ call ∈ w.service.calls, call.stage = .decided → call.purpose = .check
  balanced : w.checks.Perm (w.verdicts ++ w.pending)
  told : w.service.settings.sink = .channel → w.service.outcomes = w.verdicts.filterMap Verdict.outcome?

end Watch

/-- Watches a sequence of events. -/
def watch (s : Service) (events : List Event) : Watch := events.foldl Watch.step { service := s }

section Watching
variable {s s' : Service} {w : Watch} {e : Event} {log : List Entry} {n : Nat} {call : Call}

/-- Only the steps of calls change the calls or leave outcomes behind. -/
theorem Move.calls_kept (move : Move s e log s') (other : e.isCall = false) :
    s'.calls = s.calls ∧ s'.outcomes = s.outcomes := by
  cases move with
  | claimed _ _ => cases other
  | looked _ _ _ => cases other
  | mailed _ _ _ => cases other
  | refused _ _ _ => cases other
  | freed _ _ => cases other
  | judged _ _ => cases other
  | dispatched _ _ all =>
    obtain ⟨_, _, after⟩ := all.rest
    rw [after]
    exact ⟨rfl, rfl⟩
  | applied _ _ _ =>
    obtain ⟨_, _, _, _, after⟩ := applyAll_eq (s.dropBatch _) _ _ _
    rw [after]
    exact ⟨rfl, rfl⟩
  | released _ _ _ =>
    obtain ⟨_, _, after⟩ := releaseAll_eq (s.dropBatch _) _
    rw [after]
    exact ⟨rfl, rfl⟩
  | _ => exact ⟨rfl, rfl⟩

theorem opened_verdict (l : Lookup) (purpose : Purpose) (key : ProjectKey) (began : Nat) :
    (l.opened purpose key).filterMap (·.verdict? began) =
      match purpose with
      | .lookup => []
      | .check => [⟨began, key, l.decision⟩] := by
  unfold Lookup.opened
  cases l.scheduleFetch <;> cases purpose <;> rfl

theorem opened_judging {l : Lookup} {purpose : Purpose} {key : ProjectKey} (opened : call ∈ l.opened purpose key)
    (decided : call.stage = .decided) : call.purpose = .check := by
  unfold Lookup.opened at opened
  cases wanted : l.scheduleFetch with
  | true =>
    rw [wanted] at opened
    cases List.mem_singleton.mp opened
    cases decided
  | false =>
    rw [wanted] at opened
    cases purpose with
    | lookup => cases opened
    | check =>
      cases List.mem_singleton.mp opened
      rfl

/-- What a step of a call does to it: it goes on as it was, or a lookup is over, or a decision is judged. -/
inductive Advances (s : Service) (n : Nat) (call : Call) (next : Service) : Prop
  | on (stage : CallStage) : call.stage ≠ .decided → (stage = .decided → call.purpose = .check) →
      next.calls = (s.replaceCall n [{ call with stage }]).calls → next.outcomes = s.outcomes → Advances s n call next
  | ended : call.stage ≠ .decided → call.purpose = .lookup → next.calls = (s.replaceCall n []).calls →
      next.outcomes = s.outcomes → Advances s n call next
  | judged : call.stage = .decided → next.calls = (s.replaceCall n []).calls →
      (s.settings.sink = .channel →
        next.outcomes = s.outcomes ++ (call.decision.admission.outcome? call.key).toList) → Advances s n call next

theorem judge_outcomes (channel : s.settings.sink = .channel) (key : ProjectKey) (d : Decision) :
    (s.judge key d).outcomes = s.outcomes ++ (d.admission.outcome? key).toList := by
  unfold judge emit
  cases d.admission.outcome? key with
  | none => exact (List.append_nil _).symm
  | some o =>
    rw [channel]
    rfl

theorem advance_advances (atCall : s.calls[n]? = some call) : Advances s n call (s.advance n) := by
  simp only [advance, atCall]
  have rested {next : Service} (undecided : call.stage ≠ .decided)
      (calls : next.calls = (s.replaceCall n call.rest).calls) (outcomes : next.outcomes = s.outcomes) :
      Advances s n call next := by
    unfold Call.rest at calls
    cases purpose : call.purpose with
    | lookup =>
      rw [purpose] at calls
      exact .ended undecided purpose calls outcomes
    | check =>
      rw [purpose] at calls
      exact .on .decided undecided (fun _ => purpose) (by simpa [purpose] using calls) outcomes
  cases stage : call.stage with
  | claimed =>
    have undecided : call.stage ≠ .decided := ne_of_eq_of_ne stage (by decide)
    dsimp only
    split
    · exact rested undecided rfl rfl
    · exact .on .refused undecided (fun judged => by cases judged) rfl rfl
  | refused => exact rested (ne_of_eq_of_ne stage (by decide)) rfl rfl
  | decided =>
    obtain ⟨_, _, judged⟩ := judge_eq (s.replaceCall n []) call.key call.decision
    exact .judged stage (by rw [judged]) fun channel => judge_outcomes (s := s.replaceCall n []) channel ..

namespace Watch

theorem due_append {begun begun' : List Nat} {calls calls' : List Call} (tracked : begun.length = calls.length) :
    due (begun ++ begun') (calls ++ calls') = due begun calls ++ due begun' calls' := by
  rw [due, List.zip_append tracked, List.filterMap_append]
  rfl

theorem due_cons (began : Nat) (begun : List Nat) (c : Call) (calls : List Call) :
    due (began :: begun) (c :: calls) = (c.verdict? began).toList ++ due begun calls := by
  rw [due, List.zip_cons_cons, List.filterMap_cons]
  cases c.verdict? began <;> rfl

theorem due_replicate (began : Nat) (calls : List Call) :
    due (List.replicate calls.length began) calls = calls.filterMap (·.verdict? began) := by
  induction calls with
  | nil => rfl
  | cons c rest ih =>
    rw [List.length_cons, List.replicate_succ, due_cons, ih, List.filterMap_cons]
    cases c.verdict? began <;> rfl

theorem Sound.other (sound : w.Sound) (other : e.isCall = false) : (w.step e).Sound := by
  have move := w.service.step_move e
  obtain ⟨calls, outcomes⟩ := move.calls_kept other
  have begun : w.begunAfter e = w.begun := by
    cases e with
    | advance n => cases other
    | _ => simp only [begunAfter, calls, Nat.sub_self, List.replicate_zero, List.append_nil]
  have unchecked : w.check? e = none := by
    cases e with
    | look purpose key now => cases other
    | _ => rfl
  have unjudged : w.verdict? e = none := by
    cases e with
    | advance n => cases other
    | _ => rfl
  obtain ⟨tracked, judging, balanced, told⟩ := sound
  constructor
  · simpa only [step, begun, calls] using tracked
  · simpa only [step, calls] using judging
  · simpa only [step, pending, begun, calls, unchecked, unjudged, Option.toList_none, List.append_nil] using balanced
  · simpa only [step, outcomes, unjudged, move.settings, Option.toList_none, List.append_nil] using told

/-- A call that begins opens what there is to do for it, and a check has to be judged. -/
theorem look_opens (w : Watch) (purpose : Purpose) (key : ProjectKey) (now : Instant) :
    ∃ opened, (w.service.step (.look purpose key now)).calls = w.service.calls ++ opened ∧
      (w.service.step (.look purpose key now)).outcomes = w.service.outcomes ∧
      (∀ call ∈ opened, call.stage = .decided → call.purpose = .check) ∧
      opened.filterMap (·.verdict? w.clock) = (w.check? (.look purpose key now)).toList := by
  cases got : w.service.cache.get key now with
  | error fault =>
    have failed (purpose : Purpose) : w.service.look purpose key now = .error fault := by
      rw [Service.look, got]
      rfl
    refine ⟨[], ?_, ?_, fun call opened => ?_, ?_⟩
    · simp only [Service.step, failed, List.append_nil]
    · simp only [Service.step, failed]
    · cases opened
    · cases purpose with
      | lookup => rfl
      | check =>
        rw [check?, failed]
        rfl
  | ok answer =>
    obtain ⟨cache, l⟩ := answer
    refine ⟨l.opened purpose key, ?_, ?_, fun call => opened_judging, ?_⟩
    · simp only [Service.step, w.service.look_ok got, record]
    · simp only [Service.step, w.service.look_ok got, record]
    · rw [opened_verdict]
      cases purpose with
      | lookup => rfl
      | check =>
        rw [check?, w.service.look_ok got]
        rfl

theorem Sound.look (sound : w.Sound) (purpose : Purpose) (key : ProjectKey) (now : Instant) :
    (w.step (.look purpose key now)).Sound := by
  obtain ⟨tracked, judging, balanced, told⟩ := sound
  obtain ⟨opened, calls, outcomes, unjudged, due⟩ := w.look_opens purpose key now
  have begun : w.begunAfter (.look purpose key now) = w.begun ++ List.replicate opened.length w.clock := by
    simp only [begunAfter, calls, List.length_append, Nat.add_sub_cancel_left]
  have pending : (w.step (.look purpose key now)).pending =
      w.pending ++ (w.check? (.look purpose key now)).toList := by
    simp only [Watch.pending, step, begun, calls]
    rw [due_append tracked, due_replicate, due]
  have settings := (w.service.step_move (.look purpose key now)).settings
  constructor
  · simp only [step, begun, calls, List.length_append, List.length_replicate, tracked]
  · intro call member
    simp only [step, calls] at member
    rcases List.mem_append.mp member with old | new
    · exact judging call old
    · exact unjudged call new
  · rw [pending]
    simp only [step, verdict?, Option.toList_none, List.append_nil]
    rw [← List.append_assoc]
    exact balanced.append_right _
  · simp only [step, outcomes, settings, verdict?, Option.toList_none, List.append_nil]
    exact told

/-- A call and when it began, among the others: `before` and `calls` stand for those in front of it. -/
structure Split (w : Watch) (n : Nat) (call : Call) (began : Nat) (before after : List Nat)
    (calls calls' : List Call) : Prop where
  atBefore : before.length = n
  atCalls : calls.length = n
  begun : w.begun = before ++ began :: after
  calls_eq : w.service.calls = calls ++ call :: calls'

theorem exists_split (sound : w.Sound) (atCall : w.service.calls[n]? = some call) :
    ∃ began before after calls calls', w.Split n call began before after calls calls' := by
  obtain ⟨bound, here⟩ := List.getElem?_eq_some_iff.mp atCall
  have within : n < w.begun.length := sound.tracked ▸ bound
  refine ⟨w.begun[n], w.begun.take n, w.begun.drop (n + 1), w.service.calls.take n, w.service.calls.drop (n + 1),
    List.length_take_of_le (Nat.le_of_lt within), List.length_take_of_le (Nat.le_of_lt bound), ?_, ?_⟩
  · rw [List.getElem_cons_drop, List.take_append_drop]
  · rw [← here, List.getElem_cons_drop, List.take_append_drop]

section Split
variable {began : Nat} {before after : List Nat} {calls calls' : List Call}

theorem Split.replaced (split : w.Split n call began before after calls calls') (new : List Call) :
    (w.service.replaceCall n new).calls = calls ++ (new ++ calls') := by
  have behind : (calls ++ call :: calls').drop (n + 1) = calls' := by
    rw [List.append_cons]
    exact List.drop_left' (by rw [List.length_append, split.atCalls, List.length_singleton])
  rw [replaceCall, split.calls_eq, behind, List.take_left' split.atCalls, List.append_assoc]

theorem Split.aligned (split : w.Split n call began before after calls calls') : before.length = calls.length :=
  split.atBefore.trans split.atCalls.symm

theorem Split.pending_eq (split : w.Split n call began before after calls calls') :
    w.pending = due before calls ++ ((call.verdict? began).toList ++ due after calls') := by
  rw [pending, split.begun, split.calls_eq, due_append split.aligned, due_cons]

theorem Split.verdict?_eq (split : w.Split n call began before after calls calls') :
    w.verdict? (.advance n) =
      if call.stage = .decided then some ⟨began, call.key, call.decision⟩ else none := by
  have atCall : w.service.calls[n]? = some call := by
    rw [split.calls_eq, ← split.atCalls, List.getElem?_append_right (Nat.le_refl _), Nat.sub_self]
    rfl
  have atBegun : w.begun[n]? = some began := by
    rw [split.begun, ← split.atBefore, List.getElem?_append_right (Nat.le_refl _), Nat.sub_self]
    rfl
  rw [verdict?, atCall, atBegun]
  rfl

/-- A call that goes on keeps its place. -/
theorem Split.goesOn (split : w.Split n call began before after calls calls')
    (tracked : w.begun.length = w.service.calls.length) {c : Call}
    (left : (w.service.step (.advance n)).calls = calls ++ c :: calls')
    (same : c.verdict? began = call.verdict? began) :
    (w.step (.advance n)).begun.length = (w.step (.advance n)).service.calls.length ∧
      (w.step (.advance n)).pending = w.pending := by
  have begun : w.begunAfter (.advance n) = w.begun := by
    simp only [begunAfter, left, split.calls_eq, List.length_append, List.length_cons, Nat.lt_irrefl, if_false]
  constructor
  · simp only [step, begun, left, tracked, split.calls_eq, List.length_append, List.length_cons]
  · rw [split.pending_eq, ← same]
    simp only [pending, step, begun, left]
    rw [split.begun, due_append split.aligned, due_cons]

/-- A call that is over leaves its place to those behind it. -/
theorem Split.ends (split : w.Split n call began before after calls calls')
    (tracked : w.begun.length = w.service.calls.length)
    (left : (w.service.step (.advance n)).calls = calls ++ calls') :
    (w.step (.advance n)).begun.length = (w.step (.advance n)).service.calls.length ∧
      (w.step (.advance n)).pending = due before calls ++ due after calls' := by
  have begun : w.begunAfter (.advance n) = before ++ after := by
    have shorter : (calls ++ calls').length < w.service.calls.length := by
      rw [split.calls_eq]
      simp only [List.length_append, List.length_cons]
      omega
    simp only [begunAfter, left, shorter, if_true]
    rw [split.begun, ← split.atBefore, List.eraseIdx_append_of_length_le (Nat.le_refl _), Nat.sub_self]
    rfl
  constructor
  · rw [split.begun, split.calls_eq] at tracked
    simp only [step, begun, left, List.length_append, List.length_cons] at tracked ⊢
    omega
  · simp only [pending, step, begun, left]
    exact due_append split.aligned

end Split

theorem Sound.advance (sound : w.Sound) (n : Nat) : (w.step (.advance n)).Sound := by
  have settings := (w.service.step_move (.advance n)).settings
  have checks : (w.step (.advance n)).checks = w.checks := List.append_nil _
  cases atCall : w.service.calls[n]? with
  | none =>
    have idle : w.service.advance n = w.service := by simp only [Service.advance, atCall]
    have begun : w.begunAfter (.advance n) = w.begun := by
      simp only [begunAfter, Service.step, idle, Nat.lt_irrefl, if_false]
    have unjudged : w.verdict? (.advance n) = none := by
      rw [verdict?, atCall]
      rfl
    obtain ⟨tracked, judging, balanced, told⟩ := sound
    constructor
    · simpa only [step, Service.step, idle, begun] using tracked
    · simpa only [step, Service.step, idle] using judging
    · simpa only [step, Service.step, idle, pending, begun, unjudged, check?, Option.toList_none,
        List.append_nil] using balanced
    · simpa only [step, Service.step, idle, unjudged, Option.toList_none, List.append_nil] using told
  | some call =>
    obtain ⟨began, before, after, calls, calls', split⟩ := exists_split sound atCall
    obtain ⟨tracked, judging, balanced, told⟩ := sound
    rw [split.calls_eq] at judging
    have others : ∀ c ∈ calls ++ calls', c.stage = .decided → c.purpose = .check := fun c member =>
      judging c (((List.sublist_cons_self call calls').append_left calls).subset member)
    cases advance_advances atCall with
    | on stage undecided checked left outcomes =>
      have verdicts : (w.step (.advance n)).verdicts = w.verdicts := by
        simp only [step, split.verdict?_eq, if_neg undecided, Option.toList_none, List.append_nil]
      rw [split.replaced] at left
      obtain ⟨tracked', pending⟩ := split.goesOn tracked left rfl
      refine ⟨tracked', fun c member decided => ?_, ?_, fun channel => ?_⟩
      · change c ∈ (w.service.advance n).calls at member
        rw [left] at member
        rcases List.mem_append.mp member with old | later
        · exact others c (List.mem_append_left _ old) decided
        · rcases List.mem_cons.mp later with rfl | old
          · exact checked decided
          · exact others c (List.mem_append_right _ old) decided
      · rw [checks, verdicts, pending]
        exact balanced
      · rw [verdicts]
        exact outcomes.trans (told (settings ▸ channel))
    | ended undecided lookup left outcomes =>
      have verdicts : (w.step (.advance n)).verdicts = w.verdicts := by
        simp only [step, split.verdict?_eq, if_neg undecided, Option.toList_none, List.append_nil]
      rw [split.replaced, List.nil_append] at left
      obtain ⟨tracked', pending⟩ := split.ends tracked left
      have undue : call.verdict? began = none := by rw [Call.verdict?, lookup]
      refine ⟨tracked', fun c member => others c (left ▸ member), ?_, fun channel => ?_⟩
      · rw [split.pending_eq, undue] at balanced
        rw [checks, verdicts, pending]
        exact balanced
      · rw [verdicts]
        exact outcomes.trans (told (settings ▸ channel))
    | judged decided left outcomes =>
      have verdicts : (w.step (.advance n)).verdicts = w.verdicts ++ [⟨began, call.key, call.decision⟩] := by
        simp only [step, split.verdict?_eq, if_pos decided, Option.toList_some]
      rw [split.replaced, List.nil_append] at left
      obtain ⟨tracked', pending⟩ := split.ends tracked left
      have due : call.verdict? began = some ⟨began, call.key, call.decision⟩ := by
        rw [Call.verdict?, judging call (by simp) decided]
      refine ⟨tracked', fun c member => others c (left ▸ member), ?_, fun channel => ?_⟩
      · rw [split.pending_eq, due] at balanced
        rw [checks, verdicts, pending, List.append_assoc]
        exact balanced.trans (List.Perm.append_left _ List.perm_middle)
      · have sink : w.service.settings.sink = .channel := settings ▸ channel
        change (w.service.advance n).outcomes = _
        rw [verdicts, outcomes sink, told sink, List.filterMap_append]
        rfl

theorem Sound.step (sound : w.Sound) (e : Event) : (w.step e).Sound := by
  cases e with
  | look purpose key now => exact sound.look purpose key now
  | advance n => exact sound.advance n
  | _ => exact sound.other rfl

end Watch

theorem watch_concat (s : Service) (events : List Event) (e : Event) :
    s.watch (events ++ [e]) = (s.watch events).step e := List.foldl_append ..

theorem watch_service (s : Service) (events : List Event) :
    (s.watch events).service = s.run events ∧ (s.watch events).clock = events.length := by
  induction events using List.reverseRecOn with
  | nil => exact ⟨rfl, rfl⟩
  | append_singleton earlier e ih =>
    obtain ⟨service, clock⟩ := ih
    rw [watch_concat, run_append, List.length_append]
    exact ⟨congrArg (Service.step · e) service, congrArg (· + 1) clock⟩

theorem watch_sound (policy : Policy) (settings : ServiceSettings) (withOverrides : Bool) (events : List Event) :
    ((start policy settings withOverrides).watch events).Sound := by
  induction events using List.reverseRecOn with
  | nil => exact ⟨rfl, nofun, .refl _, fun _ => rfl⟩
  | append_singleton earlier e ih =>
    rw [watch_concat]
    exact ih.step e

/-- The event with which a check began, and that it read then what it is to judge. -/
def Reads (s : Service) (events : List Event) (v : Verdict) : Prop :=
  ∃ now s', events[v.began]? = some (.look .check v.key now) ∧
    (s.run (events.take v.began)).look .check v.key now = .ok (s', v.decision)

theorem Reads.before {events : List Event} {v : Verdict} (reads : s.Reads events v) : v.began < events.length := by
  obtain ⟨_, _, here, _⟩ := reads
  exact (List.getElem?_eq_some_iff.mp here).1

theorem Watch.check?_eq_some {v : Verdict} :
    w.check? e = some v ↔
      v.began = w.clock ∧ ∃ now s', e = .look .check v.key now ∧ w.service.look .check v.key now = .ok (s', v.decision) := by
  constructor
  · intro checked
    cases e with
    | look purpose key now =>
      cases purpose with
      | lookup => cases checked
      | check =>
        obtain ⟨⟨s', d⟩, looked, rfl⟩ := Option.map_eq_some_iff.mp checked
        cases answer : w.service.look .check key now with
        | error fault =>
          rw [answer] at looked
          cases looked
        | ok r =>
          rw [answer] at looked
          cases looked
          exact ⟨rfl, now, s', rfl, answer⟩
    | _ => cases checked
  · rintro ⟨began, now, s', rfl, looked⟩
    rw [check?, looked, ← began]
    rfl

theorem reads_concat {events : List Event} {v : Verdict} :
    s.Reads (events ++ [e]) v ↔ s.Reads events v ∨ (s.watch events).check? e = some v := by
  rw [Watch.check?_eq_some]
  obtain ⟨service, clock⟩ := s.watch_service events
  rw [service, clock]
  rcases Nat.lt_trichotomy v.began events.length with earlier | now | later
  · rw [or_iff_left fun here => Nat.ne_of_lt earlier here.1, Reads, Reads, List.getElem?_append_left earlier,
      List.take_append_of_le_length (Nat.le_of_lt earlier)]
  · rw [or_iff_right fun reads => Nat.ne_of_lt reads.before now, Reads, now, List.getElem?_concat_length,
      List.take_left, and_iff_right rfl]
    simp only [Option.some.injEq]
  · constructor
    · intro reads
      have within := reads.before
      rw [List.length_append, List.length_singleton] at within
      omega
    · rintro (reads | ⟨here, _⟩)
      · exact absurd reads.before (Nat.lt_asymm later)
      · exact absurd here (Nat.ne_of_gt later)

theorem mem_checks {events : List Event} {v : Verdict} : v ∈ (s.watch events).checks ↔ s.Reads events v := by
  induction events using List.reverseRecOn with
  | nil => exact ⟨nofun, fun reads => nomatch reads.before⟩
  | append_singleton earlier e ih =>
    rw [watch_concat, reads_concat, ← ih]
    simp only [Watch.step, List.mem_append, Option.mem_toList]

/-- No two checks began with the same event. -/
theorem checks_ordered (s : Service) (events : List Event) :
    ((s.watch events).checks.map (·.began)).Pairwise (· < ·) := by
  induction events using List.reverseRecOn with
  | nil => exact .nil
  | append_singleton earlier e ih =>
    rw [watch_concat]
    simp only [Watch.step, List.map_append]
    refine List.pairwise_append.mpr ⟨ih, ?_, ?_⟩
    · cases (s.watch earlier).check? e with
      | none => exact .nil
      | some v => exact List.pairwise_singleton ..
    · intro before inside now new
      obtain ⟨v, member, rfl⟩ := List.mem_map.mp inside
      obtain ⟨v', checked, rfl⟩ := List.mem_map.mp new
      have here := (Watch.check?_eq_some.mp (Option.mem_toList.mp checked)).1
      rw [here, (s.watch_service earlier).2]
      exact (mem_checks.mp member).before

/-- A check is rejected if what it read is a disabled configuration or that there is no project. -/
theorem outcome?_eq_some {v : Verdict} {o : Outcome} : v.outcome? = some o ↔
    (∃ config, (v.decision = .useFresh config ∨ v.decision = .useStale config) ∧ config.disabled = true) ∧
        o = ⟨v.key, 3, "project_id"⟩ ∨
      v.decision = .notFound ∧ o = ⟨v.key, 3, "project not found"⟩ := by
  obtain ⟨began, key, decision⟩ := v
  have usable (config : ProjectConfig) (admission : decision.admission =
      if config.disabled then .rejected .projectDisabled else .admitted config) :
      Verdict.outcome? ⟨began, key, decision⟩ = some o ↔ config.disabled = true ∧ o = ⟨key, 3, "project_id"⟩ := by
    rw [Verdict.outcome?, admission]
    cases config.disabled with
    | true =>
      rw [eq_comm (a := o)]
      exact Option.some_inj.trans (and_iff_right rfl).symm
    | false => exact ⟨nofun, nofun⟩
  cases decision with
  | useFresh config =>
    rw [usable config rfl]
    simp
  | useStale config =>
    rw [usable config rfl]
    simp
  | notFound =>
    have rejected : Verdict.outcome? ⟨began, key, .notFound⟩ = some ⟨key, 3, "project not found"⟩ := rfl
    rw [rejected, Option.some_inj, eq_comm]
    simp
  | unknown => simp [Verdict.outcome?, Decision.admission, Admission.outcome?, Admission.reason?]

/-- With a channel for outcomes, a run leaves the outcomes of the rejections among what it judged, in the
order in which it judged it. It judges what its checks have read, each check once: those that are not
judged yet are going on. -/
theorem one_outcome_per_rejected_check (policy : Policy) (settings : ServiceSettings) (withOverrides : Bool)
    (events : List Event) (channel : settings.sink = .channel) :
    let s := start policy settings withOverrides
    let w := s.watch events
    (s.run events).outcomes = w.verdicts.filterMap Verdict.outcome? ∧
      w.checks.Perm (w.verdicts ++ w.pending) ∧
      (w.checks.map (·.began)).Pairwise (· < ·) ∧
      (∀ v, v ∈ w.checks ↔ s.Reads events v) ∧
      ∀ (v : Verdict) o, v.outcome? = some o ↔
        (∃ config, (v.decision = .useFresh config ∨ v.decision = .useStale config) ∧ config.disabled = true) ∧
            o = ⟨v.key, 3, "project_id"⟩ ∨
          v.decision = .notFound ∧ o = ⟨v.key, 3, "project not found"⟩ := by
  intro s w
  have sound : w.Sound := watch_sound policy settings withOverrides events
  have run := (s.watch_service events).1
  refine ⟨?_, sound.balanced, s.checks_ordered events, fun v => mem_checks, fun v o => outcome?_eq_some⟩
  have sink : w.service.settings.sink = .channel := by
    rw [run, run_settings]
    exact channel
  rw [← run]
  exact sound.told sink

/-- Four checks, and a lookup that leaves nothing. The second is judged first, and the third waits until
the authority knows no such project, but judges what it read before. -/
theorem two_of_four_rejected :
    let s := start ⟨.ofSecs 60, .zero, .ofSecs 10⟩ { batchSize := 10, queryTimeout := .ofSecs 30 } true
    let events := [.reload (.entries [⟨"a.json".toUTF8.toList, some "\x7b\"disabled\":true\x7d".toUTF8.toList⟩,
        ⟨"b.json".toUTF8.toList, some "\x7b\x7d".toUTF8.toList⟩]) .origin,
      .look .check "a" (.ofMillis 1), .look .check "b" (.ofMillis 1), .look .lookup "a" (.ofMillis 1),
      .look .check "c" (.ofMillis 2), .advance 1, .advance 1, .advance 0, .receive, .dispatch (.ofMillis 3),
      .consult 0 fun _ => .ok none, .answer 0 (.ok {}), .complete 0 (.ofMillis 4), .look .check "c" (.ofMillis 5),
      .advance 0, .advance 0]
    let w := s.watch events
    (s.run events).outcomes = [⟨"a", 3, "project_id"⟩, ⟨"c", 3, "project not found"⟩] ∧
      w.verdicts.filterMap Verdict.outcome? = [⟨"a", 3, "project_id"⟩, ⟨"c", 3, "project not found"⟩] ∧
      w.checks.Perm w.verdicts ∧ w.verdicts.map (·.began) = [2, 1, 4, 13] := by
  intro s events w
  have left : (s.run events).outcomes = [⟨"a", 3, "project_id"⟩, ⟨"c", 3, "project not found"⟩] := by
    decide +kernel
  have none : w.pending.map (·.began) = [] := by decide +kernel
  obtain ⟨outcomes, judged, _⟩ := one_outcome_per_rejected_check ⟨.ofSecs 60, .zero, .ofSecs 10⟩
    { batchSize := 10, queryTimeout := .ofSecs 30 } true events rfl
  refine ⟨left, outcomes.symm.trans left, ?_, by decide +kernel⟩
  rw [List.map_eq_nil_iff.mp none, List.append_nil] at judged
  exact judged

end Watching

end Service

end AdmissionCache
