import AdmissionCache.Proofs.Service.Chronicle
import AdmissionCache.Proofs.Service.Samples
import AdmissionCache.Proofs.Timeline.Errands
import Mathlib.Data.List.TakeDrop
import Mathlib.Data.List.TakeWhile
import Mathlib.Data.Option.Basic

namespace AdmissionCache

/-- Whether an answer is the end of a query that was started, and reached by its own course. -/
def Event.Earned (settings : QuerySettings) : Event → Prop
  | .answer _ result | .learnGlobal result =>
    ∃ (q : Query) (outcome : QueryEnd), Query.start? settings q.started = some q ∧ q.Reaches (.ended outcome) ∧
      outcome.result = result
  | _ => True

namespace Timeline
variable {t t' t'' : Timeline}

/-- Whether every errand under way is where its query can be. -/
def OnCourse (t : Timeline) : Prop := ∀ e ∈ t.errands, e.OnCourse t.query t.now

theorem OnCourse.subset (onCourse : t.OnCourse) (query : t'.query = t.query) (now : t'.now = t.now)
    (kept : t'.errands ⊆ t.errands) : t'.OnCourse := by
  rw [OnCourse, query, now]
  exact fun e member => onCourse e (kept member)

/-- What a timeline becomes at one instant: its service takes part in events of this instant, its
answers are earned, and its errands stay on their course. -/
structure AtOnce (t t' : Timeline) : Prop where
  query : t'.query = t.query
  now : t'.now = t.now
  onCourse : t'.OnCourse
  ran : ∃ events : List Event, (∀ e ∈ events, e.Earned t.query ∧ ∀ time, e.time? = some time → time = t.now) ∧
    t'.service.unrecorded = (t.service.run events).unrecorded

/-- What a timeline becomes as time goes on: its service takes part in events that follow each
other in time, its answers are earned, and its errands stay on their course. -/
structure Leads (t t' : Timeline) : Prop where
  query : t'.query = t.query
  later : t.now.nanos ≤ t'.now.nanos
  onCourse : t'.OnCourse
  ran : ∃ events : List Event, ClockOrder events t'.now ∧
    (∀ e ∈ events, e.Earned t.query ∧ ∀ time, e.time? = some time → t.now.nanos ≤ time.nanos) ∧
    t'.service.unrecorded = (t.service.run events).unrecorded

namespace AtOnce

theorem refl (onCourse : t.OnCourse) : AtOnce t t := ⟨rfl, rfl, onCourse, [], nofun, rfl⟩

theorem trans (first : AtOnce t t') (second : AtOnce t' t'') : AtOnce t t'' := by
  obtain ⟨earlier, each, ran⟩ := first.ran
  obtain ⟨later, eachLater, ranLater⟩ := second.ran
  refine ⟨second.query.trans first.query, second.now.trans first.now, second.onCourse, earlier ++ later, ?_, ?_⟩
  · intro e member
    rcases List.mem_append.mp member with inside | inside
    · exact each e inside
    · rw [← first.query, ← first.now]
      exact eachLater e inside
  · rw [Service.run_append, ranLater]
    exact (Service.unread_run later).congr ran

/-- What only ticks, requests and scripts see makes no difference. -/
theorem update (reached : AtOnce t t') (query : t''.query = t'.query) (now : t''.now = t'.now)
    (errands : t''.errands = t'.errands) (service : t''.service.unrecorded = t'.service.unrecorded) :
    AtOnce t t'' := by
  refine ⟨query.trans reached.query, now.trans reached.now, ?_, ?_⟩
  · exact OnCourse.subset reached.onCourse query now (errands ▸ List.Subset.refl _)
  · obtain ⟨events, each, ran⟩ := reached.ran
    exact ⟨events, each, service.trans ran⟩

theorem leads (reached : AtOnce t t') : Leads t t' := by
  obtain ⟨events, each, ran⟩ := reached.ran
  refine ⟨reached.query, Nat.le_of_eq (congrArg _ reached.now.symm), reached.onCourse, events, ?_, ?_, ran⟩
  · rw [reached.now]
    exact clockOrder_of_same fun e member time at_time => (each e member).2 time at_time
  · intro e member
    refine ⟨(each e member).1, fun time at_time => ?_⟩
    exact Nat.le_of_eq (congrArg _ ((each e member).2 time at_time).symm)

end AtOnce

namespace Leads

theorem trans (first : Leads t t') (second : Leads t' t'') : Leads t t'' := by
  obtain ⟨earlier, order, each, ran⟩ := first.ran
  obtain ⟨later, orderLater, eachLater, ranLater⟩ := second.ran
  refine ⟨second.query.trans first.query, Nat.le_trans first.later second.later, second.onCourse, earlier ++ later,
    ?_, ?_, ?_⟩
  · refine order.append orderLater second.later fun e member time at_time => (eachLater e member).2 time at_time
  · intro e member
    rcases List.mem_append.mp member with inside | inside
    · exact each e inside
    · obtain ⟨earned, since⟩ := eachLater e inside
      rw [first.query] at earned
      exact ⟨earned, fun time at_time => Nat.le_trans first.later (since time at_time)⟩
  · rw [Service.run_append, ranLater]
    exact (Service.unread_run later).congr ran

/-- Nothing happens before the next thing that is due. -/
theorem wait {now : Instant} (onCourse : t.OnCourse) (later : t.now.nanos ≤ now.nanos)
    (ahead : ∀ e ∈ t.errands, now.nanos ≤ e.wake.nanos) : Leads t { t with now := now } :=
  ⟨rfl, later, fun e member => (onCourse e member).mono (ahead e member), [], List.pairwise_singleton _ _, nofun, rfl⟩

end Leads

theorem tidy_atOnce (onCourse : t.OnCourse) : AtOnce t t.tidy := by
  unfold tidy
  split
  · exact .refl onCourse
  · exact .refl onCourse
  · refine ⟨rfl, rfl, onCourse.subset rfl rfl (List.nil_subset _), [.vanish], ?_, rfl⟩
    intro e member
    rw [List.mem_singleton.mp member]
    exact ⟨trivial, nofun⟩
  · exact ⟨rfl, rfl, onCourse.subset rfl rfl List.filter_sublist.subset, [], nofun, rfl⟩

namespace AtOnce

/-- One more event, and what ends with the worker. -/
theorem apply {e : Event} (reached : AtOnce t t') (earned : e.Earned t.query)
    (at_now : ∀ time, e.time? = some time → time = t.now) : AtOnce t (t'.apply e) := by
  obtain ⟨events, each, ran⟩ := reached.ran
  have stepped : AtOnce t { t' with service := t'.service.step e } := by
    refine ⟨reached.query, reached.now, reached.onCourse, events ++ [e], ?_, ?_⟩
    · intro x member
      rcases List.mem_append.mp member with inside | last
      · exact each x inside
      · rw [List.mem_singleton.mp last]
        exact ⟨earned, at_now⟩
    · rw [Service.run_append]
      exact (Service.unread_step e).congr ran
  exact stepped.trans (tidy_atOnce stepped.onCourse)

/-- One more errand on its course. -/
theorem carry {e : Errand} (reached : AtOnce t t') (onCourse : e.OnCourse t.query t.now) :
    AtOnce t { t' with errands := t'.errands ++ [e] } := by
  refine ⟨reached.query, reached.now, ?_, reached.ran⟩
  intro x member
  rcases List.mem_append.mp member with inside | last
  · exact reached.onCourse x inside
  · rw [List.mem_singleton.mp last]
    show e.OnCourse t'.query t'.now
    rw [reached.query, reached.now]
    exact onCourse

end AtOnce

theorem start_atOnce (onCourse : t.OnCourse) : AtOnce t t.start := by
  have begun : AtOnce t { t with started := true } := (AtOnce.refl onCourse).update rfl rfl rfl rfl
  have loaded : AtOnce t ({ t with started := true }.apply (.reload t.directory t.now)) :=
    begun.apply trivial fun _ at_now => (Option.some.inj at_now).symm
  unfold start
  extract_lets first intervals polled
  have reached : AtOnce t polled := loaded.update rfl rfl rfl rfl
  clear_value polled
  split
  · exact reached.apply trivial nofun
  · exact reached.update rfl rfl rfl rfl

/-- A query that can be started is sent out with its first attempt. -/
theorem send_atOnce (onCourse : t.OnCourse) (batch : Option Nat) (request : ConfigsRequest) :
    AtOnce t (t.send batch request) := by
  unfold send
  cases started : Query.start? t.query t.now with
  | none =>
    cases batch with
    | none => exact (AtOnce.refl onCourse).update rfl rfl rfl rfl
    | some id => exact (AtOnce.refl onCourse).apply trivial nofun
  | some query =>
    have start : query.started = t.now := by rw [Query.start?_eq_some started]
    have first : query.first = .trying (query.attempt 1 t.now) := by rw [Query.first, start]
    have sent : AtOnce t (t.begin { batch, query, request, state := query.first } (query.attempt 1 t.now)).1 :=
      (AtOnce.refl onCourse).update rfl rfl rfl rfl
    refine sent.carry (Errand.onCourse_of_attempt ?_ ?_ rfl rfl)
    · exact start ▸ started
    · exact first ▸ query.reaches_first

/-- An errand that has gone on is put back, or its end is handed over. -/
theorem conclude_atOnce {e : Errand} (onCourse : t.OnCourse) (proceeded : e.Proceeded t.query t.now) :
    AtOnce t (t.conclude e) := by
  cases proceeded with
  | underWay eOnCourse =>
    have kept : t.conclude e = { t with errands := t.errands ++ [e] } := by
      rcases eOnCourse.underWay with ⟨a, trying⟩ | ⟨number, due, pausing⟩
      · simp only [conclude, trying]
      · simp only [conclude, pausing]
    rw [kept]
    exact (AtOnce.refl onCourse).carry eOnCourse
  | finished outcome ended started reached =>
    have recorded : AtOnce t { t with service := t.service.record (outcome.samples e.kind e.query.started) } :=
      (AtOnce.refl onCourse).update rfl rfl rfl (Service.unrecorded_record _ _)
    have earned : ∃ (q : Query) (o : QueryEnd), Query.start? t.query q.started = some q ∧ q.Reaches (.ended o) ∧
        o.result = outcome.result := ⟨e.query, outcome, started, ended ▸ reached, rfl⟩
    simp only [conclude, ended]
    cases e.batch with
    | none => exact recorded.apply earned nofun
    | some id => exact recorded.apply earned nofun
  | broken lost =>
    simp only [conclude, lost]
    cases e.batch with
    | none => exact (AtOnce.refl onCourse).update rfl rfl rfl rfl
    | some id => exact (AtOnce.refl onCourse).apply trivial nofun

/-- An errand that is due goes on as its query does. -/
theorem proceed_atOnce {e : Errand} (onCourse : t.OnCourse) (eOnCourse : e.OnCourse t.query t.now)
    (due : e.wake = t.now) : AtOnce t (t.proceed e) := by
  rcases eOnCourse.underWay with ⟨a, trying⟩ | ⟨number, deadline, pausing⟩
  · simp only [proceed, trying]
    split
    · rename_i inTime
      split
      · exact conclude_atOnce onCourse (.broken rfl)
      · exact conclude_atOnce onCourse (eOnCourse.replied due trying inTime _)
    · rename_i late
      exact conclude_atOnce onCourse (eOnCourse.cut due trying late)
  · simp only [proceed, pausing]
    have begun : AtOnce t (t.begin e (e.query.attempt (number + 1) t.now)).1 :=
      (AtOnce.refl onCourse).update rfl rfl rfl rfl
    refine begun.trans (conclude_atOnce begun.onCourse (.underWay ?_))
    exact Errand.onCourse_of_attempt eOnCourse.started (eOnCourse.retried due pausing) rfl rfl

theorem receive?_atOnce (onCourse : t.OnCourse) (acts : t.receive? = some t') : AtOnce t t' := by
  unfold receive? at acts
  split at acts
  · cases acts
    exact (AtOnce.refl onCourse).apply trivial nofun
  · cases acts

theorem complete?_atOnce (onCourse : t.OnCourse) (acts : t.complete? = some t') : AtOnce t t' := by
  unfold complete? at acts
  split at acts
  · obtain ⟨b, -, rfl⟩ := Option.map_eq_some_iff.mp acts
    exact (AtOnce.refl onCourse).apply trivial fun _ at_now => (Option.some.inj at_now).symm
  · cases acts

/-- What is done at a tick is done with some ticks. -/
theorem exists_of_tick {ticks : Option Ticker} {due : Ticker → Bool} {f : Ticker → Timeline}
    (acts : (ticks.bind fun ticks => if due ticks then some (f ticks) else none) = some t') : ∃ ticks, f ticks = t' := by
  obtain ⟨ticks, -, made⟩ := Option.bind_eq_some_iff.mp acts
  split at made
  · exact ⟨ticks, Option.some.inj made⟩
  · cases made

/-- What the worker does at a tick of its own is an event of this instant. -/
theorem tick_atOnce {ticks : Option Ticker} {due : Ticker → Bool} {ticked : Ticker → Timeline} {e : Event}
    (acts : (ticks.bind fun ticks => if due ticks then some ((ticked ticks).apply e) else none) = some t')
    (kept : ∀ ticks, AtOnce t (ticked ticks)) (earned : e.Earned t.query) (at_now : e.time? = some t.now) :
    AtOnce t t' := by
  obtain ⟨ticks, rfl⟩ := exists_of_tick acts
  refine (kept ticks).apply earned fun time same => ?_
  rw [at_now] at same
  exact (Option.some.inj same).symm

theorem dispatch?_atOnce (onCourse : t.OnCourse) (acts : t.dispatch? = some t') : AtOnce t t' :=
  tick_atOnce acts (fun _ => (AtOnce.refl onCourse).update rfl rfl rfl rfl) trivial rfl

theorem reload?_atOnce (onCourse : t.OnCourse) (acts : t.reload? = some t') : AtOnce t t' :=
  tick_atOnce acts (fun _ => (AtOnce.refl onCourse).update rfl rfl rfl rfl) trivial rfl

theorem sweep?_atOnce (onCourse : t.OnCourse) (acts : t.sweep? = some t') : AtOnce t t' :=
  tick_atOnce acts (fun _ => (AtOnce.refl onCourse).update rfl rfl rfl rfl) trivial rfl

theorem consult?_atOnce (onCourse : t.OnCourse) (acts : t.consult? = some t') : AtOnce t t' := by
  unfold consult? at acts
  split at acts
  · obtain ⟨b, -, made⟩ := List.exists_of_findSome?_eq_some acts
    obtain ⟨asked, -, rfl⟩ := Option.map_eq_some_iff.mp made
    have read : AtOnce t { t with entriesRead := t.entriesRead ++
        ((t.service.nearSources (t.store.content t.now)).consult asked).entries } :=
      (AtOnce.refl onCourse).update rfl rfl rfl rfl
    exact read.apply trivial nofun
  · cases acts

theorem ask?_atOnce (onCourse : t.OnCourse) (acts : t.ask? = some t') : AtOnce t t' := by
  unfold ask? at acts
  split at acts
  · obtain ⟨b, -, made⟩ := List.exists_of_findSome?_eq_some acts
    split at made
    · cases made
    · obtain ⟨asked, -, rfl⟩ := Option.map_eq_some_iff.mp made
      exact send_atOnce onCourse _ _
  · cases acts

theorem poll?_atOnce (onCourse : t.OnCourse) (acts : t.poll? = some t') : AtOnce t t' := by
  obtain ⟨ticks, rfl⟩ := exists_of_tick acts
  have ticked : AtOnce t { t with pollTicks := some (ticks.next t.now) } :=
    (AtOnce.refl onCourse).update rfl rfl rfl rfl
  exact ticked.trans (send_atOnce ticked.onCourse none .forGlobal)

/-- The errand that goes on is due at this very instant: none is late. -/
theorem proceed?_atOnce (onCourse : t.OnCourse) (acts : t.proceed? = some t') : AtOnce t t' := by
  rw [proceed?, List.span_eq_takeWhile_dropWhile] at acts
  split at acts
  · rename_i before e after parts
    obtain ⟨rfl, rest⟩ := Prod.mk.inj parts
    cases acts
    have whole := t.errands.takeWhile_append_dropWhile (p := fun e => t.now.nanos < e.wake.nanos)
    have due := List.head?_dropWhile_not (fun e => decide (t.now.nanos < e.wake.nanos)) t.errands
    rw [rest] at whole due
    have member : e ∈ t.errands := whole ▸ List.mem_append_right _ (List.mem_cons_self ..)
    have others : AtOnce t { t with errands := t.errands.takeWhile (fun e => t.now.nanos < e.wake.nanos) ++ after } := by
      refine ⟨rfl, rfl, onCourse.subset rfl rfl ?_, [], nofun, rfl⟩
      nth_rewrite 2 [← whole]
      exact List.append_subset.mpr ⟨List.subset_append_left _ _,
        List.Subset.trans (List.subset_cons_self _ _) (List.subset_append_right _ _)⟩
    have now : e.wake = t.now := by
      have reached := of_decide_eq_false due
      have ahead := (onCourse e member).ahead
      exact Instant.ext (by omega)
    exact others.trans (proceed_atOnce others.onCourse (onCourse e member) now)
  · cases acts

/-- Where no errand goes on, each is due later. -/
theorem lt_wake_of_proceed? (rests : t.proceed? = none) : ∀ e ∈ t.errands, t.now.nanos < e.wake.nanos := by
  rw [proceed?, List.span_eq_takeWhile_dropWhile] at rests
  split at rests
  · cases rests
  · rename_i before parts
    intro e member
    exact of_decide_eq_true (List.dropWhile_eq_nil_iff.mp (Prod.mk.inj parts).2 e member)

theorem orElse_atOnce {first second : Option Timeline} (one : ∀ t', first = some t' → AtOnce t t')
    (other : ∀ t', second = some t' → AtOnce t t') (acts : (first <|> second) = some t') : AtOnce t t' := by
  cases first with
  | none => exact other t' acts
  | some _ => exact one t' acts

theorem act?_atOnce (onCourse : t.OnCourse) (acts : t.act? = some t') : AtOnce t t' := by
  unfold act? at acts
  split at acts
  · refine orElse_atOnce (fun _ => receive?_atOnce onCourse) (fun _ => ?_) acts
    refine orElse_atOnce (fun _ => proceed?_atOnce onCourse) fun _ => ?_
    refine orElse_atOnce (fun _ => complete?_atOnce onCourse) fun _ => ?_
    refine orElse_atOnce (fun _ => dispatch?_atOnce onCourse) fun _ => ?_
    refine orElse_atOnce (fun _ => reload?_atOnce onCourse) fun _ => ?_
    refine orElse_atOnce (fun _ => sweep?_atOnce onCourse) fun _ => ?_
    refine orElse_atOnce (fun _ => consult?_atOnce onCourse) fun _ => ?_
    exact orElse_atOnce (fun _ => ask?_atOnce onCourse) fun _ => poll?_atOnce onCourse
  · cases acts
    exact start_atOnce onCourse

/-- Time stands still as long as an errand can go on. -/
theorem lt_wake_of_act? (rests : t.act? = none) : ∀ e ∈ t.errands, t.now.nanos < e.wake.nanos := by
  apply lt_wake_of_proceed?
  unfold act? at rests
  split at rests
  · obtain ⟨-, others⟩ := (Option.orElse_eq_none _ _).mp rests
    exact ((Option.orElse_eq_none _ _).mp others).1
  · cases rests

theorem wake_mem_wakes (rests : t.act? = none) {e : Errand} (member : e ∈ t.errands) : e.wake ∈ t.wakes :=
  List.mem_filter.mpr ⟨List.mem_append_right _ (List.mem_map_of_mem member),
    decide_eq_true (lt_wake_of_act? rests e member)⟩

/-- The next instant at which something is due is one of those, and none of them is before it. -/
theorem nextWake?_spec {wake : Instant} (next : t.nextWake? = some wake) :
    t.now.nanos < wake.nanos ∧ ∀ other ∈ t.wakes, wake.nanos ≤ other.nanos := by
  obtain ⟨nanos, least, rfl⟩ := Option.map_eq_some_iff.mp next
  obtain ⟨member, least⟩ := List.min?_eq_some_iff.mp least
  obtain ⟨first, inside, rfl⟩ := List.mem_map.mp member
  refine ⟨of_decide_eq_true (List.mem_filter.mp inside).2, fun other member => ?_⟩
  exact least other.nanos (List.mem_map_of_mem member)

theorem wakes_eq_nil (never : t.nextWake? = none) : t.wakes = [] :=
  List.map_eq_nil_iff.mp (List.min?_eq_none_iff.mp (Option.map_eq_none_iff.mp never))

/-- However long time goes on, what the service becomes is a run of its events in clock order, and
every errand follows the course of its query. -/
theorem runUntil_leads {target : Instant} (fuel : Nat) (onCourse : t.OnCourse) (ahead : t.now.nanos ≤ target.nanos) :
    Leads t (runUntil target fuel t) := by
  induction fuel generalizing t with
  | zero => exact (AtOnce.refl onCourse).leads
  | succ fuel ih =>
    rw [runUntil]
    cases acts : t.act? with
    | some later =>
      have reached := act?_atOnce onCourse acts
      exact reached.leads.trans (ih reached.onCourse (reached.now ▸ ahead))
    | none =>
      cases next : t.nextWake? with
      | none =>
        refine .wait onCourse ahead fun e member => ?_
        have inside := wake_mem_wakes acts member
        rw [wakes_eq_nil next] at inside
        exact absurd inside List.not_mem_nil
      | some wake =>
        obtain ⟨later, least⟩ := nextWake?_spec next
        have each (e : Errand) (member : e ∈ t.errands) : wake.nanos ≤ e.wake.nanos :=
          least _ (wake_mem_wakes acts member)
        dsimp only
        split
        · rename_i inTime
          have waited : Leads t { t with now := wake } := .wait onCourse (Nat.le_of_lt later) each
          exact waited.trans (ih waited.onCourse inTime)
        · rename_i late
          exact .wait onCourse ahead fun e member => Nat.le_trans (by omega) (each e member)

/-- A timeline without errands under way is on course. -/
theorem onCourse_of_idle (idle : t.errands = []) : t.OnCourse := by
  rw [OnCourse, idle]
  exact fun _ member => absurd member List.not_mem_nil

/-- As time goes on, the service takes part in a run of events in clock order; every answer in
it is the end of a query reached by `Query.next`, and every errand under way stays on the course
of its query. -/
theorem sleep_leads (onCourse : t.OnCourse) (d : Duration) : Leads t (t.sleep d) :=
  runUntil_leads stepBound onCourse (Nat.le_add_right _ _)

theorem runDown_atOnce (fuel : Nat) (onCourse : t.OnCourse) : AtOnce t (runDown fuel t) := by
  induction fuel generalizing t with
  | zero => exact .refl onCourse
  | succ fuel ih =>
    rw [runDown]
    split
    · cases acts : t.act? with
      | none => exact .refl onCourse
      | some later =>
        have reached := act?_atOnce onCourse acts
        exact reached.trans (ih reached.onCourse)
    · exact .refl onCourse

/-- A worker that is asked to stop does no more than it would at this instant, and no time passes. -/
theorem stop_atOnce (onCourse : t.OnCourse) : AtOnce t t.stop := by
  have asked : AtOnce t (t.apply .requestStop) := (AtOnce.refl onCourse).apply trivial nofun
  exact asked.trans (runDown_atOnce stepBound asked.onCourse)

end Timeline

end AdmissionCache
