import AdmissionCache.Proofs.Overrides.Authority
import AdmissionCache.Proofs.Service.Finishing
import AdmissionCache.Proofs.Service.Revisions
import Mathlib.Data.List.Permutation

namespace AdmissionCache

def Resolution.Delivers (r : Resolution) : Prop := ∃ config, r = .config config

namespace Service

/-- Nothing that is known about the key when it is fetched at `d` is used again without a
delivery: if its batch finds it unchanged it reads as after a failure, and a configuration that
is in use later was delivered since. -/
structure StaysGone (s : Service) (key : ProjectKey) (d : Instant) : Prop where
  asFailed : ∀ later now b resolutions revision t, ClockOrder (.dispatch d :: later) now → now.nanos ≤ t.nanos →
    (s.run (.dispatch d :: later)).status = .running → b ∈ (s.run (.dispatch d :: later)).batches →
    .sent b.id d b.keys ∈ s.entries (.dispatch d) → b.progress = .resolved resolutions →
    (key, .unchanged revision) ∈ resolutions →
    ((s.run (.dispatch d :: later)).step (.complete b.id now)).cache.read key t =
      ((s.run (.dispatch d :: later)).cache.fail key).read key t
  delivered : ∀ later purpose t s' decision config, ClockOrder (.dispatch d :: later) t →
    (s.run (.dispatch d :: later)).look purpose key t = .ok (s', decision) → decision.config? = some config →
    ∃ e ∈ s.chronicle (.dispatch d :: later), (e.delivery? key).isSome = true

/-- A configuration without a revision is cached for the key, no override stands before it, and
what has just been delivered may be used. -/
def Restorable (s : Service) (key : ProjectKey) (d : Instant) : Prop :=
  (∃ config f, s.cache.knows key = .loaded config f ∧ config.revision? = none) ∧ s.override? key = none ∧
    s.cache.policy.Usable d d

section Guard
variable {s s' : Service} {e : Event} {new : List Entry} {key : ProjectKey}

/-- As long as a key is overridden, a batch finds configurations for it. -/
theorem BatchStep.finds_overrides {b b' : Batch} (step : BatchStep s b b') (held : (s.override? key).isSome = true)
    (only : b.OnlyFinds key Resolution.Delivers) :
    b'.OnlyFinds key Resolution.Delivers := by
  cases step with
  | idle => exact only
  | @consulted content asked left findings progress =>
    refine only.consulted progress fun own => ?_
    obtain ⟨config, overridden⟩ := Option.isSome_iff_exists.mp held
    exact ⟨_, consult_override content (own ▸ overridden), config, rfl⟩
  | answered progress => exact only.answered progress _
  | lost => exact ⟨nofun, List.not_mem_nil⟩

/-- An override stays loaded until it is withdrawn. -/
theorem Move.override_kept (move : Move s e new s') (held : (s.override? key).isSome = true) :
    (s'.override? key).isSome = true ∨ .withdrawn key ∈ new := by
  unfold override? at held ⊢
  cases move with
  | dispatched _ _ all =>
    obtain ⟨_, _, after⟩ := all.rest
    rw [after]
    exact Or.inl held
  | @applied _ now b resolutions _ _ _ =>
    obtain ⟨_, _, _, _, after⟩ := applyAll_eq (s.dropBatch b.id) b.stamp now resolutions
    rw [after]
    exact Or.inl held
  | @released _ _ b _ _ _ =>
    obtain ⟨_, _, after⟩ := releaseAll_eq (s.dropBatch b.id) b.keys
    rw [after]
    exact Or.inl held
  | @reloaded directory now previous next changes samples _ loaded reloaded =>
    rw [loaded] at held
    cases present : next.get? key with
    | some config =>
      left
      change (next.get? key).isSome = true
      rw [present]
      rfl
    | none =>
      right
      obtain ⟨_, rfl⟩ := Snapshot.reload_eq_ok reloaded
      have removed := Snapshot.mem_removed_iff.mpr ⟨held, present⟩
      exact List.mem_append_right _ (List.mem_map_of_mem removed)
  | _ => exact Or.inl held

end Guard

section Gone
variable {log new : List Entry} {s s' : Service} {e : Event} {key : ProjectKey} {d : Instant}

/-- What is known about the key may not be used from `d` on, and no batch will renew it. -/
structure Lapsed (s : Service) (key : ProjectKey) (d : Instant) : Prop where
  expired : ∀ config f, s.cache.knows key = .loaded config f → s.cache.policy.classify f d = .ok .expired
  without : ∀ b ∈ s.batches, key ∈ b.keys → b.SentWithout key
  guarded : ∀ config f, s.cache.knows key = .loaded config f → config.revision? = none →
    s.cache.policy.Usable d d → (s.override? key).isSome = true ∧
      ∀ b ∈ s.batches, key ∈ b.keys → b.OnlyFinds key Resolution.Delivers

/-- A configuration was delivered for the key, and all that is known was learned since `d`. -/
def Served (log : List Entry) (s : Service) (key : ProjectKey) (d : Instant) : Prop :=
  (∃ e ∈ log, (e.delivery? key).isSome = true) ∧
    ∀ f, (s.cache.knows key).learnedAt? = some f → d.nanos ≤ f.nanos

theorem Lapsed.knownRevision (lapsed : s.Lapsed key d) {now : Instant} (later : d.nanos ≤ now.nanos) :
    s.cache.knownRevision key now = .ok none := by
  have unusable := Cache.peek_eq_none.mpr fun config f known =>
    Policy.expired_later (lapsed.expired config f known) later
  rw [Cache.knownRevision, unusable]
  rfl

/-- A batch that calls the key unchanged renews something only where nothing may ever be used. -/
theorem Lapsed.renewed {b : Batch} {revision : Option Revision} {learned : Knowledge} (lapsed : s.Lapsed key d)
    (member : b ∈ s.batches) (own : key ∈ b.keys) (found : (key, .unchanged revision) ∈ b.found)
    (settled : (s.cache.knows key).settle b.stamp ((Resolution.unchanged revision).lesson b.stamp) = some learned) :
    s.cache.policy.Bounded ∧ ¬ s.cache.policy.Usable d d ∧
      ∃ config f, s.cache.knows key = .loaded config f ∧ learned = .loaded config b.stamp := by
  obtain ⟨config, f, known, unrevised, _, rfl⟩ := Knowledge.settle_unchanged settled
  rw [(lapsed.without b member own).found revision found] at unrevised
  refine ⟨(Policy.classify_eq_expired.mp (lapsed.expired config f known)).1, fun usable => ?_,
    config, f, known, rfl⟩
  obtain ⟨_, only⟩ := lapsed.guarded config f known unrevised usable
  obtain ⟨_, differ⟩ := (only b member own).1 _ found
  cases differ

theorem Lapsed.without_move (lapsed : s.Lapsed key d) (move : Move s e new s')
    (ordered : ∀ now, e.time? = some now → d.nanos ≤ now.nanos) :
    ∀ b ∈ s'.batches, key ∈ b.keys → b.SentWithout key := by
  intro b' member own
  rcases move.batch_origin member with ⟨b, before, step⟩ | ⟨_, asked, rfl, told, progress⟩
  · exact step.sentWithout (lapsed.without b before (step.same.2.2 ▸ own))
  · exact .of_asked told progress (lapsed.knownRevision (ordered _ rfl))

theorem Lapsed.move (lapsed : s.Lapsed key d) (orderly : s.Orderly) (move : Move s e new s')
    (stamps : ∀ b ∈ s.batches, key ∈ b.keys → d.nanos ≤ b.stamp.nanos)
    (ordered : ∀ now, e.time? = some now → d.nanos ≤ now.nanos) : s'.Lapsed key d ∨ Served new s' key d := by
  have without := lapsed.without_move move ordered
  cases move.learned orderly key with
  | same kept quiet =>
    left
    refine ⟨?_, without, ?_⟩
    · rw [kept, move.policy]
      exact lapsed.expired
    · rw [kept, move.policy]
      intro config f known unrevised usable
      obtain ⟨held, only⟩ := lapsed.guarded config f known unrevised usable
      refine ⟨(move.override_kept held).resolve_right fun withdrawn => ?_, fun b' member own => ?_⟩
      · have changed : (Entry.withdrawn key).changes key = true := decide_eq_true rfl
        rw [quiet _ withdrawn] at changed
        cases changed
      · rcases move.batch_origin member with ⟨b, before, step⟩ | ⟨_, _, _, _, progress⟩
        · exact step.finds_overrides held (only b before (step.same.2.2 ▸ own))
        · exact .of_unstarted progress
  | forgotten nothing _ =>
    left
    refine ⟨?_, without, ?_⟩ <;> rw [nothing] <;> exact nofun
  | @applied b r learned before after member found settled knows _ _ _ =>
    have own := orderly.mem_keys_of_found member found
    cases r with
    | config c =>
      right
      refine ⟨⟨_, List.mem_append_right _ List.mem_cons_self, by rw [Entry.delivery?, if_pos rfl]; rfl⟩, ?_⟩
      rw [knows, lesson_learnedAt (Knowledge.settle_eq_some settled).1]
      rintro f same
      cases same
      exact stamps b member own
    | unchanged revision =>
      obtain ⟨bounded, unusable, config, _, _, rfl⟩ := lapsed.renewed member own found settled
      left
      refine ⟨fun config' f' known => ?_, without, fun _ _ _ _ usable => ?_⟩
      · rw [move.policy]
        exact Policy.expired_of_unusable bounded unusable f' d
      · rw [move.policy] at usable
        exact absurd usable unusable
    | notFound =>
      left
      cases (Knowledge.settle_eq_some settled).1
      refine ⟨?_, without, ?_⟩ <;> rw [knows] <;> exact nofun
    | pending =>
      rw [Knowledge.settle_pending] at settled
      cases settled
    | failed =>
      rw [Knowledge.settle_failed] at settled
      cases settled
  | @overridden config now before after knows _ _ =>
    right
    have here : .overridden key config now ∈ before ++ .overridden key config now :: after :=
      List.mem_append_right _ List.mem_cons_self
    refine ⟨⟨_, here, by rw [Entry.delivery?, if_pos rfl]; rfl⟩, ?_⟩
    rw [knows]
    rintro f same
    cases same
    exact ordered now (move.overridden_time here)

theorem Served.move (served : Served log s key d) (orderly : s.Orderly) (move : Move s e new s')
    (stamps : ∀ b ∈ s.batches, key ∈ b.keys → d.nanos ≤ b.stamp.nanos)
    (ordered : ∀ now, e.time? = some now → d.nanos ≤ now.nanos) : Served (log ++ new) s' key d := by
  obtain ⟨⟨delivery, member, delivered⟩, since⟩ := served
  refine ⟨⟨delivery, List.mem_append_left _ member, delivered⟩, fun f learned => ?_⟩
  cases move.learned orderly key with
  | same kept _ =>
    rw [kept] at learned
    exact since f learned
  | forgotten nothing _ =>
    rw [nothing] at learned
    cases learned
  | @applied b r _ _ _ member found settled knows _ _ _ =>
    rw [knows, lesson_learnedAt (Knowledge.settle_eq_some settled).1] at learned
    cases learned
    exact stamps b member (orderly.mem_keys_of_found member found)
  | overridden knows _ _ =>
    rw [knows] at learned
    cases learned
    exact ordered f (move.overridden_time (List.mem_append_right _ List.mem_cons_self))

/-- What holds of a run from the dispatch of the key on, as long as and after nothing may be used. -/
structure Withheld (log : List Entry) (s : Service) (key : ProjectKey) (d : Instant) : Prop where
  orderly : s.Orderly
  stamps : ∀ b ∈ s.batches, key ∈ b.keys → d.nanos ≤ b.stamp.nanos
  known : s.Lapsed key d ∨ Served log s key d

theorem Withheld.move (withheld : Withheld log s key d) (move : Move s e new s')
    (ordered : ∀ now, e.time? = some now → d.nanos ≤ now.nanos) : Withheld (log ++ new) s' key d := by
  obtain ⟨orderly, stamps, known⟩ := withheld
  refine ⟨orderly.move move, fun b' member own => ?_, ?_⟩
  · rcases move.batch_origin member with ⟨b, before, step⟩ | ⟨_, _, rfl, _, _⟩
    · obtain ⟨_, stamp, keys⟩ := step.same
      exact stamp ▸ stamps b before (keys ▸ own)
    · exact ordered _ rfl
  · rcases known with lapsed | served
    · refine (lapsed.move orderly move stamps ordered).imp_right fun served => ?_
      obtain ⟨⟨delivery, member, delivered⟩, since⟩ := served
      exact ⟨⟨delivery, List.mem_append_right _ member, delivered⟩, since⟩
    · exact Or.inr (served.move orderly move stamps ordered)

theorem run_withheld {events : List Event} (withheld : Withheld log s key d)
    (ordered : ∀ e ∈ events, ∀ now, e.time? = some now → d.nanos ≤ now.nanos) :
    Withheld (log ++ s.chronicle events) (s.run events) key d := by
  have next : ∀ log s, ∀ e ∈ events, Withheld log s key d → Withheld (log ++ s.entries e) (s.step e) key d :=
    fun _ s e member withheld => withheld.move (s.step_move e) (ordered e member)
  exact run_induction next withheld

section Dispatch
variable {id : Nat} {keys : List ProjectKey}

/-- A batch with the key that is there after the dispatch was sent by it. -/
theorem fresh_of_sent (owned : s.Owned) (sent : .sent id d keys ∈ s.entries (.dispatch d)) (own : key ∈ keys)
    (unusable : s.cache.peek key d = .ok none) {b : Batch} (member : b ∈ (s.step (.dispatch d)).batches)
    (inside : key ∈ b.keys) :
    b.stamp = d ∧ b.SentWithout key ∧ ∃ asked, s.askFor d b.keys = .ok asked ∧ b.progress = .open asked {} := by
  have moved := s.step_move (.dispatch d)
  obtain ⟨running, queued, _⟩ := moved.sending sent
  rcases moved.batch_origin member with ⟨old, before, step⟩ | ⟨_, asked, now, told, progress⟩
  · exact absurd (step.same.2.2 ▸ inside) (owned.not_mem_keys_of_queued running (queued key own) before)
  · cases now
    refine ⟨rfl, .of_asked told progress ?_, asked, told, progress⟩
    rw [Cache.knownRevision, unusable]
    rfl

theorem withheld_of_not_restorable (owned : s.Owned) (sent : .sent id d keys ∈ s.entries (.dispatch d))
    (own : key ∈ keys) (unusable : s.cache.peek key d = .ok none) (lost : ¬ s.Restorable key d) :
    Withheld [] (s.step (.dispatch d)) key d := by
  have sending := (s.step_move (.dispatch d)).sending sent
  have fresh {b : Batch} (member : b ∈ (s.step (.dispatch d)).batches) (inside : key ∈ b.keys) :=
    fresh_of_sent owned sent own unusable member inside
  refine ⟨owned.orderly.move (s.step_move _), fun b member inside => ?_, Or.inl ⟨?_, ?_, ?_⟩⟩
  · exact Nat.le_of_eq (congrArg Instant.nanos (fresh member inside).1.symm)
  · rw [sending.cache]
    exact Cache.peek_eq_none.mp unusable
  · exact fun b member inside => (fresh member inside).2.1
  · rw [sending.cache, override?, sending.overrides]
    intro config f known unrevised usable
    refine ⟨?_, fun b member inside => ?_⟩
    · rw [Option.isSome_iff_ne_none]
      exact fun absent => lost ⟨⟨config, f, known, unrevised⟩, absent, usable⟩
    · obtain ⟨_, _, asked, _, progress⟩ := fresh member inside
      exact .of_unstarted progress

/-- What is called unchanged without a revision reads as it did. -/
theorem Withheld.read_unchanged {b : Batch} {t : Instant} (withheld : Withheld log s key d) (member : b ∈ s.batches)
    (stamp : b.stamp = d) (found : (key, .unchanged none) ∈ b.found) :
    ((s.cache.knows key).after d (.unchanged none)).read s.cache.policy t =
      (s.cache.knows key).read s.cache.policy t := by
  have own := withheld.orderly.mem_keys_of_found member found
  unfold Knowledge.after
  cases settled : (s.cache.knows key).settle d ((Resolution.unchanged none).lesson d) with
  | none => rfl
  | some learned =>
    rw [Option.getD_some]
    rcases withheld.known with lapsed | ⟨_, since⟩
    · rw [← stamp] at settled
      obtain ⟨bounded, unusable, config, f, known, rfl⟩ := lapsed.renewed member own found settled
      have expired (fetchedAt : Instant) : s.cache.policy.classify fetchedAt t = .ok .expired :=
        Policy.expired_of_unusable bounded unusable fetchedAt t
      rw [known, Knowledge.read, Knowledge.read, expired, expired]
    · obtain ⟨config, f, known, _, notLater, rfl⟩ := Knowledge.settle_unchanged settled
      have same : f = d := Instant.ext (Nat.le_antisymm notLater (since f (by rw [known]; rfl)))
      rw [known, same]

/-- The batch that was sent carries no revision as long as it lasts. -/
theorem sent_without_of_lasting (owned : s.Owned) (unusable : s.cache.peek key d = .ok none) {later : List Event}
    {b : Batch} (member : b ∈ (s.run (.dispatch d :: later)).batches)
    (sent : .sent b.id d b.keys ∈ s.entries (.dispatch d)) (own : key ∈ b.keys) :
    b.stamp = d ∧ b.SentWithout key := by
  have moved := s.step_move (.dispatch d)
  obtain ⟨sentBatch, present, _, number, _⟩ := (moved.sending sent).batch
  have old : b.id < (s.step (.dispatch d)).dispatched := number ▸ (owned.orderly.move moved).used sentBatch present
  obtain ⟨origin, before, _, stamp, keys, without⟩ := run_batch_origin (s := s.step (.dispatch d)) member old
  obtain ⟨stamped, bare, _⟩ := fresh_of_sent owned sent own unusable before (keys ▸ own)
  exact ⟨stamp.symm.trans stamped, without key bare⟩

theorem stays_gone_of_not_restorable (owned : s.Owned) (sent : .sent id d keys ∈ s.entries (.dispatch d))
    (own : key ∈ keys) (unusable : s.cache.peek key d = .ok none) (lost : ¬ s.Restorable key d) :
    s.StaysGone key d := by
  have onward {later : List Event} {t : Instant} (order : ClockOrder (.dispatch d :: later) t) :
      Withheld ((s.step (.dispatch d)).chronicle later) (s.run (.dispatch d :: later)) key d := by
    have withheld := run_withheld (withheld_of_not_restorable owned sent own unusable lost) (order.since rfl)
    exact withheld
  constructor
  · intro later now b resolutions revision t order after running member sentHere progress resolved
    have withheld := onward order
    have orderly := withheld.orderly
    have found : (key, .unchanged revision) ∈ b.found := by
      rw [Batch.found, progress]
      exact resolved
    obtain ⟨stamp, without⟩ :=
      sent_without_of_lasting owned unusable member sentHere (orderly.mem_keys_of_found member found)
    obtain rfl := without.found revision found
    obtain ⟨knows, flag⟩ := complete_own orderly running member progress resolved now
    rw [Cache.read_eq, Cache.read_eq, knows, flag (by rintro ⟨⟩), (Service.step_move _ _).policy, Cache.knows_fail,
      Cache.inFlight_fail, if_pos rfl, Cache.policy_fail, stamp]
    exact congrArg (Except.map _) (withheld.read_unchanged member stamp found)
  · intro later purpose t s' decision config order looked used
    have withheld := onward order
    obtain ⟨wants, read⟩ := look_read looked
    obtain ⟨f, known, usable⟩ := Knowledge.usable_of_read read used
    rcases withheld.known with lapsed | ⟨⟨delivery, member, delivered⟩, _⟩
    · have before := Policy.usable_iff.mp (usable.earlier (order.le rfl))
      rw [lapsed.expired config f known] at before
      rcases before with differ | differ <;> cases differ
    · exact ⟨delivery, List.mem_append_right _ member, delivered⟩

/-- The authority can call a key unchanged that no other source knows. -/
theorem exists_told_unchanged {b : Batch} {asked : List AskedKey} (orderly : s.Orderly) (member : b ∈ s.batches)
    (progress : b.progress = .open asked {}) (bare : (key, none) ∈ asked) (absent : s.override? key = none) :
    ∃ events resolutions, Finished s b events resolutions ∧ (key, .unchanged none) ∈ resolutions := by
  let silence : ProjectKey → StoreContent := fun _ _ => .ok none
  let near : ProjectKey → NearSources := fun k => s.nearSources (silence k)
  let authority : ConfigsRequest → Except QueryFault ConfigsResponse := fun _ => .ok { unchanged := [key] }
  have silent : (near key).Silent (key, none) := by
    refine ⟨absent, fun store r _ said => ?_⟩
    cases said with
    | unchanged differ _ => cases differ
    | config _ held =>
      obtain ⟨_, _, differ, _⟩ := held
      cases differ
  have distinct : (asked.map (·.1)).Nodup := by
    have accounted := orderly.accounted b member
    rw [Batch.accounted_open progress] at accounted
    exact accounted.nodup_iff.mpr (orderly.distinct b member)
  obtain ⟨events, finished⟩ :=
    exists_conducted (orderly.batch?_eq member) progress (List.ne_nil_of_mem bare) silence authority
  refine ⟨events, _, finished, ?_⟩
  have resolved := (resolveBatch_byPrecedence near authority distinct).precedence (key, none) bare
  exact (resolved _).mpr (.authority silent (.unchanged rfl (List.mem_singleton_self key)))

theorem not_stays_gone_of_restorable (owned : s.Owned) (sent : .sent id d keys ∈ s.entries (.dispatch d))
    (own : key ∈ keys) (unusable : s.cache.peek key d = .ok none) (restorable : s.Restorable key d) :
    ¬ s.StaysGone key d := by
  intro gone
  obtain ⟨⟨config, f, known, unrevised⟩, absent, usable⟩ := restorable
  have moved := s.step_move (.dispatch d)
  have sending := moved.sending sent
  have orderly := owned.orderly.move moved
  obtain ⟨bounded, age⟩ := Policy.classify_eq_expired.mp (Cache.peek_eq_none.mp unusable config f known)
  have earlier : f.nanos ≤ d.nanos := by
    rcases usable with fresh | ⟨_, stale⟩ <;> omega
  obtain ⟨b, member, asked, _, stamp, _, told, progress⟩ := sending.batch
  have bare : (key, none) ∈ asked := mem_askFor told (by rw [Cache.knownRevision, unusable]; rfl) own
  rw [override?, ← sending.overrides] at absent
  rw [← sending.cache] at known usable
  obtain ⟨_, _, finished, resolved⟩ := exists_told_unchanged orderly member progress bare absent
  have learned : ((s.step (.dispatch d)).cache.knows key).after b.stamp (.unchanged none) = .loaded config d := by
    rw [known, stamp, ← unrevised]
    exact Knowledge.after_unchanged config earlier
  obtain ⟨later, s', decision, times, looked, used, only⟩ :=
    finished.taught orderly (sending.survived bounded) resolved learned usable
  have order : ClockOrder (.dispatch d :: later) d := by
    refine clockOrder_of_same (List.forall_mem_cons.mpr ⟨fun t time => ?_, times⟩)
    exact (Option.some.inj time).symm
  obtain ⟨e, inside, delivered⟩ := gone.delivered later .lookup d s' decision config order looked used
  obtain ⟨_, delivery⟩ := Option.isSome_iff_exists.mp delivered
  rcases List.mem_append.mp inside with first | rest
  · obtain ⟨_, _, rfl⟩ := List.mem_map.mp first
    cases delivery
  · rcases only e rest with ⟨_, _, _, _, rfl⟩ | ⟨_, _, _, _, rfl, unchanged⟩
    · cases delivery
    · rcases Entry.delivery_cases delivery with differ | ⟨_, same⟩
      · cases differ
      · cases same
        cases unchanged rfl

end Dispatch

end Gone

/-- In every run, a key that is fetched while nothing of it may be used is fetched without a
revision; and what was known about it stays gone if and only if no configuration is cached for
it that has no revision, leaving out overridden keys and policies by which nothing may be used. -/
theorem expired_stays_gone_iff (policy : Policy) (settings : ServiceSettings) (withOverrides : Bool)
    (events : List Event) (key : ProjectKey) (d : Instant) (id : Nat) (keys : List ProjectKey)
    (sent : .sent id d keys ∈ ((start policy settings withOverrides).run events).entries (.dispatch d))
    (own : key ∈ keys)
    (unusable : ((start policy settings withOverrides).run events).cache.peek key d = .ok none) :
    (∀ b ∈ (((start policy settings withOverrides).run events).step (.dispatch d)).batches, key ∈ b.keys →
      b.SentWithout key) ∧
    (((start policy settings withOverrides).run events).StaysGone key d ↔
      ¬ ((start policy settings withOverrides).run events).Restorable key d) := by
  have owned := (start_owned policy settings withOverrides).run events
  refine ⟨fun b member inside => ?_, fun gone restorable => ?_, fun lost => ?_⟩
  · exact (fresh_of_sent owned sent own unusable member inside).2.1
  · exact not_stays_gone_of_restorable owned sent own unusable restorable gone
  · exact stays_gone_of_not_restorable owned sent own unusable lost

/-- A configuration that has a revision is fetched again when it has expired. -/
theorem revised_configuration_stays_gone :
    let s := (start ⟨.ofSecs 1, .zero, .ofSecs 10⟩ { batchSize := 10, queryTimeout := .ofSecs 30 } false).run
      [.look .lookup "a" .origin, .advance 0, .receive, .dispatch .origin, .consult 0 fun _ => .ok none,
        .answer 0 (.ok { configs := KeyMap.ofList [("a", some (.object [("rev", .string "1")]))] }),
        .complete 0 (.ofMillis 100), .look .lookup "a" (.ofMillis 2000), .advance 0, .receive]
    s.cache.knows "a" = .loaded ⟨[("rev", .string "1")]⟩ .origin ∧ s.StaysGone "a" (.ofMillis 2100) := by
  intro s
  have sent : s.entries (.dispatch (.ofMillis 2100)) = [.sent 1 (.ofMillis 2100) ["a"]] := by unfold s; cbv
  have unusable : s.cache.peek "a" (.ofMillis 2100) = .ok none := by unfold s; cbv
  have known : s.cache.knows "a" = .loaded ⟨[("rev", .string "1")]⟩ .origin := by unfold s; cbv
  have here : .sent 1 (.ofMillis 2100) ["a"] ∈ s.entries (.dispatch (.ofMillis 2100)) := by
    rw [sent]
    exact List.mem_singleton_self _
  refine ⟨known, (expired_stays_gone_iff _ _ _ _ "a" _ 1 ["a"] here (List.mem_singleton_self _) unusable).2.mpr ?_⟩
  rintro ⟨⟨config, f, cached, unrevised⟩, _⟩
  rw [known] at cached
  cases cached
  cases unrevised

/-- A configuration that has no revision is used again when it has expired, because the batch
that was sent without one is told that the key is unchanged. -/
theorem unrevised_configuration_comes_back :
    let s := (start ⟨.ofSecs 1, .zero, .ofSecs 10⟩ { batchSize := 10, queryTimeout := .ofSecs 30 } false).run
      [.look .lookup "a" .origin, .advance 0, .receive, .dispatch .origin, .consult 0 fun _ => .ok none,
        .answer 0 (.ok { configs := KeyMap.ofList [("a", some (.object [("disabled", .bool true)]))] }),
        .complete 0 (.ofMillis 100), .look .lookup "a" (.ofMillis 2000), .advance 0, .receive]
    s.entries (.dispatch (.ofMillis 2100)) = [.sent 1 (.ofMillis 2100) ["a"]] ∧
      s.cache.peek "a" (.ofMillis 2100) = .ok none ∧ ¬ s.StaysGone "a" (.ofMillis 2100) := by
  intro s
  have sent : s.entries (.dispatch (.ofMillis 2100)) = [.sent 1 (.ofMillis 2100) ["a"]] := by unfold s; cbv
  have unusable : s.cache.peek "a" (.ofMillis 2100) = .ok none := by unfold s; cbv
  have known : s.cache.knows "a" = .loaded ⟨[("disabled", .bool true)]⟩ .origin := by unfold s; cbv
  have here : .sent 1 (.ofMillis 2100) ["a"] ∈ s.entries (.dispatch (.ofMillis 2100)) := by
    rw [sent]
    exact List.mem_singleton_self _
  have owned : s.Owned := (start_owned ..).run _
  refine ⟨sent, unusable, not_stays_gone_of_restorable owned here (List.mem_singleton_self _) unusable ?_⟩
  have absent : s.override? "a" = none := by unfold s; cbv
  exact ⟨⟨_, _, known, rfl⟩, absent, Or.inl (by decide +kernel)⟩

end Service

end AdmissionCache
