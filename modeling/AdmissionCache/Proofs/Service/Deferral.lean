import AdmissionCache.Proofs.Service.Finishing
import Mathlib.Data.List.DropRight
import Mathlib.Data.List.Pairwise
import Mathlib.Data.List.Permutation

namespace AdmissionCache

/-- What an applied batch does with a key of its own: it puts the key off, or the fetch of the
key is over. -/
inductive Turn
  | putOff (stamp : Instant)
  | ended
  deriving DecidableEq, Repr

/-- The dispatch of the batch that puts the key off, if one does. -/
def Turn.stamp? : Turn → Option Instant
  | .putOff stamp => some stamp
  | .ended => none

/-- The dispatch of the first of those batches that have put the key off in a row up to now. -/
def streakStart? (turns : List Turn) : Option Instant :=
  (turns.rtakeWhile (·.stamp?.isSome)).head?.bind Turn.stamp?

/-- A further batch that puts the key off goes on with a row or begins one; any other ends it. -/
theorem streakStart?_concat (turns : List Turn) (t : Turn) :
    streakStart? (turns ++ [t]) = t.stamp?.map ((streakStart? turns).getD ·) := by
  rw [streakStart?, streakStart?, List.rtakeWhile_concat]
  cases t with
  | ended => rfl
  | putOff stamp =>
    have goesOn : (Turn.putOff stamp).stamp?.isSome = true := rfl
    rw [if_pos goesOn, List.head?_append]
    cases first : (turns.rtakeWhile (·.stamp?.isSome)).head? with
    | none => rfl
    | some earlier =>
      have off := List.mem_rtakeWhile_imp (List.mem_of_head? first)
      obtain ⟨start, begun⟩ := Option.isSome_iff_exists.mp off
      rw [Option.some_or, Option.bind_some, begun]
      rfl

/-- The turn of the key that the entry notes. A pending key is put off if it is in the queue
again. -/
def Entry.turn? (key : ProjectKey) (queued : KeySet) : Entry → Option Turn
  | .applied _ stamp k r _ =>
    if k = key then some (if r.isPending ∧ key ∈ queued.keys then .putOff stamp else .ended) else none
  | .released _ k => if k = key then some .ended else none
  | _ => none

theorem Entry.turn?_applied (batch : Nat) (stamp : Instant) (key : ProjectKey) (r : Resolution) (taken : Bool)
    (queued : KeySet) : (Entry.applied batch stamp key r taken).turn? key queued =
      some (if r.isPending ∧ key ∈ queued.keys then .putOff stamp else .ended) := if_pos rfl

theorem Entry.turn?_released (batch : Nat) (key : ProjectKey) (queued : KeySet) :
    (Entry.released batch key).turn? key queued = some .ended := if_pos rfl

theorem Entry.turn?_eq_none {e : Entry} {key : ProjectKey} (queued : KeySet) (untouched : e.touches key = false) :
    e.turn? key queued = none := by
  unfold turn?
  split
  · exact if_neg (of_decide_eq_false untouched)
  · exact if_neg (of_decide_eq_false untouched)
  · rfl

/-- The turns of a key that some entries note, with the queue as it is after them. -/
def turnsOf (key : ProjectKey) (queued : KeySet) (log : List Entry) : List Turn :=
  log.filterMap (Entry.turn? key queued)

theorem turnsOf_eq_nil {key : ProjectKey} {log : List Entry} (queued : KeySet)
    (untouched : ∀ e ∈ log, e.touches key = false) : turnsOf key queued log = [] :=
  List.filterMap_eq_nil_iff.mpr fun e member => Entry.turn?_eq_none queued (untouched e member)

theorem turnsOf_middle {key : ProjectKey} {before after : List Entry} {e : Entry} {t : Turn} (queued : KeySet)
    (silentBefore : ∀ e ∈ before, e.touches key = false) (silentAfter : ∀ e ∈ after, e.touches key = false)
    (turn : e.turn? key queued = some t) : turnsOf key queued (before ++ e :: after) = [t] := by
  have first := turnsOf_eq_nil queued silentBefore
  have last := turnsOf_eq_nil queued silentAfter
  rw [turnsOf] at first last ⊢
  rw [List.filterMap_append, first, List.filterMap_cons_some turn, last, List.nil_append]

namespace Service

/-- The turns of a key in a run. -/
def turns (s : Service) (key : ProjectKey) : List Event → List Turn
  | [] => []
  | e :: rest => turnsOf key (s.step e).queued (s.entries e) ++ (s.step e).turns key rest

/-- The keys that the worker has in its queue or with batches. -/
def custody (s : Service) : List ProjectKey := s.queued.keys ++ s.batches.flatMap (·.keys)

/-- The key is put off, and has been pending since that instant. -/
structure Waits (s : Service) (key : ProjectKey) (since : Instant) : Prop where
  queued : key ∈ s.queued.keys
  marked : s.cache.inFlight key = true
  counted : s.pendingSince.get? key = some since

/-- The fetch of the key is over. -/
structure LetGo (s : Service) (key : ProjectKey) : Prop where
  unqueued : key ∉ s.queued.keys
  unmarked : s.cache.inFlight key = false
  uncounted : s.pendingSince.get? key = none

section Batchwise
variable {s : Service} (stamp now : Instant) {resolutions : List Resolved} {key : ProjectKey}

theorem get?_apply_of_ne {r : Resolved} (differ : key ≠ r.1) :
    (s.apply stamp now r).pendingSince.get? key = s.pendingSince.get? key ∧
      (key ∈ (s.apply stamp now r).queued.keys ↔ key ∈ s.queued.keys) := by
  rcases s.apply_deferral stamp now r with ⟨_, queued, since, _⟩ | ⟨_, queued, since, _⟩
  · rw [queued, since, KeyMap.get?_insert, if_neg differ]
    exact ⟨rfl, (KeyMap.mem_keys_insert ..).trans (or_iff_right differ)⟩
  · rw [queued, since, KeyMap.get?_erase, if_neg differ]
    exact ⟨rfl, Iff.rfl⟩

theorem applyAll_absent (absent : key ∉ resolutions.map (·.1)) :
    (s.applyAll stamp now resolutions).pendingSince.get? key = s.pendingSince.get? key ∧
      (key ∈ (s.applyAll stamp now resolutions).queued.keys ↔ key ∈ s.queued.keys) := by
  induction resolutions generalizing s with
  | nil => exact ⟨rfl, Iff.rfl⟩
  | cons r rest ih =>
    rw [List.map_cons, List.mem_cons, not_or] at absent
    obtain ⟨since, queued⟩ := get?_apply_of_ne (s := s) stamp now absent.1
    obtain ⟨since', queued'⟩ := ih (s := s.apply stamp now r) absent.2
    exact ⟨since'.trans since, queued'.trans queued⟩

/-- The batch puts a key of its own off or ends its fetch, whatever it does with the others. -/
theorem applyAll_deferral {r : Resolution} (distinct : (resolutions.map (·.1)).Nodup)
    (inside : (key, r) ∈ resolutions) :
    (s.PutsOff stamp now (key, r) ∧ key ∈ (s.applyAll stamp now resolutions).queued.keys ∧
      (s.applyAll stamp now resolutions).pendingSince.get? key = some ((s.pendingSince.get? key).getD stamp) ∧
      (s.applyAll stamp now resolutions).cache.inFlight key = s.cache.inFlight key) ∨
    (¬ s.PutsOff stamp now (key, r) ∧
      (key ∈ (s.applyAll stamp now resolutions).queued.keys ↔ key ∈ s.queued.keys) ∧
      (s.applyAll stamp now resolutions).pendingSince.get? key = none ∧
      (s.applyAll stamp now resolutions).cache.inFlight key = false) := by
  induction resolutions generalizing s with
  | nil => cases inside
  | cons head rest ih =>
    rw [List.map_cons, List.nodup_cons] at distinct
    rw [applyAll_cons]
    rcases List.mem_cons.mp inside with rfl | later
    · obtain ⟨since, queued⟩ := applyAll_absent (s := s.apply stamp now (key, r)) stamp now distinct.1
      obtain ⟨_, flag, _⟩ := applyAll_other (s := s.apply stamp now (key, r)) 0 stamp now distinct.1
      rw [since, queued, flag]
      rcases s.apply_deferral stamp now (key, r) with ⟨off, queued, since, marks⟩ | ⟨off, queued, since, marks⟩
      · rw [queued, since, marks]
        exact Or.inl ⟨off, (KeyMap.mem_keys_insert ..).mpr (Or.inl rfl), KeyMap.get?_insert_self .., rfl⟩
      · rw [queued, since, marks, KeyMap.get?_erase, if_pos rfl, if_pos rfl]
        exact Or.inr ⟨off, Iff.rfl, rfl, rfl⟩
    · have differ : key ≠ head.1 := fun same => distinct.1 (same ▸ List.mem_map_of_mem later)
      obtain ⟨since, queued⟩ := get?_apply_of_ne (s := s) stamp now differ
      have settings : (s.apply stamp now head).settings = s.settings := by
        obtain ⟨_, _, _, _, after⟩ := s.apply_eq stamp now head
        rw [after]
      have own := ih (s := s.apply stamp now head) distinct.2 later
      rwa [PutsOff, since, queued, settings, inFlight_apply_of_ne _ _ _ _ differ, ← PutsOff] at own

end Batchwise

/-- A batch that broke down ends the fetches of all its keys. -/
theorem get?_releaseAll (s : Service) (keys : List ProjectKey) (key : ProjectKey) :
    (s.releaseAll keys).pendingSince.get? key = if key ∈ keys then none else s.pendingSince.get? key := by
  induction keys generalizing s with
  | nil => rfl
  | cons first rest ih =>
    have released : (s.release first).pendingSince.get? key =
        if key = first then none else s.pendingSince.get? key := KeyMap.get?_erase ..
    rw [releaseAll_cons, ih, released]
    by_cases later : key ∈ rest
    · simp only [later, if_true, List.mem_cons, or_true]
    · simp only [later, if_false, List.mem_cons, or_false]

theorem inFlight_releaseAll_own {s : Service} {keys : List ProjectKey} {key : ProjectKey} (inside : key ∈ keys) :
    (s.releaseAll keys).cache.inFlight key = false := by
  induction keys generalizing s with
  | nil => cases inside
  | cons first rest ih =>
    rw [releaseAll_cons]
    by_cases later : key ∈ rest
    · exact ih later
    · rw [inFlight_releaseAll later, (List.mem_cons.mp inside).resolve_right later]
      exact (Cache.inFlight_fail ..).trans (if_pos rfl)

/-- All that can become of the count and the mark of a key in one step, with the turns of the key. -/
inductive Deferral (s s' : Service) (key : ProjectKey) : List Turn → Prop
  | kept : s'.pendingSince.get? key = s.pendingSince.get? key →
      (key ∈ s.custody → s'.status ≠ .crashed → key ∈ s'.custody) →
      (s.status = .running → s.cache.inFlight key = true → s'.cache.inFlight key = true) → Deferral s s' key []
  | turned {t} : s'.pendingSince.get? key = t.stamp?.map ((s.pendingSince.get? key).getD ·) →
      (t.stamp?.isSome → key ∈ s'.queued.keys ∧ s'.cache.inFlight key = s.cache.inFlight key) →
      Deferral s s' key [t]

section Steps
variable {s s' : Service} {e : Event} {new : List Entry} {key : ProjectKey}

theorem mem_custody : key ∈ s.custody ↔ key ∈ s.queued.keys ∨ ∃ b ∈ s.batches, key ∈ b.keys := by
  rw [custody, List.mem_append, List.mem_flatMap]

/-- A key stays in the worker's hands when a batch goes that does not have it. -/
theorem mem_custody_dropBatch (orderly : s.Orderly) {b : Batch} (member : b ∈ s.batches) (foreign : key ∉ b.keys)
    (held : key ∈ s.custody) : key ∈ (s.dropBatch b.id).custody := by
  have parted := keys_without orderly.numbered member
  rw [custody, List.mem_append, parted.mem_iff, List.mem_append, or_iff_right foreign] at held
  rw [custody, List.mem_append]
  exact held

theorem custody_setBatch (orderly : s.Orderly) {b b' : Batch} (member : b ∈ s.batches) (id : b'.id = b.id)
    (keys : b'.keys = b.keys) : (s.setBatch b').custody = s.custody := by
  rw [custody, keys_setBatch orderly member id keys]
  rfl

theorem Deferral.ofSetBatch (orderly : s.Orderly) {b b' : Batch} {samples : List Sample} (member : b ∈ s.batches)
    (id : b'.id = b.id) (keys : b'.keys = b.keys) : Deferral s { s.setBatch b' with samples } key [] := by
  refine .kept rfl (fun held _ => ?_) fun _ marked => marked
  rw [← custody_setBatch orderly member id keys] at held
  exact held

theorem Deferral.ofApplied (owned : s.Owned) (running : s.status = .running) {b : Batch} {now : Instant}
    {resolutions : List Resolved} (member : b ∈ s.batches) (progress : b.progress = .resolved resolutions) :
    Deferral s ((s.dropBatch b.id).applyAll b.stamp now resolutions) key
      (turnsOf key ((s.dropBatch b.id).applyAll b.stamp now resolutions).queued
        (applications b.id b.stamp now resolutions (s.dropBatch b.id))) := by
  have accounted := owned.orderly.resolved member progress
  by_cases own : key ∈ resolutions.map (·.1)
  · obtain ⟨⟨k, r⟩, inside, rfl⟩ := List.mem_map.mp own
    have distinct := accounted.nodup_iff.mpr (owned.orderly.distinct b member)
    obtain ⟨_, _, before, after, split, silentBefore, silentAfter⟩ :=
      applyAll_own (s := s.dropBatch b.id) b.id b.stamp now distinct inside
    have unqueued : k ∉ s.queued.keys := fun queued =>
      owned.not_mem_keys_of_queued running queued member (accounted.mem_iff.mp own)
    rw [split]
    rcases applyAll_deferral (s := s.dropBatch b.id) b.stamp now distinct inside with
      ⟨⟨pending, _⟩, queued, since, flag⟩ | ⟨_, queued, since, _⟩
    · cases pending
      rw [turnsOf_middle _ silentBefore silentAfter (Entry.turn?_applied ..), if_pos ⟨rfl, queued⟩]
      exact .turned since fun _ => ⟨queued, flag⟩
    · rw [turnsOf_middle _ silentBefore silentAfter (Entry.turn?_applied ..),
        if_neg fun again => unqueued (queued.mp again.2)]
      exact .turned since (nomatch ·)
  · obtain ⟨_, flag, silent⟩ := applyAll_other (s := s.dropBatch b.id) b.id b.stamp now own
    obtain ⟨since, queued⟩ := applyAll_absent (s := s.dropBatch b.id) b.stamp now own
    rw [turnsOf_eq_nil _ silent]
    refine .kept since (fun held _ => ?_) fun _ marked => flag.trans marked
    rw [accounted.mem_iff] at own
    have kept := mem_custody.mp (mem_custody_dropBatch owned.orderly member own held)
    rw [mem_custody, queued, batches_applyAll]
    exact kept

theorem Deferral.ofReleased (orderly : s.Orderly) {b : Batch} (member : b ∈ s.batches) :
    Deferral s ((s.dropBatch b.id).releaseAll b.keys) key
      (turnsOf key ((s.dropBatch b.id).releaseAll b.keys).queued (b.keys.map (.released b.id))) := by
  have since := get?_releaseAll (s.dropBatch b.id) b.keys key
  have foreign {keys : List ProjectKey} (absent : key ∉ keys) :
      ∀ e ∈ keys.map (Entry.released b.id), e.touches key = false := by
    intro e inside
    obtain ⟨other, member, rfl⟩ := List.mem_map.mp inside
    exact decide_eq_false fun same => absent (same ▸ member)
  by_cases own : key ∈ b.keys
  · rw [if_pos own] at since
    obtain ⟨before, after, parted⟩ := List.append_of_mem own
    have distinct := orderly.distinct b member
    rw [parted, List.nodup_middle, List.nodup_cons, List.mem_append, not_or] at distinct
    have split : b.keys.map (Entry.released b.id) =
        before.map (.released b.id) ++ .released b.id key :: after.map (.released b.id) := by
      rw [parted, List.map_append, List.map_cons]
    rw [split, turnsOf_middle _ (foreign distinct.1.1) (foreign distinct.1.2) (Entry.turn?_released ..)]
    exact .turned since nofun
  · rw [if_neg own] at since
    rw [turnsOf_eq_nil _ (foreign own)]
    refine .kept since (fun held _ => ?_) fun _ marked => (inFlight_releaseAll own).trans marked
    have kept := mem_custody_dropBatch orderly member own held
    obtain ⟨_, _, after⟩ := releaseAll_eq (s.dropBatch b.id) b.keys
    rw [after]
    exact kept

theorem Move.deferral (move : Move s e new s') (owned : s.Owned) (key : ProjectKey) :
    Deferral s s' key (turnsOf key s'.queued new) := by
  have quiet (silent : ∀ e ∈ new, e.turn? key s'.queued = none)
      (deferral : Deferral s s' key []) : Deferral s s' key (turnsOf key s'.queued new) := by
    rw [turnsOf, List.filterMap_eq_nil_iff.mpr silent]
    exact deferral
  cases move with
  | claimed got _ =>
    refine .kept rfl (fun held _ => held) fun _ marked => ?_
    rw [(Cache.get_looked got).inFlight, marked, Bool.true_or]
  | looked got _ _ =>
    refine .kept rfl (fun held _ => held) fun _ marked => ?_
    rw [(Cache.get_looked got).inFlight, marked, Bool.true_or]
  | freed atCall refused =>
    exact .kept rfl (fun held _ => held) fun running =>
      absurd refused (owned.unrefused running _ (List.mem_of_getElem? atCall))
  | queued running first =>
    refine .kept rfl (fun held _ => ?_) fun _ marked => marked
    rw [custody, List.mem_append] at held ⊢
    exact held.imp_left fun queued => (KeyMap.mem_keys_insert ..).mpr (Or.inr queued)
  | @dispatched now started _ running positive all =>
    refine quiet (fun e member => ?_) ?_
    · obtain ⟨_, _, rfl⟩ := List.mem_map.mp member
      rfl
    · obtain ⟨status, samples, same⟩ := all.rest
      refine .kept (by rw [same]) (fun held alive => ?_) fun _ marked => by rw [same]; exact marked
      have keys : started.flatMap (·.keys) = s.queued.keys := by
        rw [List.flatMap_def, all.pieces_eq alive]
        exact flatten_pieces (Nat.pos_of_ne_zero positive) _
      rw [custody, all.batches, List.flatMap_append, keys]
      rw [custody, List.mem_append] at held
      exact List.mem_append_right _ (List.mem_append.mpr held.symm)
  | unparted _ _ => exact .kept rfl (fun _ alive => absurd rfl alive) fun _ marked => marked
  | consulted found _ =>
    refine quiet (fun e member => ?_) (.ofSetBatch owned.orderly (mem_of_batch? found).1 rfl rfl)
    obtain ⟨_, _, rfl⟩ := List.mem_map.mp member
    rfl
  | answered found _ =>
    refine quiet (fun e member => ?_) (.ofSetBatch owned.orderly (mem_of_batch? found).1 rfl rfl)
    obtain ⟨_, _, rfl⟩ := List.mem_map.mp member
    rfl
  | lost found _ => exact .ofSetBatch owned.orderly (mem_of_batch? found).1 rfl rfl
  | applied running found progress => exact .ofApplied owned running (mem_of_batch? found).1 progress
  | released _ found _ => exact .ofReleased owned.orderly (mem_of_batch? found).1
  | reloaded _ _ _ =>
    refine quiet (fun e member => ?_) (.kept rfl (fun held _ => held) fun _ marked => (inFlight_install ..).trans marked)
    rcases mem_changes_entries member with ⟨_, _, rfl⟩ | ⟨_, _, rfl⟩
    · rfl
    · rfl
  | swept _ gone =>
    exact .kept rfl (fun held _ => held) fun _ marked => ((Cache.evictExpired_swept gone).inFlight key).trans marked
  | unswept _ _ =>
    exact .kept rfl (fun held _ => held) fun _ marked => ((Cache.abandonSweep_swept ..).inFlight key).trans marked
  | _ => exact .kept rfl (fun held _ => held) fun _ marked => marked

/-- What holds of the keys in the worker's hands unless it broke down. -/
structure Keeping (s : Service) : Prop where
  once : s.custody.Nodup
  waiting : ∀ key, (s.pendingSince.get? key).isSome → key ∈ s.custody

theorem Owned.custody_nodup (owned : s.Owned) (running : s.status = .running) : s.custody.Nodup := by
  have once := (owned.balanced running).once
  rw [List.append_nil] at once
  exact once.sublist ((List.sublist_append_right ..).append_right _)

/-- A worker that does not run leaves what it has in its hands as it is. -/
theorem Move.custody_eq (move : Move s e new s') (owned : s.Owned) (ended : s'.status ≠ .running)
    (alive : s'.status ≠ .crashed) : s'.custody = s.custody := by
  cases move with
  | queued running _ => exact absurd running ended
  | dispatched running _ all =>
    rcases all.all with ⟨_, same⟩ | ⟨crashed, _⟩
    · exact absurd (same.trans running) ended
    · exact absurd crashed alive
  | unparted _ _ => exact absurd rfl alive
  | consulted found _ => exact custody_setBatch owned.orderly (mem_of_batch? found).1 rfl rfl
  | answered found _ => exact custody_setBatch owned.orderly (mem_of_batch? found).1 rfl rfl
  | lost found _ => exact custody_setBatch owned.orderly (mem_of_batch? found).1 rfl rfl
  | applied running _ _ =>
    rw [status_applyAll] at ended
    exact absurd running ended
  | released running _ _ =>
    rw [status_releaseAll] at ended
    exact absurd running ended
  | _ => rfl

theorem Move.keeping (move : Move s e new s') (owned : s.Owned) (keeping : s.Keeping) (alive : s'.status ≠ .crashed) :
    s'.Keeping where
  once := by
    by_cases running : s'.status = .running
    · exact (owned.move move).custody_nodup running
    · rw [move.custody_eq owned running alive]
      exact keeping.once
  waiting key counted := by
    generalize turnsOf key s'.queued new = turns, move.deferral owned key = deferral
    cases deferral with
    | kept same held _ =>
      rw [same] at counted
      exact held (keeping.waiting key counted) alive
    | turned next queued =>
      rw [next, Option.isSome_map] at counted
      exact List.mem_append_left _ (queued counted).1

theorem run_keeping (owned : s.Owned) (keeping : s.status ≠ .crashed → s.Keeping) (events : List Event) :
    (s.run events).status ≠ .crashed → (s.run events).Keeping := by
  induction events generalizing s with
  | nil => exact keeping
  | cons e rest ih =>
    have move := s.step_move e
    exact ih (owned.move move) fun alive => move.keeping owned (keeping (move.alive alive)) alive

/-- The count of a key begins with the row of batches that have put it off. -/
theorem run_streak {turns : List Turn} (owned : s.Owned) (begun : s.pendingSince.get? key = streakStart? turns)
    (events : List Event) :
    (s.run events).pendingSince.get? key = streakStart? (turns ++ s.turns key events) := by
  induction events generalizing s turns with
  | nil =>
    rw [Service.turns, List.append_nil]
    exact begun
  | cons e rest ih =>
    have move := s.step_move e
    rw [Service.turns, ← List.append_assoc]
    refine ih (owned.move move) ?_
    generalize turnsOf key (s.step e).queued (s.entries e) = new, move.deferral owned key = deferral
    cases deferral with
    | kept same _ _ => rw [List.append_nil, same, begun]
    | turned next _ => rw [streakStart?_concat, next, begun]

/-- A key stays marked until its fetch is over. -/
theorem run_marked {events : List Event} (owned : s.Owned) (marked : s.cache.inFlight key = true)
    (running : (s.run events).status = .running) (unended : .ended ∉ s.turns key events) :
    (s.run events).cache.inFlight key = true := by
  induction events generalizing s with
  | nil => exact marked
  | cons e rest ih =>
    have move := s.step_move e
    rw [Service.turns, List.mem_append, not_or] at unended
    refine ih (owned.move move) ?_ running unended.2
    have early := unended.1
    generalize turnsOf key (s.step e).queued (s.entries e) = new, move.deferral owned key = deferral at early
    cases deferral with
    | kept _ _ stays => exact stays (move.ran (run_ran running)) marked
    | @turned t _ off =>
      cases t with
      | ended => exact absurd (List.mem_singleton_self _) early
      | putOff stamp => exact (off rfl).2.trans marked

/-- What the worker has in its hands is marked. -/
theorem Owned.marked_of_custody (owned : s.Owned) (running : s.status = .running) (held : key ∈ s.custody) :
    s.cache.inFlight key = true := by
  refine ((owned.balanced running).marked key).mp ?_
  rw [List.append_nil]
  exact ((List.sublist_append_right ..).append_right _).subset held

end Steps

section Complete
variable {s : Service} {b : Batch} {key : ProjectKey} {resolutions : List Resolved}

/-- A batch that resolves the key puts it off or ends its fetch. -/
theorem Owned.complete_turn {r : Resolution} (owned : s.Owned) (running : s.status = .running)
    (member : b ∈ s.batches) (progress : b.progress = .resolved resolutions) (resolved : (key, r) ∈ resolutions)
    (now : Instant) :
    (s.PutsOff b.stamp now (key, r) ∧
      (s.step (.complete b.id now)).Waits key ((s.pendingSince.get? key).getD b.stamp)) ∨
    (¬ s.PutsOff b.stamp now (key, r) ∧ (s.step (.complete b.id now)).LetGo key) := by
  have accounted := owned.orderly.resolved member progress
  have distinct := accounted.nodup_iff.mpr (owned.orderly.distinct b member)
  have inside : key ∈ b.keys := accounted.mem_iff.mp (List.mem_map_of_mem resolved)
  have marked := owned.marked_of_custody running (mem_custody.mpr (Or.inr ⟨b, member, inside⟩))
  have unqueued : key ∉ s.queued.keys := fun queued => owned.not_mem_keys_of_queued running queued member inside
  rw [(complete_step owned.orderly running member progress now).1]
  rcases applyAll_deferral (s := s.dropBatch b.id) b.stamp now distinct resolved with
    ⟨off, queued, since, mark⟩ | ⟨off, queued, since, mark⟩
  · exact Or.inl ⟨off, queued, mark.trans marked, since⟩
  · exact Or.inr ⟨off, fun again => unqueued (queued.mp again), mark, since⟩

theorem Owned.complete_lost (owned : s.Owned) (running : s.status = .running) (member : b ∈ s.batches)
    (progress : b.progress = .lost) (inside : key ∈ b.keys) (now : Instant) :
    (s.step (.complete b.id now)).LetGo key := by
  have found := owned.orderly.batch?_eq member
  have released : s.step (.complete b.id now) = (s.dropBatch b.id).releaseAll b.keys := by
    simp only [step, whileRunning_of_running running, complete, found, progress]
  have unqueued : key ∉ s.queued.keys := fun queued => owned.not_mem_keys_of_queued running queued member inside
  have since := get?_releaseAll (s.dropBatch b.id) b.keys key
  rw [if_pos inside] at since
  rw [released]
  refine ⟨?_, inFlight_releaseAll_own inside, since⟩
  obtain ⟨_, _, after⟩ := releaseAll_eq (s.dropBatch b.id) b.keys
  rw [after]
  exact unqueued

end Complete

theorem mem_one_batch {s : Service} {key : ProjectKey} (once : s.custody.Nodup) (held : key ∈ s.custody) :
    (key ∈ s.queued.keys ∧ ∀ b ∈ s.batches, key ∉ b.keys) ∨
    (key ∉ s.queued.keys ∧ ∃! b, b ∈ s.batches ∧ key ∈ b.keys) := by
  obtain ⟨_, inBatches, apart⟩ := List.nodup_append.mp once
  have elsewhere {b : Batch} (member : b ∈ s.batches) (inside : key ∈ b.keys) : key ∉ s.queued.keys :=
    fun queued => apart key queued key (List.mem_flatMap.mpr ⟨b, member, inside⟩) rfl
  rcases mem_custody.mp held with queued | ⟨b, member, inside⟩
  · exact Or.inl ⟨queued, fun b member inside => elsewhere member inside queued⟩
  · refine Or.inr ⟨elsewhere member inside, b, ⟨member, inside⟩, fun other there => ?_⟩
    by_contra differ
    have symmetric : Std.Symm (Function.onFun List.Disjoint Batch.keys) := ⟨fun _ _ => List.disjoint_symm⟩
    have disjoint := (List.nodup_flatMap.mp inBatches).2.forall there.1 member differ
    exact disjoint there.2 inside

/-- In every run, a key that has been put off is in the queue or in exactly one batch, and its
time counts from the dispatch of the first batch of the row of those that put it off. A batch
that finds it pending puts it off again if less than the time of a query is over, and else ends
its fetch and leaves what is known about it; anything else that a batch finds, or its loss, ends
the fetch as well. So a key that a lookup has to be fetched for has all of the time. -/
theorem pending_until_query_timeout (policy : Policy) (settings : ServiceSettings) (withOverrides : Bool)
    (events : List Event) (key : ProjectKey) :
    let s := (start policy settings withOverrides).run events
    s.pendingSince.get? key = streakStart? ((start policy settings withOverrides).turns key events) ∧
    (s.status ≠ .crashed → (s.pendingSince.get? key).isSome →
      (key ∈ s.queued.keys ∧ ∀ b ∈ s.batches, key ∉ b.keys) ∨
      (key ∉ s.queued.keys ∧ ∃! b, b ∈ s.batches ∧ key ∈ b.keys)) ∧
    (s.status = .running → ∀ b ∈ s.batches, ∀ now,
      (∀ resolutions, b.progress = .resolved resolutions →
        ((key, .pending) ∈ resolutions →
          (s.step (.complete b.id now)).cache.knows key = s.cache.knows key ∧
          if (now.since ((s.pendingSince.get? key).getD b.stamp)).nanos < settings.queryTimeout.nanos then
            (s.step (.complete b.id now)).Waits key ((s.pendingSince.get? key).getD b.stamp)
          else (s.step (.complete b.id now)).LetGo key) ∧
        ∀ r, (key, r) ∈ resolutions → r ≠ .pending → (s.step (.complete b.id now)).LetGo key) ∧
      (b.progress = .lost → key ∈ b.keys → (s.step (.complete b.id now)).LetGo key)) ∧
    (s.status = .running → ∀ now cache l, s.cache.get key now = .ok (cache, l) → l.scheduleFetch = true →
      ∀ later, s.turns key later = [] → (s.run later).pendingSince.get? key = none) := by
  intro s
  have owned : s.Owned := (start_owned policy settings withOverrides).run events
  have keeping : s.status ≠ .crashed → s.Keeping :=
    run_keeping (start_owned ..) (fun _ => ⟨List.nodup_nil, fun _ counted => by cases counted⟩) events
  have budget : s.settings = settings := run_settings _ events
  have begun : (start policy settings withOverrides).pendingSince.get? key = streakStart? [] := rfl
  have streak := run_streak (start_owned policy settings withOverrides) begun events
  rw [List.nil_append] at streak
  refine ⟨streak, fun alive counted => ?_, fun running b member now => ?_, fun running now cache l got wanted => ?_⟩
  · exact mem_one_batch (keeping alive).once ((keeping alive).waiting key counted)
  · refine ⟨fun resolutions progress => ⟨fun pending => ⟨?_, ?_⟩, fun r resolved ended => ?_⟩, fun progress inside => ?_⟩
    · rw [(complete_own owned.orderly running member progress pending now).1, Knowledge.after,
        Knowledge.settle_pending, Option.getD_none]
    · rw [← budget]
      rcases owned.complete_turn running member progress pending now with ⟨off, waits⟩ | ⟨off, ended⟩
      · rw [if_pos off.2]
        exact waits
      · rw [if_neg fun early => off ⟨rfl, early⟩]
        exact ended
    · rcases owned.complete_turn running member progress resolved now with ⟨off, _⟩ | ⟨_, ended⟩
      · exact absurd off.1 ended
      · exact ended
    · exact owned.complete_lost running member progress inside now
  · obtain ⟨_, _, schedule⟩ := (Cache.get_looked got).decision
    rw [wanted, eq_comm, Bool.and_eq_true, Bool.not_eq_true'] at schedule
    have uncounted : s.pendingSince.get? key = none := by
      by_contra counted
      have alive : s.status ≠ .crashed := fun crashed => by cases running.symm.trans crashed
      have held := (keeping alive).waiting key (Option.isSome_iff_ne_none.mpr counted)
      have marked := owned.marked_of_custody running held
      rw [schedule.2] at marked
      cases marked
    intro later none
    have since := run_streak owned streak later
    rw [none, List.append_nil, ← streak] at since
    exact since.trans uncounted

/-- A key that is put off at 100 ms is given up at 1 s: its time counts from the first batch. -/
theorem pending_key_given_up :
    let s := start ⟨.ofSecs 60, .zero, .ofSecs 10⟩ { batchSize := 10, queryTimeout := .ofSecs 1 } false
    let pending : Except QueryFault ConfigsResponse := .ok { pending := ["a"] }
    let events := [.look .lookup "a" .origin, .advance 0, .receive, .dispatch .origin, .consult 0 fun _ => .ok none,
      .answer 0 pending, .complete 0 (.ofMillis 100), .dispatch (.ofMillis 200), .consult 1 fun _ => .ok none,
      .answer 1 pending]
    (s.run events).pendingSince.get? "a" = some .origin ∧
      (∃! b, b ∈ (s.run events).batches ∧ "a" ∈ b.keys) ∧
      ((s.run events).step (.complete 1 (.ofMillis 1000))).LetGo "a" := by
  intro s pending events
  obtain ⟨streak, held, complete, _⟩ := pending_until_query_timeout ⟨.ofSecs 60, .zero, .ofSecs 10⟩
    { batchSize := 10, queryTimeout := .ofSecs 1 } false events "a"
  have turns : s.turns "a" events = [.putOff .origin] := by decide +kernel
  have counted : (s.run events).pendingSince.get? "a" = some .origin := streak.trans (congrArg streakStart? turns)
  have running : (s.run events).status = .running := by decide +kernel
  have unqueued : "a" ∉ (s.run events).queued.keys := by decide +kernel
  have batches : (s.run events).batches = [⟨1, .ofMillis 200, ["a"], .resolved [("a", .pending)]⟩] := by
    unfold s events; cbv
  refine ⟨counted, ?_, ?_⟩
  · have somewhere := held (fun crashed => by cases running.symm.trans crashed) (by rw [counted]; rfl)
    exact (somewhere.resolve_left fun waiting => unqueued waiting.1).2
  · have member : ⟨1, .ofMillis 200, ["a"], .resolved [("a", .pending)]⟩ ∈ (s.run events).batches := by
      rw [batches]
      exact List.mem_singleton_self _
    have late := (((complete running _ member (.ofMillis 1000)).1 _ rfl).1 (List.mem_singleton_self _)).2
    rw [counted] at late
    exact late

end Service

end AdmissionCache
