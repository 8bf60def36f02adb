import AdmissionCache.Proofs.Service.Batches

namespace AdmissionCache

/-- Whether earlier entries account for an entry. -/
def Entry.Explained (before : List Entry) : Entry → Prop
  | .applied batch stamp key r _ =>
    (∃ keys, .sent batch stamp keys ∈ before ∧ key ∈ keys) ∧ ∃ source, .told batch key r source ∈ before
  | _ => True

/-- Whether every entry is accounted for by those before it. -/
def EachExplained (log : List Entry) : Prop :=
  ∀ before e after, log = before ++ e :: after → e.Explained before

theorem Entry.Explained.mono {before after : List Entry} {e : Entry} (explained : e.Explained before) :
    e.Explained (before ++ after) := by
  cases e with
  | applied batch stamp key r taken =>
    obtain ⟨⟨keys, sent, member⟩, source, told⟩ := explained
    exact ⟨⟨keys, List.mem_append_left _ sent, member⟩, source, List.mem_append_left _ told⟩
  | _ => trivial

theorem EachExplained.append {log new : List Entry} (each : EachExplained log)
    (fresh : ∀ e ∈ new, e.Explained log) : EachExplained (log ++ new) := by
  intro before e after parted
  rcases List.append_eq_append_iff.mp parted with ⟨between, rfl, tail⟩ | ⟨between, head, tail⟩
  · have member : e ∈ new := by
      rw [tail]; exact List.mem_append_right _ List.mem_cons_self
    exact (fresh e member).mono
  · cases between with
    | nil =>
      rw [List.append_nil] at head
      rw [List.nil_append] at tail
      exact head ▸ fresh e (tail ▸ List.mem_cons_self)
    | cons first rest =>
      obtain ⟨rfl, _⟩ := List.cons.inj tail
      exact each before e rest head

namespace Service

/-- What the service remembers of its batches is in the chronicle, and what the chronicle
says about them is not to be found out again. -/
structure Recorded (log : List Entry) (s : Service) : Prop where
  sent : ∀ b ∈ s.batches, .sent b.id b.stamp b.keys ∈ log
  told : ∀ b ∈ s.batches, ∀ r ∈ b.found, ∃ source, .told b.id r.1 r.2 source ∈ log
  numbered : ∀ i key r source, .told i key r source ∈ log → i < s.dispatched
  settled : ∀ i key r source, .told i key r source ∈ log → ∀ b ∈ s.batches, b.id = i → key ∉ b.unresolved
  explained : EachExplained log

theorem mem_applications {batch : Nat} {stamp now : Instant} {resolutions : List Resolved} {s : Service}
    {e : Entry} (member : e ∈ applications batch stamp now resolutions s) :
    ∃ r ∈ resolutions, ∃ taken, e = .applied batch stamp r.1 r.2 taken := by
  induction resolutions generalizing s with
  | nil => cases member
  | cons r rest ih =>
    rcases List.mem_cons.mp member with rfl | later
    · exact ⟨r, List.mem_cons_self, _, rfl⟩
    · obtain ⟨r', inside, taken, same⟩ := ih later
      exact ⟨r', List.mem_cons_of_mem _ inside, taken, same⟩

theorem mem_changes_entries {changes : OverrideChanges} {now : Instant} {e : Entry}
    (member : e ∈ OverrideChanges.entries changes now) :
    (∃ u ∈ changes.updated.toList, e = .overridden u.1 u.2 now) ∨
      ∃ key ∈ changes.removed, e = .withdrawn key := by
  rcases List.mem_append.mp member with updated | removed
  · obtain ⟨u, inside, rfl⟩ := List.mem_map.mp updated
    exact Or.inl ⟨u, inside, rfl⟩
  · obtain ⟨key, inside, rfl⟩ := List.mem_map.mp removed
    exact Or.inr ⟨key, inside, rfl⟩

namespace Recorded
variable {log new : List Entry} {s s' : Service}

/-- Batches that were there before, and entries that say nothing new about them. -/
theorem grow (recorded : Recorded log s) (batches : ∀ b ∈ s'.batches, b ∈ s.batches)
    (dispatched : s'.dispatched = s.dispatched) (silent : ∀ i key r source, .told i key r source ∉ new)
    (explained : ∀ e ∈ new, e.Explained log) : Recorded (log ++ new) s' where
  sent b member := List.mem_append_left _ (recorded.sent b (batches b member))
  told b member r inside := by
    obtain ⟨source, told⟩ := recorded.told b (batches b member) r inside
    exact ⟨source, List.mem_append_left _ told⟩
  numbered i key r source told := by
    have old := (List.mem_append.mp told).resolve_right (silent i key r source)
    rw [dispatched]
    exact recorded.numbered i key r source old
  settled i key r source told b member := by
    have old := (List.mem_append.mp told).resolve_right (silent i key r source)
    exact recorded.settled i key r source old b (batches b member)
  explained := recorded.explained.append explained

theorem same (recorded : Recorded log s) (batches : s'.batches = s.batches)
    (dispatched : s'.dispatched = s.dispatched) : Recorded (log ++ []) s' := by
  refine recorded.grow (fun b member => batches ▸ member) dispatched (fun _ _ _ _ member => nomatch member) ?_
  intro e member
  cases member

/-- A batch goes on: what it finds out is told to it, and it does not find it out again. -/
theorem goOn (recorded : Recorded log s) {b b' : Batch} (member : b ∈ s.batches)
    (batches : s'.batches = (s.setBatch b').batches) (dispatched : s'.dispatched = s.dispatched)
    (used : b.id < s.dispatched) (same : b'.id = b.id ∧ b'.stamp = b.stamp ∧ b'.keys = b.keys)
    (found : ∀ r ∈ b'.found, r ∈ b.found ∨ ∃ source, .told b.id r.1 r.2 source ∈ new)
    (fewer : ∀ key ∈ b'.unresolved, key ∈ b.unresolved)
    (only : ∀ e ∈ new, ∃ key r source, e = .told b.id key r source ∧ key ∉ b'.unresolved) :
    Recorded (log ++ new) s' := by
  obtain ⟨id, stamp, keys⟩ := same
  refine ⟨?_, ?_, ?_, ?_, ?_⟩
  · intro other inside
    rw [batches] at inside
    rcases mem_setBatch inside with rfl | ⟨old, _⟩
    · rw [id, stamp, keys]
      exact List.mem_append_left _ (recorded.sent b member)
    · exact List.mem_append_left _ (recorded.sent other old)
  · intro other inside r resolved
    rw [batches] at inside
    rcases mem_setBatch inside with rfl | ⟨old, _⟩
    · rw [id]
      rcases found r resolved with before | ⟨source, told⟩
      · obtain ⟨source, told⟩ := recorded.told b member r before
        exact ⟨source, List.mem_append_left _ told⟩
      · exact ⟨source, List.mem_append_right _ told⟩
    · obtain ⟨source, told⟩ := recorded.told other old r resolved
      exact ⟨source, List.mem_append_left _ told⟩
  · intro i key r source told
    rw [dispatched]
    rcases List.mem_append.mp told with old | recent
    · exact recorded.numbered i key r source old
    · obtain ⟨_, _, _, same, _⟩ := only _ recent
      cases same
      exact used
  · intro i key r source told other inside number
    rw [batches] at inside
    rcases mem_setBatch inside with rfl | ⟨old, differ⟩
    · rcases List.mem_append.mp told with before | recent
      · intro unresolved
        exact recorded.settled i key r source before b member (id.symm.trans number) (fewer key unresolved)
      · obtain ⟨_, _, _, same, ended⟩ := only _ recent
        cases same
        exact ended
    · rcases List.mem_append.mp told with before | recent
      · exact recorded.settled i key r source before other old number
      · obtain ⟨_, _, _, same, _⟩ := only _ recent
        cases same
        exact absurd (number.trans id.symm) differ
  · refine recorded.explained.append fun e inside => ?_
    obtain ⟨_, _, _, rfl, _⟩ := only e inside
    trivial

theorem started (recorded : Recorded log s) {now : Instant} {pieces : List (List ProjectKey)}
    {started : List Batch} (all : Started s now pieces started s') :
    Recorded (log ++ started.map fun b => .sent b.id b.stamp b.keys) s' := by
  have silent : ∀ i key r source,
      Entry.told i key r source ∉ started.map fun b => .sent b.id b.stamp b.keys := by
    intro i key r source member
    obtain ⟨b, _, differ⟩ := List.mem_map.mp member
    cases differ
  have old {i : Nat} {key : ProjectKey} {r : Resolution} {source : SourceName}
      (told : Entry.told i key r source ∈ log ++ started.map fun b => .sent b.id b.stamp b.keys) :
      Entry.told i key r source ∈ log := (List.mem_append.mp told).resolve_right (silent i key r source)
  refine ⟨?_, ?_, ?_, ?_, ?_⟩
  · intro b member
    rw [all.batches] at member
    rcases List.mem_append.mp member with before | new
    · exact List.mem_append_left _ (recorded.sent b before)
    · exact List.mem_append_right _ (List.mem_map_of_mem new)
  · intro b member r inside
    rw [all.batches] at member
    rcases List.mem_append.mp member with before | new
    · obtain ⟨source, told⟩ := recorded.told b before r inside
      exact ⟨source, List.mem_append_left _ told⟩
    · obtain ⟨_, _, asked, _, progress⟩ := all.fresh b new
      simp only [Batch.found, progress] at inside
      cases inside
  · intro i key r source told
    have bound := recorded.numbered i key r source (old told)
    rw [all.dispatched]
    omega
  · intro i key r source told b member number
    rw [all.batches] at member
    rcases List.mem_append.mp member with before | new
    · exact recorded.settled i key r source (old told) b before number
    · have bound := recorded.numbered i key r source (old told)
      have inRange : b.id ∈ started.map (·.id) := List.mem_map_of_mem new
      rw [all.ids, List.mem_range'_1] at inRange
      omega
  · refine recorded.explained.append fun e member => ?_
    obtain ⟨b, _, rfl⟩ := List.mem_map.mp member
    trivial

theorem consulted (recorded : Recorded log s) (orderly : s.Orderly) {b : Batch} {asked : AskedKey}
    {left : List AskedKey} {findings : Findings} (member : b ∈ s.batches)
    (progress : b.progress = .open (asked :: left) findings) (said : Option Resolution) (source : SourceName)
    (batches : s'.batches =
      (s.setBatch { b with progress := .after left (findings.add asked said) }).batches)
    (dispatched : s'.dispatched = s.dispatched) :
    Recorded (log ++ said.toList.map fun r => .told b.id asked.1 r source) s' := by
  have accounted := orderly.accounted b member
  rw [Batch.accounted_open progress] at accounted
  have distinct := accounted.nodup_iff.mpr (orderly.distinct b member)
  have once := (List.nodup_append.mp distinct).2.1
  rw [List.map_cons, List.nodup_middle, List.nodup_cons] at once
  cases said with
  | none =>
    refine recorded.goOn member batches dispatched (orderly.used b member) ⟨rfl, rfl, rfl⟩ ?_ ?_ ?_
    · intro r inside
      rw [Batch.found_after] at inside
      refine Or.inl ?_
      simpa only [Batch.found, progress, Findings.add] using inside
    · intro key inside
      simp only [Batch.unresolved, Batch.toAsk_after, Batch.toConsult_after, Findings.add, List.map_append,
        List.mem_append, List.map_cons, List.map_nil, List.mem_singleton] at inside
      simp only [Batch.unresolved, Batch.toAsk, Batch.toConsult, progress, List.map_cons, List.mem_append,
        List.mem_cons]
      rcases inside with (ask | here) | later
      · exact Or.inl ask
      · exact Or.inr (Or.inl here)
      · exact Or.inr (Or.inr later)
    · intro e inside
      cases inside
  | some r =>
    refine recorded.goOn member batches dispatched (orderly.used b member) ⟨rfl, rfl, rfl⟩ ?_ ?_ ?_
    · intro r' inside
      rw [Batch.found_after] at inside
      rcases List.mem_append.mp inside with old | new
      · refine Or.inl ?_
        simpa only [Batch.found, progress] using old
      · rw [List.mem_singleton.mp new]
        exact Or.inr ⟨_, List.mem_singleton_self _⟩
    · intro key inside
      simp only [Batch.unresolved, Batch.toAsk_after, Batch.toConsult_after, Findings.add,
        List.mem_append] at inside
      simp only [Batch.unresolved, Batch.toAsk, Batch.toConsult, progress, List.map_cons, List.mem_append,
        List.mem_cons]
      exact inside.imp_right Or.inr
    · intro e inside
      refine ⟨asked.1, r, _, List.mem_singleton.mp inside, ?_⟩
      simpa only [Batch.unresolved, Batch.toAsk_after, Batch.toConsult_after, Findings.add] using once.1

theorem move (recorded : Recorded log s) (orderly : s.Orderly) {e : Event} (move : Move s e new s') :
    Recorded (log ++ new) s' := by
  cases move with
  | dispatched _ _ all =>
    have emptied : Recorded (log ++ []) { s with queued := ∅ } := recorded.same rfl rfl
    rw [List.append_nil] at emptied
    exact emptied.started all
  | consulted found progress =>
    obtain ⟨member, rfl⟩ := mem_of_batch? found
    exact recorded.consulted orderly member progress _ _ rfl rfl
  | @answered id result b findings _ found progress =>
    obtain ⟨member, rfl⟩ := mem_of_batch? found
    refine recorded.goOn member rfl rfl (orderly.used b member) ⟨rfl, rfl, rfl⟩ ?_ ?_ ?_
    · intro r inside
      rcases List.mem_append.mp inside with old | new
      · refine Or.inl ?_
        simpa only [Batch.found, progress] using old
      · exact Or.inr ⟨_, List.mem_map_of_mem new⟩
    · intro key inside
      cases inside
    · intro e inside
      obtain ⟨r, _, rfl⟩ := List.mem_map.mp inside
      exact ⟨r.1, r.2, _, rfl, List.not_mem_nil⟩
  | @lost id b left findings found progress =>
    obtain ⟨member, rfl⟩ := mem_of_batch? found
    refine recorded.goOn member rfl rfl (orderly.used b member) ⟨rfl, rfl, rfl⟩ ?_ ?_ ?_
    · intro r inside
      cases inside
    · intro key inside
      cases inside
    · intro e inside
      cases inside
  | @applied id now b resolutions _ found progress =>
    obtain ⟨member, rfl⟩ := mem_of_batch? found
    refine recorded.grow ?_ (dispatched_applyAll ..) ?_ ?_
    · intro other inside
      rw [batches_applyAll] at inside
      exact mem_dropBatch inside
    · intro i key r source inside
      obtain ⟨_, _, _, differ⟩ := mem_applications inside
      cases differ
    · intro e inside
      obtain ⟨r, resolved, taken, rfl⟩ := mem_applications inside
      have own : r.1 ∈ b.keys := (orderly.resolved member progress).mem_iff.mp (List.mem_map_of_mem resolved)
      refine ⟨⟨b.keys, recorded.sent b member, own⟩, recorded.told b member r ?_⟩
      simpa only [Batch.found, progress] using resolved
  | @released id now b _ found _ =>
    refine recorded.grow ?_ (dispatched_releaseAll ..) ?_ ?_
    · intro other inside
      rw [batches_releaseAll] at inside
      exact mem_dropBatch inside
    · intro i key r source inside
      obtain ⟨_, _, differ⟩ := List.mem_map.mp inside
      cases differ
    · intro e inside
      obtain ⟨_, _, rfl⟩ := List.mem_map.mp inside
      trivial
  | reloaded _ _ _ =>
    refine recorded.grow (fun _ inside => inside) rfl ?_ ?_
    · intro i key r source inside
      rcases mem_changes_entries inside with ⟨_, _, differ⟩ | ⟨_, _, differ⟩
      · cases differ
      · cases differ
    · intro e inside
      rcases mem_changes_entries inside with ⟨_, _, rfl⟩ | ⟨_, _, rfl⟩
      · trivial
      · trivial
  | _ => exact recorded.same rfl rfl

end Recorded

/-- Which entries an event may add to the chronicle. -/
inductive AddedBy : Event → Entry → Prop
  | sent {now id keys} : AddedBy (.dispatch now) (.sent id now keys)
  | consulted {id content key r source} : AddedBy (.consult id content) (.told id key r source)
  | answered {id result key r} : AddedBy (.answer id result) (.told id key r .authority)
  | applied {id now stamp key r taken} : AddedBy (.complete id now) (.applied id stamp key r taken)
  | released {id now key} : AddedBy (.complete id now) (.released id key)
  | overridden {directory now key config} : AddedBy (.reload directory now) (.overridden key config now)
  | withdrawn {directory now key} : AddedBy (.reload directory now) (.withdrawn key)

section Origins
variable {s s' : Service} {e : Event} {new : List Entry}

theorem Move.added {x : Entry} (move : Move s e new s') (member : x ∈ new) : AddedBy e x := by
  cases move with
  | dispatched _ _ all =>
    obtain ⟨b, recent, rfl⟩ := List.mem_map.mp member
    obtain ⟨_, stamp, _⟩ := all.fresh b recent
    subst stamp
    exact .sent
  | consulted _ _ =>
    obtain ⟨_, _, rfl⟩ := List.mem_map.mp member
    exact .consulted
  | answered _ _ =>
    obtain ⟨_, _, rfl⟩ := List.mem_map.mp member
    exact .answered
  | applied _ found _ =>
    obtain ⟨_, _, _, rfl⟩ := mem_applications member
    exact (mem_of_batch? found).2 ▸ .applied
  | released _ found _ =>
    obtain ⟨_, _, rfl⟩ := List.mem_map.mp member
    exact (mem_of_batch? found).2 ▸ .released
  | reloaded _ _ _ =>
    rcases mem_changes_entries member with ⟨_, _, rfl⟩ | ⟨_, _, rfl⟩
    · exact .overridden
    · exact .withdrawn
  | _ => cases member

theorem Move.applied_origin (move : Move s e new s') {i : Nat} {stamp : Instant} {key : ProjectKey} {r : Resolution}
    {taken : Bool} (member : .applied i stamp key r taken ∈ new) :
    ∃ b ∈ s.batches, b.id = i ∧ b.stamp = stamp ∧ (key, r) ∈ b.found := by
  cases move.added member
  cases move with
  | idle => cases member
  | @applied _ _ b resolutions _ found progress =>
    obtain ⟨r, inside, _, same⟩ := mem_applications member
    cases same
    refine ⟨b, (mem_of_batch? found).1, rfl, rfl, ?_⟩
    rw [Batch.found, progress]
    exact inside
  | released _ _ _ =>
    obtain ⟨_, _, differ⟩ := List.mem_map.mp member
    cases differ

theorem Move.overridden_time {key : ProjectKey} {config : ProjectConfig} {now : Instant} (move : Move s e new s')
    (member : .overridden key config now ∈ new) : e.time? = some now := by
  cases move.added member
  rfl

end Origins

theorem start_recorded (policy : Policy) (settings : ServiceSettings) (withOverrides : Bool) :
    Recorded [] (start policy settings withOverrides) where
  sent _ member := nomatch member
  told _ member := nomatch member
  numbered _ _ _ _ member := nomatch member
  settled _ _ _ _ member := nomatch member
  explained before e after parted := by
    exact absurd (congrArg List.length parted) (by simp)

end Service

end AdmissionCache
