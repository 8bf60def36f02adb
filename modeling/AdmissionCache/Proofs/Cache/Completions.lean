import AdmissionCache.Proofs.Cache.Linearization
import Mathlib.Data.List.Nodup
import Mathlib.Order.WithBot

namespace AdmissionCache

namespace Knowledge

/-- How recent knowledge is. Nothing is older than everything else. -/
def recency (k : Knowledge) : WithBot Nat := k.learnedAt?.map (·.nanos)

/-- What is known once something is brought: the newer of both, and what is brought on a tie. -/
def updated (known brought : Knowledge) : Knowledge :=
  if brought.recency < known.recency then known else brought

theorem updated_of_newer {known brought : Knowledge} (newer : brought.recency < known.recency) :
    known.updated brought = known := if_pos newer

theorem updated_of_le {known brought : Knowledge} (le : known.recency ≤ brought.recency) :
    known.updated brought = brought := if_neg (not_lt.mpr le)

/-- Knowledge never gets older. -/
theorem recency_le_updated (known brought : Knowledge) : known.recency ≤ (known.updated brought).recency := by
  by_cases newer : brought.recency < known.recency
  · rw [updated_of_newer newer]
  · rw [updated_of_le (not_lt.mp newer)]
    exact not_lt.mp newer

theorem updated_recency_le {known brought : Knowledge} {bound : WithBot Nat} (old : known.recency ≤ bound)
    (new : brought.recency ≤ bound) : (known.updated brought).recency ≤ bound := by
  by_cases newer : brought.recency < known.recency
  · rw [updated_of_newer newer]
    exact old
  · rw [updated_of_le (not_lt.mp newer)]
    exact new

/-- A completion whose result replaces all other knowledge. -/
theorem settle_brings {stamp : Instant} {brought : Knowledge} (stamped : brought.learnedAt? = some stamp)
    (known : Knowledge) :
    known.settle stamp (fun _ => some brought) =
      if brought.recency < known.recency then none else some brought := by
  have newer : (known.learnedAt?.any fun learnedAt => stamp.nanos < learnedAt.nanos) = true ↔
      brought.recency < known.recency := by
    rw [recency, recency, stamped]
    cases known.learnedAt? with
    | none => exact ⟨nofun, fun less => absurd less (WithBot.not_lt_bot _)⟩
    | some learnedAt =>
      rw [Option.any_some, decide_eq_true_iff]
      exact WithBot.coe_lt_coe.symm
  simp only [settle, newer]

theorem foldl_updated_of_newer {known : Knowledge} {brought : List Knowledge}
    (newer : ∀ k ∈ brought, k.recency < known.recency) : brought.foldl updated known = known := by
  induction brought with
  | nil => rfl
  | cons k brought ih =>
    rw [List.foldl_cons, updated_of_newer (newer k (List.mem_cons_self ..))]
    exact ih fun other member => newer other (List.mem_cons_of_mem _ member)

/-- Of what is brought the newest is known in the end, unless something newer was known before. -/
theorem foldl_updated_of_newest {known newest : Knowledge} {brought : List Knowledge} (member : newest ∈ brought)
    (distinct : (brought.map recency).Nodup) (greatest : ∀ k ∈ brought, k.recency ≤ newest.recency)
    (notNewer : known.recency ≤ newest.recency) : brought.foldl updated known = newest := by
  induction brought generalizing known with
  | nil => cases member
  | cons k brought ih =>
    rw [List.map_cons, List.nodup_cons] at distinct
    have greatestLater := fun other later => greatest other (List.mem_cons_of_mem k later)
    rw [List.foldl_cons]
    obtain rfl | later := List.mem_cons.mp member
    · rw [updated_of_le notNewer]
      refine foldl_updated_of_newer fun other later => lt_of_le_of_ne (greatestLater other later) fun same => ?_
      exact distinct.1 (List.mem_map.mpr ⟨other, later, same⟩)
    · exact ih later distinct.2 greatestLater (updated_recency_le notNewer (greatest k (List.mem_cons_self ..)))

theorem exists_newest {brought : List Knowledge} (some : brought ≠ []) :
    ∃ newest ∈ brought, ∀ k ∈ brought, k.recency ≤ newest.recency := by
  induction brought with
  | nil => exact absurd rfl some
  | cons k brought ih =>
    by_cases last : brought = []
    · subst last
      refine ⟨k, List.mem_cons_self .., fun other member => ?_⟩
      rw [List.mem_singleton.mp member]
    · obtain ⟨newest, member, greatest⟩ := ih last
      by_cases newer : newest.recency ≤ k.recency
      · refine ⟨k, List.mem_cons_self .., fun other either => ?_⟩
        obtain rfl | later := List.mem_cons.mp either
        · exact le_refl _
        · exact (greatest other later).trans newer
      · refine ⟨newest, List.mem_cons_of_mem _ member, fun other either => ?_⟩
        obtain rfl | later := List.mem_cons.mp either
        · exact (not_le.mp newer).le
        · exact greatest other later

/-- The order in which things with different stamps are brought does not matter. -/
theorem foldl_updated_perm {known : Knowledge} {brought brought' : List Knowledge} (same : brought'.Perm brought)
    (distinct : (brought.map recency).Nodup) : brought'.foldl updated known = brought.foldl updated known := by
  by_cases none : brought = []
  · rw [none] at same ⊢
    rw [same.eq_nil]
  · obtain ⟨newest, member, greatest⟩ := exists_newest none
    have distinct' : (brought'.map recency).Nodup := (same.map recency).nodup_iff.mpr distinct
    have greatest' (k : Knowledge) (within : k ∈ brought') : k.recency ≤ newest.recency :=
      greatest k (same.mem_iff.mp within)
    by_cases newer : newest.recency < known.recency
    · rw [foldl_updated_of_newer fun k within => (greatest' k within).trans_lt newer,
        foldl_updated_of_newer fun k within => (greatest k within).trans_lt newer]
    · rw [foldl_updated_of_newest (same.mem_iff.mpr member) distinct' greatest' (not_lt.mp newer),
        foldl_updated_of_newest member distinct greatest (not_lt.mp newer)]

end Knowledge

namespace Cache

/-- What a completion brings about a key, whatever is known about it. -/
def Operation.brings? (key : ProjectKey) : Operation → Option Knowledge
  | .put own config stamp => if own = key then some (.loaded config stamp) else none
  | .putMissing own stamp => if own = key then some (.missing stamp) else none
  | _ => none

/-- Whether an operation leaves alone what is known about a key: it asks, it ends a failed fetch, or
it is about another key. -/
def Operation.spares (key : ProjectKey) : Operation → Bool
  | .get _ _ | .peek _ _ | .knownRevision _ _ | .fail _ | .size | .isEmpty => true
  | .put own _ _ | .refresh own _ _ | .putMissing own _ | .applyOverride own _ _ | .invalidate own => own ≠ key
  | .evictExpired _ _ => false

/-- Completions that bring something about a key, mixed with operations that leave alone what is
known about it. -/
def Mixed (key : ProjectKey) (ops : List Operation) : Prop :=
  ∀ op ∈ ops, (op.brings? key).isSome = true ∨ op.spares key = true

/-- What such operations bring. -/
def brought (key : ProjectKey) (ops : List Operation) : List Knowledge := ops.filterMap (·.brings? key)

variable {c : Cache} {key : ProjectKey} {op : Operation} {k : Knowledge}

/-- A completion that brings something makes known the newer of it and what was known, and tells
whether it is taken. -/
theorem perform_brings (brings : op.brings? key = some k) :
    (c.perform op).1.knows key = (c.knows key).updated k ∧
      (c.perform op).2 = .taken (!decide (k.recency < (c.knows key).recency)) := by
  have completed {own stamp} (stamped : k.learnedAt? = some stamp) (same : own = key) :
      (c.complete own stamp fun _ => some k).1.knows key = (c.knows key).updated k ∧
        (c.complete own stamp fun _ => some k).2 = !decide (k.recency < (c.knows key).recency) := by
    subst same
    rw [knows_complete, if_pos rfl, taken_complete, Knowledge.settle_brings stamped]
    by_cases newer : k.recency < (c.knows own).recency
    · rw [if_pos newer, Knowledge.updated_of_newer newer, decide_eq_true newer]
      exact ⟨rfl, rfl⟩
    · rw [if_neg newer, Knowledge.updated_of_le (not_lt.mp newer), decide_eq_false newer]
      exact ⟨rfl, rfl⟩
  cases op with
  | put own config stamp =>
    rw [Operation.brings?] at brings
    split at brings
    · rename_i same
      cases brings
      obtain ⟨known, taken⟩ := completed rfl same
      exact ⟨known, congrArg Answer.taken taken⟩
    · cases brings
  | putMissing own stamp =>
    rw [Operation.brings?] at brings
    split at brings
    · rename_i same
      cases brings
      obtain ⟨known, taken⟩ := completed rfl same
      exact ⟨known, congrArg Answer.taken taken⟩
    · cases brings
  | _ => cases brings

theorem perform_spares (spares : op.spares key = true) : (c.perform op).1.knows key = c.knows key := by
  have completed {own stamp learn} (other : decide (own ≠ key) = true) :
      (c.complete own stamp learn).1.knows key = c.knows key := by
    rw [knows_complete, if_neg fun same => of_decide_eq_true other same.symm]
  cases op with
  | get own now =>
    rw [perform]
    cases got : c.get own now with
    | error fault => rfl
    | ok result => exact (get_looked got).knows key
  | peek own now =>
    rw [perform]
    cases c.peek own now <;> rfl
  | knownRevision own now =>
    rw [perform]
    cases c.knownRevision own now <;> rfl
  | put own config stamp =>
    have kept : (c.put own config stamp).1.knows key = c.knows key := completed spares
    exact kept
  | refresh own revision stamp =>
    have kept : (c.refresh own revision stamp).1.knows key = c.knows key := completed spares
    exact kept
  | putMissing own stamp =>
    have kept : (c.putMissing own stamp).1.knows key = c.knows key := completed spares
    exact kept
  | fail own => exact knows_fail ..
  | applyOverride own config now =>
    exact (knows_applyOverride ..).trans (if_neg fun same => of_decide_eq_true spares same.symm)
  | invalidate own => exact (knows_invalidate ..).trans (if_neg fun same => of_decide_eq_true spares same.symm)
  | evictExpired now => cases spares
  | size => rfl
  | isEmpty => rfl

theorem Mixed.append {before after : List Operation} :
    Mixed key (before ++ after) ↔ Mixed key before ∧ Mixed key after := List.forall_mem_append

/-- What is known after such operations. -/
theorem knows_performAll {ops : List Operation} (mixed : Mixed key ops) (c : Cache) :
    (c.performAll ops).1.knows key = (brought key ops).foldl Knowledge.updated (c.knows key) := by
  induction ops generalizing c with
  | nil => rfl
  | cons op ops ih =>
    have later := ih fun other member => mixed other (List.mem_cons_of_mem _ member)
    rw [performAll_cons, later]
    cases brings : op.brings? key with
    | some k =>
      have first : brought key (op :: ops) = k :: brought key ops := List.filterMap_cons_some brings
      rw [first, (perform_brings brings).1, List.foldl_cons]
    | none =>
      have first : brought key (op :: ops) = brought key ops := List.filterMap_cons_none brings
      have spares : op.spares key = true :=
        (mixed op (List.mem_cons_self ..)).resolve_left fun some => by rw [brings] at some; cases some
      rw [first, perform_spares spares]

/-- Such operations never make older what is known. -/
theorem recency_le_performAll {ops : List Operation} (mixed : Mixed key ops) (c : Cache) :
    (c.knows key).recency ≤ ((c.performAll ops).1.knows key).recency := by
  rw [knows_performAll mixed]
  generalize c.knows key = known
  induction brought key ops generalizing known with
  | nil => exact le_refl _
  | cons k later ih => exact (Knowledge.recency_le_updated known k).trans (ih _)

theorem length_performAll (c : Cache) (ops : List Operation) : (c.performAll ops).2.length = ops.length := by
  induction ops generalizing c with
  | nil => rfl
  | cons op ops ih =>
    rw [performAll_cons, List.length_cons, ih]
    rfl

/-- An operation answers what it answers in the state that the earlier ones have left. -/
theorem performAll_answer (c : Cache) (before : List Operation) (op : Operation) (after : List Operation) :
    (c.performAll (before ++ op :: after)).2[before.length]? = some ((c.performAll before).1.perform op).2 := by
  rw [performAll_append, performAll_cons, List.getElem?_append_right (by rw [length_performAll]), length_performAll,
    Nat.sub_self]
  rfl

/-- Completions that bring something about a key, each with its own stamp, mixed with operations that
leave alone what is known about it. What is known in the end depends neither on their order nor on the
other operations: it is the newest of what they bring, or what was known before if that is newer than
all of it. Each of them is taken if and only if nothing newer was known when it came, and nothing older
than what it found is ever known after it. -/
theorem completions_in_any_order (c : Cache) (key : ProjectKey) (ops : List Operation) (mixed : Mixed key ops)
    (distinct : ((brought key ops).map Knowledge.recency).Nodup) :
    let initial := c.knows key
    let final := (c.performAll ops).1.knows key
    (∀ other, Mixed key other → (brought key other).Perm (brought key ops) →
      (c.performAll other).1.knows key = final) ∧
    (∀ newest ∈ brought key ops, (∀ k ∈ brought key ops, k.recency ≤ newest.recency) →
      initial.recency ≤ newest.recency → final = newest) ∧
    ((∀ k ∈ brought key ops, k.recency < initial.recency) → final = initial) ∧
    ∀ before op after k, ops = before ++ op :: after → op.brings? key = some k →
      let found := (c.performAll before).1.knows key
      (c.performAll ops).2[before.length]? = some (.taken (!decide (k.recency < found.recency))) ∧
        ∀ later rest, after = later ++ rest →
          found.recency ≤ ((c.performAll (before ++ op :: later)).1.knows key).recency := by
  intro initial final
  have reached : final = (brought key ops).foldl Knowledge.updated initial := knows_performAll mixed c
  refine ⟨fun other mixed' same => ?_, fun newest member greatest notNewer => ?_, fun newer => ?_,
    fun before op after k parts brings => ⟨?_, fun later rest parts' => ?_⟩⟩
  · rw [reached, knows_performAll mixed' c]
    exact Knowledge.foldl_updated_perm same distinct
  · rw [reached]
    exact Knowledge.foldl_updated_of_newest member distinct greatest notNewer
  · rw [reached]
    exact Knowledge.foldl_updated_of_newer newer
  · rw [parts, performAll_answer, (perform_brings brings).2]
  · have onwards : Mixed key (op :: later) := by
      rw [parts, parts', ← List.cons_append, Mixed.append, Mixed.append] at mixed
      exact mixed.2.1
    rw [performAll_append]
    exact recency_le_performAll onwards _

/-- A miss and an older configuration, in both orders: the miss is known in the end, and the
configuration is not taken if it comes second. -/
theorem newest_known_in_both_orders :
    let c : Cache := ({ policy := ⟨.ofSecs 10, .zero, .ofSecs 1⟩ } : Cache).applyOverride "a" ⟨[]⟩ (.ofMillis 1)
    let config : Operation := .put "a" ⟨[]⟩ (.ofMillis 2)
    let miss : Operation := .putMissing "a" (.ofMillis 3)
    let ops : List Operation := [.get "a" (.ofMillis 5), config, .fail "b", miss]
    let other : List Operation := [miss, .peek "a" (.ofMillis 4), config]
    (c.performAll ops).1.knows "a" = .missing (.ofMillis 3) ∧
      (c.performAll other).1.knows "a" = .missing (.ofMillis 3) ∧
        (c.performAll other).2[2]? = some (.taken false) := by
  intro c config miss ops other
  have mixed : Mixed "a" ops := by unfold Mixed; decide +kernel
  have mixed' : Mixed "a" other := by unfold Mixed; decide +kernel
  have brings : brought "a" ops = [.loaded ⟨[]⟩ (.ofMillis 2), .missing (.ofMillis 3)] := rfl
  have brings' : brought "a" other = [.missing (.ofMillis 3), .loaded ⟨[]⟩ (.ofMillis 2)] := rfl
  have same : (brought "a" other).Perm (brought "a" ops) := by
    rw [brings, brings']
    exact .swap ..
  have member : .missing (.ofMillis 3) ∈ brought "a" ops := by
    rw [brings]
    exact List.mem_cons_of_mem _ (List.mem_cons_self ..)
  obtain ⟨anyOrder, newest, _⟩ := completions_in_any_order c "a" ops mixed (by decide +kernel)
  have final := newest _ member (by decide +kernel) (by decide +kernel)
  have answers := (completions_in_any_order c "a" other mixed' (by decide +kernel)).2.2.2
    [miss, .peek "a" (.ofMillis 4)] config [] (.loaded ⟨[]⟩ (.ofMillis 2)) rfl rfl
  have outdated : (Knowledge.loaded ⟨[]⟩ (.ofMillis 2)).recency <
      ((c.performAll [miss, .peek "a" (.ofMillis 4)]).1.knows "a").recency := by decide +kernel
  refine ⟨final, (anyOrder other mixed' same).trans final, answers.1.trans ?_⟩
  rw [decide_eq_true outdated]
  rfl

end Cache

end AdmissionCache
