import AdmissionCache.Record
import AdmissionCache.Yaml.Value
import Mathlib.Tactic.ByContra

namespace AdmissionCache

/-- The result is there, or the value is malformed. -/
def AtWorstMalformed {α : Type} (x : Except ReadFault α) : Prop := ∀ fault, x = .error fault → fault = .malformed

section Results

variable {α γ : Type} {x : Except ReadFault α} {fault : ReadFault}

@[simp] theorem atWorstMalformed_ok (a : α) : AtWorstMalformed (.ok a) := nofun

@[simp] theorem atWorstMalformed_malformed : AtWorstMalformed (.error .malformed : Except ReadFault α) :=
  fun _ same => (Except.error.inj same).symm

/-- A fault of two steps is one of the first, or one of the second after the first. -/
theorem bind_eq_error {next : α → Except ReadFault γ} :
    x >>= next = .error fault ↔ x = .error fault ∨ ∃ a, x = .ok a ∧ next a = .error fault := by
  cases x with
  | ok a => exact ⟨fun failed => .inr ⟨a, rfl, failed⟩, by rintro (⟨⟨⟩⟩ | ⟨_, ⟨⟩, failed⟩); exact failed⟩
  | error e => exact ⟨fun same => .inl (congrArg _ (Except.error.inj same)), by rintro (⟨⟨⟩⟩ | ⟨_, ⟨⟩, _⟩); rfl⟩

theorem bind_ok_eq_error {f : α → γ} : (x >>= fun a => .ok (f a)) = .error fault ↔ x = .error fault :=
  bind_eq_error.trans (or_iff_left (by rintro ⟨_, _, ⟨⟩⟩))

theorem AtWorstMalformed.bind {next : α → Except ReadFault γ} (first : AtWorstMalformed x)
    (rest : ∀ a, AtWorstMalformed (next a)) : AtWorstMalformed (x >>= next) := by
  intro fault failed
  obtain failed | ⟨a, _, failed⟩ := bind_eq_error.mp failed
  · exact first fault failed
  · exact rest a fault failed

theorem AtWorstMalformed.map {f : α → γ} (first : AtWorstMalformed x) : AtWorstMalformed (x.map f) :=
  first.bind fun a => atWorstMalformed_ok (f a)

theorem AtWorstMalformed.ne (shape : AtWorstMalformed x) (serious : fault ≠ .malformed) : x ≠ .error fault :=
  fun failed => serious (shape fault failed)

end Results

/-- Values that are malformed if one of their levels cannot be shown. -/
class Legible (β : Type) [Readable β] : Prop where
  view : ∀ b : β, AtWorstMalformed (Readable.view b)

instance : Legible Json where
  view b := by
    cases b with
    | number n => cases n <;> exact atWorstMalformed_ok _
    | _ => exact atWorstMalformed_ok _

theorem Nested.memberNames_shape (members : List (Option String × Written)) (depth : Nat) :
    AtWorstMalformed (Nested.memberNames members depth) := by
  induction members with
  | nil => exact atWorstMalformed_ok _
  | cons member rest ih =>
    obtain ⟨name, value⟩ := member
    cases name with
    | none => exact atWorstMalformed_malformed
    | some key => exact ih.bind fun _ => atWorstMalformed_ok _

instance : Legible Nested where
  view n := by
    obtain ⟨depth, value⟩ := n
    change AtWorstMalformed (Nested.view ⟨depth, value⟩)
    cases value with
    | null => exact atWorstMalformed_ok _
    | bool v => exact atWorstMalformed_ok _
    | number literal =>
      simp only [Nested.view]
      split <;> simp
    | string s => cases s <;> simp [Nested.view]
    | array items =>
      simp only [Nested.view]
      split <;> simp
    | object members =>
      simp only [Nested.view]
      split
      · exact (Nested.memberNames_shape members _).map
      · exact atWorstMalformed_malformed

instance : Legible Yaml.Value where
  view _ := atWorstMalformed_ok _

section Scalars

variable {α β : Type} [Readable β] [Legible β]

theorem readText_shape (b : β) : AtWorstMalformed (readText b) :=
  (Legible.view b).bind fun v => by cases v <;> simp

theorem readNat_shape (bound : Nat) (b : β) : AtWorstMalformed (readNat bound b) :=
  (Legible.view b).bind fun v => by
    split
    · split <;> simp
    · simp

theorem readNumber_shape (b : β) : AtWorstMalformed (readNumber b) :=
  (Legible.view b).bind fun v => by cases v <;> simp

theorem readMillis_shape (b : β) : AtWorstMalformed (readMillis b) := (readNat_shape _ b).map

theorem readOption_shape {read : β → Except ReadFault α} (shape : ∀ b, AtWorstMalformed (read b)) (b : β) :
    AtWorstMalformed (readOption read b) :=
  (Legible.view b).bind fun v => by
    split
    · exact atWorstMalformed_ok _
    · exact (shape b).map

end Scalars

namespace Field

variable {β σ : Type} {fields : List (Field β σ)} {fault : ReadFault}

theorem named_shape (fields : List (Field β σ)) (name : MemberName) : AtWorstMalformed (named fields name) := by
  cases name <;> simp [named]

theorem enterMembers_append (before after : List (MemberName × β)) (seen : List Nat) (record : σ) :
    enterMembers fields (before ++ after) seen record =
      enterMembers fields before seen record >>= fun r => enterMembers fields after r.1 r.2 := by
  induction before generalizing seen record with
  | nil => rfl
  | cons member before ih =>
    obtain ⟨name, b⟩ := member
    rw [List.cons_append, enterMembers, enterMembers]
    cases named fields name with
    | error e => rfl
    | ok index =>
      cases index with
      | none => exact ih seen record
      | some index =>
        change (if _ then _ else _) = (if _ then _ else _) >>= _
        split
        · rfl
        · cases fields[index]? with
          | none => rfl
          | some field =>
            change (field.enter b record >>= _) = (field.enter b record >>= _) >>= _
            cases field.enter b record with
            | error e => rfl
            | ok record => exact ih _ record

/-- Entering members comes to the value `b` of `field` when `record` has been made of what
stands before it. -/
inductive Met (fields : List (Field β σ)) (seen : List Nat) (start : σ) :
    List (MemberName × β) → Field β σ → β → σ → Prop
  | intro (before : List (MemberName × β)) {after name b known index field record} :
      enterMembers fields before seen start = .ok (known, record) → named fields name = .ok (some index) →
      known.contains index = false → fields[index]? = some field →
      Met fields seen start (before ++ (name, b) :: after) field b record

theorem Met.cons {member : MemberName × β} {members : List (MemberName × β)} {seen known : List Nat}
    {start next record : σ} {field : Field β σ} {b : β}
    (entered : enterMembers fields [member] seen start = .ok (known, next))
    (met : Met fields known next members field b record) : Met fields seen start (member :: members) field b record := by
  obtain @⟨before, _, _, _, seenThen, _, _, _, earlier, named, new, present⟩ := met
  have both : enterMembers fields (member :: before) seen start = .ok (seenThen, record) := by
    rw [← List.singleton_append, enterMembers_append, entered]
    exact earlier
  exact .intro (member :: before) both named new present

/-- A single member ends in a fault that is not its shape if a field takes it and refuses it. -/
theorem enterMember_eq_error_iff (serious : fault ≠ .malformed) {name : MemberName} {b : β} {seen : List Nat}
    {start : σ} : enterMembers fields [(name, b)] seen start = .error fault ↔
      ∃ index field, named fields name = .ok (some index) ∧ seen.contains index = false ∧
        fields[index]? = some field ∧ field.enter b start = .error fault := by
  have shape := (named_shape fields name).ne serious
  rw [enterMembers]
  cases named : named fields name with
  | error e =>
    rw [named] at shape
    exact ⟨fun failed => (shape (congrArg _ (Except.error.inj failed))).elim, by rintro ⟨_, _, ⟨⟩, _⟩⟩
  | ok index =>
    cases index with
    | none => exact ⟨nofun, by rintro ⟨_, _, ⟨⟩, _⟩⟩
    | some index =>
      change (if seen.contains index = true then _ else _) = _ ↔ _
      split
      · rename_i again
        refine ⟨fun failed => (serious (Except.error.inj failed).symm).elim, ?_⟩
        rintro ⟨_, _, ⟨⟩, new, _⟩
        exact (Bool.eq_false_iff.mp new again).elim
      · rename_i new
        cases present : fields[index]? with
        | none =>
          refine ⟨fun failed => (serious (Except.error.inj failed).symm).elim, ?_⟩
          rintro ⟨_, _, ⟨⟩, _, some, _⟩
          rw [present] at some
          cases some
        | some field =>
          change (field.enter b start >>= fun _ => .ok _) = _ ↔ _
          rw [bind_ok_eq_error]
          refine ⟨fun failed => ⟨index, field, rfl, Bool.eq_false_iff.mpr new, present, failed⟩, ?_⟩
          rintro ⟨_, _, ⟨⟩, _, same, failed⟩
          rw [present] at same
          cases same
          exact failed

theorem enterMembers_eq_error_iff (serious : fault ≠ .malformed) {members : List (MemberName × β)} {seen : List Nat}
    {start : σ} : enterMembers fields members seen start = .error fault ↔
      ∃ field b record, Met fields seen start members field b record ∧ field.enter b record = .error fault := by
  constructor
  · intro failed
    induction members generalizing seen start with
    | nil => cases failed
    | cons member rest ih =>
      rw [← List.singleton_append, enterMembers_append, bind_eq_error] at failed
      obtain first | ⟨_, entered, later⟩ := failed
      · obtain ⟨_, field, named, new, present, refused⟩ := (enterMember_eq_error_iff serious).mp first
        exact ⟨field, _, start, .intro [] rfl named new present, refused⟩
      · obtain ⟨field, b, record, met, refused⟩ := ih later
        exact ⟨field, b, record, met.cons entered, refused⟩
  · rintro ⟨field, b, record, ⟨_, earlier, named, new, present⟩, refused⟩
    have here := (enterMember_eq_error_iff serious).mpr ⟨_, field, named, new, present, refused⟩
    rw [enterMembers_append, earlier, ← List.singleton_append]
    change enterMembers fields (_ ++ _) _ record = _
    rw [enterMembers_append, here]
    rfl

theorem enterItems_append {earlier : List (Field β σ)} {before : List β} (aligned : before.length = earlier.length)
    (later : List (Field β σ)) (after : List β) (record : σ) :
    enterItems (earlier ++ later) (before ++ after) record =
      enterItems earlier before record >>= enterItems later after := by
  induction earlier generalizing before record with
  | nil =>
    cases List.length_eq_zero_iff.mp aligned
    rfl
  | cons field earlier ih =>
    cases before with
    | nil => cases aligned
    | cons b before =>
      rw [List.cons_append, List.cons_append, enterItems, enterItems]
      cases field.enter b record with
      | error e => rfl
      | ok record => exact ih (Nat.succ.inj aligned) record

/-- Entering values by position comes to the value `b` of `field` when `record` has been made
of those before it. -/
inductive MetAt (start : σ) : List (Field β σ) → List β → Field β σ → β → σ → Prop
  | intro (earlier : List (Field β σ)) (before : List β) {later field after b record} :
      before.length = earlier.length → enterItems earlier before start = .ok record →
      MetAt start (earlier ++ field :: later) (before ++ b :: after) field b record

theorem MetAt.cons {first field : Field β σ} {head b : β} {values : List β} {start next record : σ}
    (entered : first.enter head start = .ok next) (met : MetAt next fields values field b record) :
    MetAt start (first :: fields) (head :: values) field b record := by
  obtain ⟨earlier, before, aligned, entries⟩ := met
  have both : enterItems (first :: earlier) (head :: before) start = .ok record := by
    rw [enterItems, entered]
    exact entries
  exact .intro (first :: earlier) (head :: before) (congrArg Nat.succ aligned) both

theorem enterItems_eq_error_iff (serious : fault ≠ .malformed) {values : List β} {start : σ} :
    enterItems fields values start = .error fault ↔
      ∃ field b record, MetAt start fields values field b record ∧ field.enter b record = .error fault := by
  constructor
  · intro failed
    induction fields generalizing values start with
    | nil =>
      cases values with
      | nil => cases failed
      | cons b rest => exact (serious (Except.error.inj failed).symm).elim
    | cons field fields ih =>
      cases values with
      | nil =>
        change (if _ then _ else _) = _ at failed
        split at failed
        · cases failed
        · exact (serious (Except.error.inj failed).symm).elim
      | cons b rest =>
        rw [enterItems, bind_eq_error] at failed
        obtain first | ⟨next, entered, later⟩ := failed
        · exact ⟨field, b, start, .intro [] [] rfl rfl, first⟩
        · obtain ⟨other, v, record, met, refused⟩ := ih later
          exact ⟨other, v, record, met.cons entered, refused⟩
  · rintro ⟨field, b, record, ⟨_, _, aligned, earlier⟩, refused⟩
    rw [enterItems_append aligned, earlier]
    change enterItems (field :: _) (b :: _) record = _
    rw [enterItems, refused]
    rfl

end Field

/-- Reading a record from `b` comes to the value `v` of `field` when `record` has been made of
what stands before it. -/
inductive Comes {β σ : Type} [Readable β] (fields : List (Field β σ)) (start : σ) (b : β) :
    Field β σ → β → σ → Prop
  | member {members field v record} : Readable.view b = .ok (.members members) →
      Field.Met fields [] start members field v record → Comes fields start b field v record
  | item {values field v record} : Readable.view b = .ok (.items values) →
      Field.MetAt start fields values field v record → Comes fields start b field v record

section Records

variable {β σ : Type} {fields : List (Field β σ)} {start record : σ} {b v : β} {field : Field β σ} {fault : ReadFault}

theorem Comes.mem [Readable β] (comes : Comes fields start b field v record) : field ∈ fields := by
  cases comes with
  | member _ met =>
    obtain ⟨_, _, _, _, present⟩ := met
    exact List.mem_of_getElem? present
  | item _ met =>
    obtain ⟨_, _, _, _⟩ := met
    exact List.mem_append_right _ List.mem_cons_self

theorem readMembers_eq_error_iff (serious : fault ≠ .malformed) {members : List (MemberName × β)} :
    readMembers fields start members = .error fault ↔
      ∃ field v record, Field.Met fields [] start members field v record ∧ field.enter v record = .error fault := by
  rw [← Field.enterMembers_eq_error_iff serious, readMembers, bind_eq_error]
  refine ⟨?_, Or.inl⟩
  rintro (failed | ⟨⟨seen, record⟩, _, incomplete⟩)
  · exact failed
  · change (if Field.complete fields seen = true then _ else _) = _ at incomplete
    split at incomplete
    · cases incomplete
    · exact (serious (Except.error.inj incomplete).symm).elim

/-- A fault other than the shape of a value is the fault of a field that the reading comes to. -/
theorem readRecord_eq_error_iff [Readable β] [Legible β] (serious : fault ≠ .malformed) :
    readRecord fields start b = .error fault ↔
      ∃ field v record, Comes fields start b field v record ∧ field.enter v record = .error fault := by
  constructor
  · intro failed
    rw [readRecord, bind_eq_error] at failed
    obtain unseen | ⟨view, seen, later⟩ := failed
    · exact ((Legible.view b).ne serious unseen).elim
    · split at later
      · obtain ⟨field, v, record, met, refused⟩ := (readMembers_eq_error_iff serious).mp later
        exact ⟨field, v, record, .member seen met, refused⟩
      · obtain ⟨field, v, record, met, refused⟩ := (Field.enterItems_eq_error_iff serious).mp later
        exact ⟨field, v, record, .item seen met, refused⟩
      · exact (serious (Except.error.inj later).symm).elim
  · rintro ⟨field, v, record, comes, refused⟩
    cases comes with
    | member seen met =>
      rw [readRecord, seen]
      exact (readMembers_eq_error_iff serious).mpr ⟨field, v, record, met, refused⟩
    | item seen met =>
      rw [readRecord, seen]
      exact (Field.enterItems_eq_error_iff serious).mpr ⟨field, v, record, met, refused⟩

/-- A record whose fields need no more than the right shape needs no more itself. -/
theorem readRecord_shape [Readable β] [Legible β]
    (shapes : ∀ field ∈ fields, ∀ v record, AtWorstMalformed (field.enter v record)) :
    AtWorstMalformed (readRecord fields start b) := by
  intro fault failed
  by_contra serious
  obtain ⟨field, v, record, comes, refused⟩ := (readRecord_eq_error_iff serious).mp failed
  exact serious (shapes field comes.mem v record fault refused)

end Records

end AdmissionCache
