import AdmissionCache.Record
import Mathlib.Data.List.Nodup

namespace AdmissionCache

/-- Two steps succeed if the first does and the second does after it. -/
theorem bind_eq_ok {ε α γ : Type} {x : Except ε α} {next : α → Except ε γ} {c : γ} :
    x >>= next = .ok c ↔ ∃ a, x = .ok a ∧ next a = .ok c := by
  cases x with
  | ok a => exact ⟨fun done => ⟨a, rfl, done⟩, by rintro ⟨_, ⟨⟩, done⟩; exact done⟩
  | error e => exact ⟨nofun, by rintro ⟨_, ⟨⟩, _⟩⟩

namespace Field
variable {β σ : Type} {fields : List (Field β σ)} {name : String} {index : Nat} {members : List (String × β)}

/-- The place of the field with the given name. -/
def place? (fields : List (Field β σ)) (name : String) : Option Nat := fields.findIdx? fun f => f.name == name

/-- Enters a member into the field of its name, if there is one. -/
def enterNamed (fields : List (Field β σ)) (record : σ) (member : String × β) : Except ReadFault σ :=
  match (place? fields member.1).bind (fields[·]?) with
  | some field => field.enter member.2 record
  | none => .ok record

/-- The members of a mapping whose names are all text. -/
def texts (members : List (String × β)) : List (MemberName × β) := members.map fun m => (.text m.1, m.2)

/-- The places of the fields that members are entered into, the last one first. -/
def entered (fields : List (Field β σ)) (members : List (String × β)) : List Nat :=
  (members.filterMap fun m => place? fields m.1).reverse

theorem entered_cons (fields : List (Field β σ)) (member : String × β) (rest : List (String × β)) :
    entered fields (member :: rest) = entered fields rest ++ (place? fields member.1).toList := by
  unfold entered
  cases found : place? fields member.1 with
  | none => rw [List.filterMap_cons, found, Option.toList_none, List.append_nil]
  | some index => rw [List.filterMap_cons, found, List.reverse_cons, Option.toList_some]

theorem place?_eq_some (found : place? fields name = some index) :
    ∃ field, fields[index]? = some field ∧ field.name = name := by
  obtain ⟨inside, named, _⟩ := List.findIdx?_eq_some_iff_getElem.mp found
  exact ⟨fields[index], List.getElem?_eq_getElem inside, beq_iff_eq.mp named⟩

theorem place?_of_getElem? {field : Field β σ} (distinct : (fields.map (·.name)).Nodup)
    (present : fields[index]? = some field) : place? fields field.name = some index := by
  cases found : place? fields field.name with
  | none =>
    have unnamed := List.findIdx?_eq_none_iff.mp found field (List.mem_of_getElem? present)
    rw [beq_self_eq_true] at unnamed
    cases unnamed
  | some other =>
    obtain ⟨namesake, there, same⟩ := place?_eq_some found
    have named : (fields.map (·.name))[index]? = (fields.map (·.name))[other]? := by
      rw [List.getElem?_map, List.getElem?_map, present, there, Option.map_some, Option.map_some, same]
    have inside : index < (fields.map (·.name)).length := by
      rw [List.length_map]
      exact (List.getElem?_eq_some_iff.mp present).1
    rw [(List.getElem?_inj inside distinct).mp named]

/-- No field is entered twice where no name occurs twice. -/
theorem enterMembers_distinct {seen : List Nat} {record : σ} (once : (members.map (·.1)).Nodup)
    (fresh : ∀ m ∈ members, ∀ index, place? fields m.1 = some index → index ∉ seen) :
    enterMembers fields (texts members) seen record =
      (members.foldlM (enterNamed fields) record).map (entered fields members ++ seen, ·) := by
  induction members generalizing seen record with
  | nil => rfl
  | cons member rest ih =>
    rw [List.map_cons, List.nodup_cons] at once
    rw [List.foldlM_cons, entered_cons]
    change (Except.ok (place? fields member.1) >>= _) = _
    cases found : place? fields member.1 with
    | none =>
      have skipped : enterNamed fields record member = .ok record := by rw [enterNamed, found, Option.bind_none]
      rw [skipped, Option.toList_none, List.append_nil]
      exact ih once.2 fun m later => fresh m (List.mem_cons_of_mem _ later)
    | some index =>
      obtain ⟨field, present, own⟩ := place?_eq_some found
      have new : seen.contains index = false := by
        simpa using fresh member List.mem_cons_self index found
      have taken : enterNamed fields record member = field.enter member.2 record := by
        rw [enterNamed, found, Option.bind_some, present]
      rw [taken, Option.toList_some, List.append_assoc, List.singleton_append]
      change (if seen.contains index = true then _ else _) = _
      rw [new, if_neg Bool.false_ne_true, present]
      change (field.enter member.2 record >>= fun r => enterMembers fields (texts rest) (index :: seen) r) = _
      cases field.enter member.2 record with
      | error e => rfl
      | ok next =>
        refine ih once.2 fun m later i found' inside => ?_
        rcases List.mem_cons.mp inside with rfl | old
        · obtain ⟨namesake, present', own'⟩ := place?_eq_some found'
          rw [present] at present'
          cases present'
          exact once.1 (own.symm.trans own' ▸ List.mem_map_of_mem (f := (·.1)) later)
        · exact fresh m (List.mem_cons_of_mem _ later) i found' old

theorem complete_entered (distinct : (fields.map (·.name)).Nodup)
    (all : ∀ field ∈ fields, field.presence = .required → field.name ∈ members.map (·.1)) :
    complete fields (entered fields members) = true := by
  refine List.all_eq_true.mpr ?_
  rintro ⟨field, index⟩ member
  have present := List.mem_zipIdx_iff_getElem?.mp member
  by_cases required : field.presence = .required
  · obtain ⟨m, inside, own⟩ := List.mem_map.mp (all field (List.mem_of_getElem? present) required)
    have found : place? fields m.1 = some index := own ▸ place?_of_getElem? distinct present
    have seen : index ∈ entered fields members :=
      List.mem_reverse.mpr (List.mem_filterMap.mpr ⟨m, inside, found⟩)
    simp [seen]
  · simp [required]

end Field

section Records
variable {β σ : Type} {fields : List (Field β σ)}

/-- From a mapping without repetitions that holds all that it has to hold, the members are entered one
after the other. -/
theorem readMembers_distinct {members : List (String × β)} (distinct : (fields.map (·.name)).Nodup)
    (once : (members.map (·.1)).Nodup)
    (all : ∀ field ∈ fields, field.presence = .required → field.name ∈ members.map (·.1)) (record : σ) :
    readMembers fields record (Field.texts members) = members.foldlM (Field.enterNamed fields) record := by
  have complete := Field.complete_entered distinct all
  rw [readMembers, Field.enterMembers_distinct once fun _ _ _ _ => List.not_mem_nil, List.append_nil]
  cases members.foldlM (Field.enterNamed fields) record with
  | error e => rfl
  | ok record => exact if_pos complete

end Records

section Kept
variable {β σ : Type} {fields : List (Field β σ)} {P : σ → Prop}

/-- Whatever is entered into one of the fields keeps what the record had. -/
def EachKeeps (fields : List (Field β σ)) (P : σ → Prop) : Prop :=
  ∀ field ∈ fields, ∀ b r r', P r → field.enter b r = .ok r' → P r'

theorem Field.enterMembers_keeps (kept : EachKeeps fields P) {members : List (MemberName × β)} {seen known : List Nat}
    {record result : σ} (start : P record) (done : enterMembers fields members seen record = .ok (known, result)) :
    P result := by
  induction members generalizing seen record with
  | nil =>
    cases done
    exact start
  | cons member rest ih =>
    obtain ⟨name, b⟩ := member
    obtain ⟨place, _, done⟩ := bind_eq_ok.mp done
    cases place with
    | none => exact ih start done
    | some index =>
      change (if seen.contains index = true then _ else _) = _ at done
      split at done
      · cases done
      · split at done
        · cases done
        · rename_i field present
          obtain ⟨next, entered, done⟩ := bind_eq_ok.mp done
          exact ih (kept field (List.mem_of_getElem? present) b record next start entered) done

theorem Field.enterItems_keeps (kept : EachKeeps fields P) {values : List β} {record result : σ} (start : P record)
    (done : enterItems fields values record = .ok result) : P result := by
  induction fields generalizing values record with
  | nil =>
    cases values with
    | nil =>
      cases done
      exact start
    | cons b rest => cases done
  | cons field fields ih =>
    cases values with
    | nil =>
      change (if _ then _ else _) = _ at done
      split at done
      · cases done
        exact start
      · cases done
    | cons b rest =>
      obtain ⟨next, entered, done⟩ := bind_eq_ok.mp done
      exact ih (fun f inside => kept f (List.mem_cons_of_mem _ inside))
        (kept field List.mem_cons_self b record next start entered) done

/-- What holds at first and what every field keeps holds of whatever is read. -/
theorem readRecord_keeps [Readable β] (kept : EachKeeps fields P) {record result : σ} {b : β} (start : P record)
    (read : readRecord fields record b = .ok result) : P result := by
  obtain ⟨view, _, done⟩ := bind_eq_ok.mp read
  split at done
  · obtain ⟨⟨known, last⟩, entered, done⟩ := bind_eq_ok.mp done
    change (if Field.complete fields known = true then _ else _) = _ at done
    split at done
    · cases done
      exact Field.enterMembers_keeps kept start entered
    · cases done
  · exact Field.enterItems_keeps kept start done
  · cases done

theorem readEntries_keeps [Readable β] {α : Type} {P : α → Prop} {read : β → Except ReadFault α}
    (each : ∀ b a, read b = .ok a → P a) {members : List (MemberName × β)} {entries : List (String × α)}
    (done : readEntries read members = .ok entries) : ∀ e ∈ entries, P e.2 := by
  induction members generalizing entries with
  | nil =>
    cases done
    exact List.forall_mem_nil _
  | cons member rest ih =>
    obtain ⟨name, b⟩ := member
    cases name with
    | text key =>
      obtain ⟨value, taken, done⟩ := bind_eq_ok.mp done
      obtain ⟨values, others, done⟩ := bind_eq_ok.mp done
      cases done
      exact List.forall_mem_cons.mpr ⟨each b value taken, ih others⟩
    | position index => cases done
    | nameless => cases done

end Kept

end AdmissionCache
