import AdmissionCache.Proofs.Record.Mappings
import AdmissionCache.Proofs.Service.Precedence

namespace AdmissionCache

theorem readText_string (s : String) : readText (Json.string s) = .ok s := rfl

section Values
variable {α : Type} {read : Json → Except ReadFault α} {write : α → Json}

theorem readAll_map (inverse : ∀ a, read (write a) = .ok a) (values : List α) :
    readAll read (values.map write) = .ok values := by
  induction values with
  | nil => rfl
  | cons a rest ih =>
    rw [List.map_cons, readAll, inverse, ih]
    rfl

theorem readList_array (inverse : ∀ a, read (write a) = .ok a) (values : List α) :
    readList read (.array (values.map write)) = .ok values := readAll_map inverse values

theorem readOption_of_ne_null {j : Json} (there : j ≠ .null) : readOption read j = (read j).map some := by
  cases j with
  | null => exact absurd rfl there
  | number n => cases n <;> rfl
  | _ => rfl

theorem readOption_ofOption (inverse : ∀ a, read (write a) = .ok a) (there : ∀ a, write a ≠ .null) (o : Option α) :
    readOption read (Json.ofOption write o) = .ok o := by
  cases o with
  | none => rfl
  | some a => exact (readOption_of_ne_null (there a)).trans (congrArg _ (inverse a))

variable (write) in
theorem readEntries_map {entries : List (String × α)} (inverse : ∀ e ∈ entries, read (write e.2) = .ok e.2) :
    readEntries read (Field.texts (entries.map fun e => (e.1, write e.2))) = .ok entries := by
  induction entries with
  | nil => rfl
  | cons e rest ih =>
    obtain ⟨here, later⟩ := List.forall_mem_cons.mp inverse
    have others := ih later
    simp only [Field.texts, List.map_cons, readEntries] at others ⊢
    rw [here, others]
    rfl

end Values

theorem foldlM_append_of_ok {ε σ μ : Type} {f : σ → μ → Except ε σ} {record next : σ} {earlier later : List μ}
    (entered : earlier.foldlM f record = .ok next) : (earlier ++ later).foldlM f record = later.foldlM f next := by
  rw [List.foldlM_append, entered]
  rfl

namespace ConfigsRequest

/-- The members of the wire form in key order. -/
def members (r : ConfigsRequest) : List (String × Json) :=
  [("fullConfig", .bool r.fullConfig), ("global", .bool r.global), ("noCache", .bool r.noCache),
    ("publicKeys", .array (r.publicKeys.map .string))] ++ r.revisionsMember

theorem toJson_eq (r : ConfigsRequest) : r.toJson = .object r.members := by
  cases found : r.revisions with
  | none =>
    simp only [toJson, members, revisionsMember, found, List.append_nil, List.cons_append, List.nil_append,
      Json.ofMembers, List.foldl_cons, List.foldl_nil, Json.setMember, String.reduceLT, String.reduceEq, if_true, if_false]
  | some revisions =>
    simp only [toJson, members, revisionsMember, found, List.cons_append, List.nil_append,
      Json.ofMembers, List.foldl_cons, List.foldl_nil, Json.setMember, String.reduceLT, String.reduceEq, if_true, if_false]

theorem names_nodup (r : ConfigsRequest) : (r.members.map (·.1)).Nodup := by
  cases found : r.revisions with
  | none => simp [members, revisionsMember, found]
  | some revisions => simp [members, revisionsMember, found]

theorem enter_keys (record : ConfigsRequest) (keys : List ProjectKey) :
    Field.enterNamed fields record ("publicKeys", Json.array (keys.map .string)) =
      .ok { record with publicKeys := keys } := by
  change (readList readText (Json.array (keys.map .string)) >>= _) = _
  rw [readList_array readText_string]
  rfl

/-- Revisions that are left out are none. -/
theorem enter_revisions (r record : ConfigsRequest) (absent : record.revisions = none) :
    r.revisionsMember.foldlM (Field.enterNamed fields) record = .ok { record with revisions := r.revisions } := by
  unfold revisionsMember
  cases r.revisions with
  | none =>
    have same : record = { record with revisions := none } := by rw [← absent]
    exact congrArg Except.ok same
  | some revisions =>
    have taken : readList (readOption readText) (Json.array (revisions.map (Json.ofOption .string))) = .ok revisions :=
      readList_array (readOption_ofOption readText_string fun _ => Json.noConfusion) revisions
    rw [List.foldlM_cons]
    change (((readList (readOption readText) _).map some >>= _) >>= _) = _
    rw [taken]
    rfl

/-- A request is read back as it was written. -/
theorem read_toJson (r : ConfigsRequest) : read r.toJson = .ok r := by
  have named : ∀ field ∈ fields (β := Json), field.presence = .required → field.name ∈ r.members.map (·.1) := by
    simp [fields, members]
  have listed : [("fullConfig", Json.bool r.fullConfig), ("global", .bool r.global), ("noCache", .bool r.noCache),
      ("publicKeys", .array (r.publicKeys.map .string))].foldlM (Field.enterNamed fields) {} =
        .ok { r with revisions := none } := by
    simp only [List.foldlM_cons, List.foldlM_nil]
    change (Field.enterNamed fields _ ("publicKeys", _) >>= _) = _
    rw [enter_keys]
    rfl
  rw [toJson_eq]
  calc read (Json.object r.members)
    _ = readMembers fields {} (Field.texts r.members) := rfl
    _ = r.members.foldlM (Field.enterNamed fields) {} := readMembers_distinct (by decide) r.names_nodup named {}
    _ = r.revisionsMember.foldlM (Field.enterNamed fields) { r with revisions := none } := foldlM_append_of_ok listed
    _ = .ok r := enter_revisions r _ rfl

/-- A request tells the revisions of a batch: for each of its keys the one it is paired with, and for
other keys none. -/
def Tells (r : ConfigsRequest) (batch : List AskedKey) : Prop :=
  (∀ a ∈ batch, r.revision? a.1 = a.2) ∧ ∀ key, key ∉ batch.map (·.1) → r.revision? key = none

theorem ofBatch_tells {batch : List AskedKey} (distinct : (batch.map (·.1)).Nodup) : (ofBatch batch).Tells batch := by
  refine ⟨fun a member => revision?_ofBatch distinct member, fun key absent => ?_⟩
  have unlisted : (batch.map (·.1)).findIdx? (· == key) = none := by
    rw [List.findIdx?_eq_none_iff]
    intro k inside
    exact beq_eq_false_iff_ne.mpr fun same => absent (same ▸ inside)
  rw [revision?, ofBatch, unlisted]
  rfl

theorem member?_revisions (r : ConfigsRequest) :
    r.toJson.member? "revisions" = r.revisions.map fun revisions => .array (revisions.map (Json.ofOption .string)) := by
  rw [toJson_eq, members, revisionsMember]
  cases r.revisions with
  | none => rfl
  | some revisions => rfl

theorem member?_publicKeys (r : ConfigsRequest) :
    r.toJson.member? "publicKeys" = some (.array (r.publicKeys.map .string)) := by
  rw [toJson_eq]
  rfl

theorem ofBatch_revisions (batch : List AskedKey) :
    ((ofBatch batch).revisions = none ↔ ∀ a ∈ batch, a.2 = none) ∧
    ∀ revisions, (ofBatch batch).revisions = some revisions → revisions.length = (ofBatch batch).publicKeys.length := by
  by_cases known : batch.any (·.2.isSome) = true
  · have sent : (ofBatch batch).revisions = some (batch.map (·.2)) := if_pos known
    rw [sent]
    refine ⟨⟨fun none => absurd none (Option.some_ne_none _), fun none => ?_⟩, fun revisions same => ?_⟩
    · obtain ⟨a, member, some⟩ := List.any_eq_true.mp known
      rw [none a member] at some
      cases some
    · rw [← Option.some.inj same, ofBatch, List.length_map, List.length_map]
  · have unsent : (ofBatch batch).revisions = none := if_neg known
    rw [unsent]
    refine ⟨⟨fun _ a member => ?_, fun _ => rfl⟩, fun revisions same => absurd same.symm (Option.some_ne_none revisions)⟩
    rw [Bool.not_eq_true, List.any_eq_false] at known
    exact Option.not_isSome_iff_eq_none.mp (known a member)

end ConfigsRequest

namespace ConfigsResponse

/-- No value that is there is null: null stands for a deleted project, and for the global configuration
that is not there. -/
structure NullFree (r : ConfigsResponse) : Prop where
  configs : ∀ key, r.configs.get? key ≠ some (some .null)
  global : r.global ≠ some .null

theorem readDocument?_ne_null {j : Json} {document : Option Json} (read : readDocument? j = .ok document) :
    document ≠ some .null := by
  cases j with
  | null => cases read; nofun
  | _ => cases read; nofun

theorem readConfigs_ne_null {j : Json} {configs : KeyMap (Option Json)} (read : readConfigs j = .ok configs)
    (key : ProjectKey) : configs.get? key ≠ some (some .null) := by
  cases j with
  | object members =>
    change (readEntries readDocument? _).map KeyMap.ofList = _ at read
    cases told : readEntries readDocument? (Field.texts members) with
    | error e =>
      rw [← Field.texts, told] at read
      cases read
    | ok entries =>
      rw [← Field.texts, told] at read
      cases read
      intro found
      exact readEntries_keeps (fun _ _ => readDocument?_ne_null) told _ (KeyMap.mem_of_get?_ofList found) rfl
  | number n => cases n <;> cases read
  | _ => cases read

theorem fields_keep_nullFree : EachKeeps (fields (β := Json)) NullFree := by
  intro field member b r r' sound entered
  simp only [fields, List.mem_cons, List.not_mem_nil, or_false] at member
  rcases member with rfl | rfl | rfl | rfl | rfl
  · obtain ⟨configs, read, same⟩ := bind_eq_ok.mp entered
    cases same
    exact ⟨readConfigs_ne_null read, sound.global⟩
  · obtain ⟨_, _, same⟩ := bind_eq_ok.mp entered
    cases same
    exact ⟨sound.configs, sound.global⟩
  · obtain ⟨_, _, same⟩ := bind_eq_ok.mp entered
    cases same
    exact ⟨sound.configs, sound.global⟩
  · obtain ⟨global, read, same⟩ := bind_eq_ok.mp entered
    cases same
    exact ⟨sound.configs, readDocument?_ne_null read⟩
  · obtain ⟨_, _, same⟩ := bind_eq_ok.mp entered
    cases same
    exact ⟨sound.configs, sound.global⟩

theorem nullFree_default : NullFree {} where
  configs key := by rw [KeyMap.get?_empty]; nofun
  global := (nofun : (none : Option Json) ≠ some .null)

theorem nullFree_of_read {j : Json} {r : ConfigsResponse} (read : read j = .ok r) : r.NullFree :=
  readRecord_keeps fields_keep_nullFree nullFree_default read

/-- The members of the wire form in key order. -/
def members (r : ConfigsResponse) : List (String × Json) :=
  [("configs", .object (r.configs.toList.map fun e => (e.1, e.2.getD .null)))] ++
    (r.global.map fun g => ("global", g)).toList ++
    (r.globalStatus.map fun s => ("global_status", Json.string s.name)).toList ++
    listMember "pending" r.pending ++ listMember "unchanged" r.unchanged

theorem toJson_eq (r : ConfigsResponse) : r.toJson = .object r.members := by
  unfold toJson members listMember
  cases r.pending.isEmpty <;> cases r.unchanged.isEmpty <;> cases r.global <;> cases r.globalStatus <;>
    simp only [Bool.false_eq_true, if_true, if_false, Option.map_some, Option.map_none, Option.toList_some,
      Option.toList_none, List.append_nil, List.cons_append, List.nil_append, Json.ofMembers, List.foldl_cons,
      List.foldl_nil, Json.setMember, String.reduceLT, String.reduceEq]

theorem names_nodup (r : ConfigsResponse) : (r.members.map (·.1)).Nodup := by
  unfold members listMember
  cases r.pending.isEmpty <;> cases r.unchanged.isEmpty <;> cases r.global <;> cases r.globalStatus <;> simp

/-- A member that is left out for its default is entered as if it were there. -/
theorem enter_optional {α : Type} {name : String} {write : α → Json} {record : ConfigsResponse}
    (next : Option α → ConfigsResponse) {o : Option α} (absent : next none = record)
    (taken : ∀ a, o = some a → Field.enterNamed (fields (β := Json)) record (name, write a) = .ok (next (some a))) :
    (o.map fun a => (name, write a)).toList.foldlM (Field.enterNamed fields) record = .ok (next o) := by
  cases o with
  | none => exact congrArg Except.ok absent.symm
  | some a =>
    rw [Option.map_some, Option.toList_some, List.foldlM_cons, taken a rfl]
    rfl

theorem enter_listMember (name : String) {record : ConfigsResponse} (next : List ProjectKey → ConfigsResponse)
    (absent : next [] = record)
    (taken : ∀ j : Json, Field.enterNamed fields record (name, j) = (readList readText j).map next)
    (keys : List ProjectKey) : (listMember name keys).foldlM (Field.enterNamed fields) record = .ok (next keys) := by
  cases keys with
  | nil => exact congrArg Except.ok absent.symm
  | cons key rest =>
    have read := readList_array readText_string (key :: rest)
    rw [listMember, List.isEmpty_cons, if_neg Bool.false_ne_true, List.foldlM_cons, taken, read]
    rfl

theorem readConfigs_object {configs : KeyMap (Option Json)} (there : ∀ key, configs.get? key ≠ some (some .null)) :
    readConfigs (Json.object (configs.toList.map fun e => (e.1, e.2.getD .null))) = .ok configs := by
  have inverse : ∀ e ∈ configs.toList, readDocument? (e.2.getD Json.null) = .ok e.2 := by
    rintro ⟨key, document⟩ member
    have held := (configs.mem_toList_iff key document).mp member
    cases document with
    | none => rfl
    | some j =>
      cases j with
      | null => exact absurd held (there key)
      | _ => rfl
  have read := readEntries_map (fun o : Option Json => o.getD .null) inverse
  change (readEntries readDocument? (Field.texts _)).map KeyMap.ofList = _
  rw [read]
  exact congrArg Except.ok configs.ofList_toList

theorem readDocument?_of_ne_null {j : Json} (there : j ≠ .null) : readDocument? j = .ok (some j) := by
  cases j with
  | null => exact absurd rfl there
  | _ => rfl

theorem enter_members (r : ConfigsResponse) (sound : r.NullFree) :
    r.members.foldlM (Field.enterNamed fields) {} = .ok r := by
  have configs : [("configs", Json.object (r.configs.toList.map fun e => (e.1, e.2.getD .null)))].foldlM
      (Field.enterNamed fields) {} = .ok { configs := r.configs : ConfigsResponse } := by
    rw [List.foldlM_cons]
    change ((readConfigs (Json.object _) >>= _) >>= _) = _
    rw [readConfigs_object sound.configs]
    rfl
  have global : (r.global.map fun g => ("global", g)).toList.foldlM (Field.enterNamed fields)
      { configs := r.configs } = .ok { configs := r.configs, global := r.global } := by
    refine enter_optional (fun g => { configs := r.configs, global := g }) rfl fun g there => ?_
    have read := readDocument?_of_ne_null fun null : g = .null => sound.global (null ▸ there)
    change (readDocument? g >>= _) = _
    rw [read]
    rfl
  have status : (r.globalStatus.map fun s => ("global_status", Json.string s.name)).toList.foldlM
      (Field.enterNamed fields) { configs := r.configs, global := r.global } =
        .ok { configs := r.configs, global := r.global, globalStatus := r.globalStatus } := by
    refine enter_optional (fun s => { configs := r.configs, global := r.global, globalStatus := s }) rfl fun s _ => ?_
    cases s <;> rfl
  have pending := enter_listMember "pending" (fun keys => { r with pending := keys, unchanged := [] }) rfl (fun _ => rfl)
    r.pending
  have unchanged := enter_listMember "unchanged" (fun keys => { r with unchanged := keys }) rfl (fun _ => rfl) r.unchanged
  have withGlobal := (foldlM_append_of_ok configs).trans global
  have withStatus := (foldlM_append_of_ok withGlobal).trans status
  have withPending := (foldlM_append_of_ok withStatus).trans pending
  exact (foldlM_append_of_ok withPending).trans unchanged

/-- A response without null values is read back as it was written. -/
theorem NullFree.read_toJson {r : ConfigsResponse} (sound : r.NullFree) : read r.toJson = .ok r := by
  have named : ∀ field ∈ fields (β := Json), field.presence = .required → field.name ∈ r.members.map (·.1) := by
    simp [fields]
  rw [toJson_eq]
  calc read (Json.object r.members)
    _ = readMembers fields {} (Field.texts r.members) := rfl
    _ = r.members.foldlM (Field.enterNamed fields) {} := readMembers_distinct (by decide) r.names_nodup named {}
    _ = .ok r := r.enter_members sound

end ConfigsResponse

/-- Requests are read back as they were written, and with them the revisions of a batch. Responses that
were read once are read back as they were, and say the same about every key. -/
theorem wire_round_trip :
    (∀ r : ConfigsRequest, ConfigsRequest.read r.toJson = .ok r) ∧
    (∀ batch : List AskedKey, (batch.map (·.1)).Nodup →
      let request := ConfigsRequest.ofBatch batch
      request.Tells batch ∧ (∃ decoded, ConfigsRequest.read request.toJson = .ok decoded ∧ decoded.Tells batch) ∧
      (request.toJson.member? "revisions" = none ↔ ∀ a ∈ batch, a.2 = none) ∧
      ∀ revisions, request.toJson.member? "revisions" = some revisions → ∃ items keys, revisions = .array items ∧
        request.toJson.member? "publicKeys" = some (.array keys) ∧ items.length = keys.length) ∧
    ∀ (j : Json) (r : ConfigsResponse), ConfigsResponse.read j = .ok r →
      ∃ again, ConfigsResponse.read r.toJson = .ok again ∧ again = r ∧
        ∀ requested, again.outcomes requested = r.outcomes requested := by
  refine ⟨ConfigsRequest.read_toJson, fun batch distinct => ?_, fun j r read => ?_⟩
  · have tells := ConfigsRequest.ofBatch_tells distinct
    obtain ⟨absent, aligned⟩ := ConfigsRequest.ofBatch_revisions batch
    refine ⟨tells, ⟨_, ConfigsRequest.read_toJson _, tells⟩, ?_, fun revisions sent => ?_⟩
    · rw [ConfigsRequest.member?_revisions, Option.map_eq_none_iff, absent]
    · rw [ConfigsRequest.member?_revisions] at sent
      obtain ⟨list, found, rfl⟩ := Option.map_eq_some_iff.mp sent
      refine ⟨_, _, rfl, ConfigsRequest.member?_publicKeys _, ?_⟩
      rw [List.length_map, List.length_map, aligned list found]
  · exact ⟨r, (ConfigsResponse.nullFree_of_read read).read_toJson, rfl, fun _ => rfl⟩

/-- Null is no revision of "b", the deleted project "b", and the global configuration that is not there. -/
theorem null_in_three_places :
    let batch : List AskedKey := [("a", some "7"), ("b", none)]
    let request := ConfigsRequest.ofBatch batch
    let response : ConfigsResponse := { configs := .ofList [("a", some (.object [])), ("b", none)], pending := ["c"] }
    request.toJson.member? "revisions" ≠ none ∧
      (∃ decoded, ConfigsRequest.read request.toJson = .ok decoded ∧ decoded.revision? "a" = some "7" ∧
        decoded.revision? "b" = none ∧ decoded.revision? "c" = none) ∧
      ConfigsResponse.read (Json.object [("configs", .object [("a", .object []), ("b", .null)]), ("global", .null),
        ("pending", .array [.string "c"])]) = .ok response ∧
      ConfigsResponse.read response.toJson = .ok response := by
  intro batch request response
  obtain ⟨_, batches, responses⟩ := wire_round_trip
  obtain ⟨_, ⟨decoded, read, own, other⟩, absent, _⟩ := batches batch (by decide)
  obtain ⟨again, readAgain, same, _⟩ := responses (.object [("configs", .object [("a", .object []), ("b", .null)]),
    ("global", .null), ("pending", .array [.string "c"])]) response rfl
  refine ⟨fun none => ?_, ⟨decoded, read, own ("a", some "7") (by decide), own ("b", none) (by decide),
    other "c" (by decide)⟩, rfl, readAgain.trans (congrArg Except.ok same)⟩
  cases absent.mp none ("a", some "7") (by decide)

end AdmissionCache
