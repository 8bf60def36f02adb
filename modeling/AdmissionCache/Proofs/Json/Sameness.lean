import AdmissionCache.Project.Config

namespace AdmissionCache

namespace Binary64

theorem sameValue_trans {x y z : Binary64} (first : x.sameValue y = true) (second : y.sameValue z = true) :
    x.sameValue z = true := by
  cases x <;> cases y <;> cases z <;> simp only [sameValue, Bool.or_eq_true, Bool.and_eq_true,
    beq_iff_eq, Bool.false_eq_true] at first second ⊢
  · rcases first with ⟨zero, zero'⟩ | ⟨⟨rfl, rfl⟩, rfl⟩
    · rcases second with ⟨_, zero''⟩ | ⟨⟨rfl, rfl⟩, rfl⟩
      · exact Or.inl ⟨zero, zero''⟩
      · exact Or.inl ⟨zero, zero'⟩
    · exact second
  · exact first.trans second

theorem sameValue_self {x : Binary64} (finite : x.isFinite = true) : x.sameValue x = true := by
  cases x with
  | finite negative m e => simp only [sameValue, beq_self_eq_true, Bool.and_self, Bool.or_true]
  | infinite negative => cases finite
  | nan => cases finite

theorem isFinite_neg (x : Binary64) : x.neg.isFinite = x.isFinite := by
  cases x <;> rfl

end Binary64

theorem JsonNumber.same_trans {a b c : JsonNumber} (first : a.same b = true) (second : b.same c = true) :
    a.same c = true := by
  cases a <;> cases b <;> cases c <;> simp only [same, Bool.false_eq_true, beq_iff_eq] at first second ⊢
  · exact first.trans second
  · exact Binary64.sameValue_trans first second

namespace NumberLiteral

theorem assemble_isFinite {negative : Bool} {significand : Nat} {exponent : Int} {x : Binary64}
    (assembled : assemble negative significand exponent = some x) : x.isFinite = true := by
  simp only [assemble, Option.ite_none_right_eq_some, Option.some.injEq] at assembled
  obtain ⟨finite, rfl⟩ := assembled
  cases negative with
  | true => exact (Binary64.isFinite_neg _).trans finite
  | false => exact finite

/-- The number of a literal is the same as itself. -/
theorem meaning_same {l : NumberLiteral} {n : JsonNumber} (meant : l.meaning = some n) :
    n.same n = true := by
  have fraction {negative : Bool} {significand : Nat} {exponent : Int}
      (assembled : (assemble negative significand exponent).map .fraction = some n) : n.same n = true := by
    obtain ⟨x, some, rfl⟩ := Option.map_eq_some_iff.mp assembled
    exact Binary64.sameValue_self (assemble_isFinite some)
  unfold meaning at meant
  simp only at meant
  split at meant
  · split at meant
    · cases meant; exact beq_self_eq_true _
    · split at meant
      · cases meant; exact beq_self_eq_true _
      · exact fraction meant
  · exact fraction meant

end NumberLiteral

namespace Json

mutual

theorem same_trans : ∀ {a b c : Json}, a.same b = true → b.same c = true → a.same c = true
  | .null, .null, _, _, second => second
  | .bool _, .bool _, .bool _, first, second => by
    simp only [same, beq_iff_eq] at first second ⊢
    exact first.trans second
  | .number _, .number _, .number _, first, second => by
    simp only [same] at first second ⊢
    exact JsonNumber.same_trans first second
  | .string _, .string _, .string _, first, second => by
    simp only [same, beq_iff_eq] at first second ⊢
    exact first.trans second
  | .array _, .array _, .array _, first, second => by
    simp only [same] at first second ⊢
    exact sameItems_trans first second
  | .object _, .object _, .object _, first, second => by
    simp only [same] at first second ⊢
    exact sameMembers_trans first second

theorem sameItems_trans : ∀ {as bs cs : List Json}, sameItems as bs = true → sameItems bs cs = true →
    sameItems as cs = true
  | [], [], _, _, second => second
  | _ :: _, _ :: _, _ :: _, first, second => by
    simp only [sameItems, Bool.and_eq_true] at first second ⊢
    exact ⟨same_trans first.1 second.1, sameItems_trans first.2 second.2⟩

theorem sameMembers_trans : ∀ {as bs cs : List (String × Json)}, sameMembers as bs = true →
    sameMembers bs cs = true → sameMembers as cs = true
  | [], [], _, _, second => second
  | (_, _) :: _, (_, _) :: _, (_, _) :: _, first, second => by
    simp only [sameMembers, Bool.and_eq_true, beq_iff_eq] at first second ⊢
    exact ⟨⟨first.1.1.trans second.1.1, same_trans first.1.2 second.1.2⟩,
      sameMembers_trans first.2 second.2⟩

end

theorem sameMembers_self {members : List (String × Json)} :
    sameMembers members members = true ↔ ∀ m ∈ members, m.2.same m.2 = true := by
  induction members with
  | nil => simp [sameMembers]
  | cons head rest ih =>
    obtain ⟨key, value⟩ := head
    simp only [sameMembers, beq_self_eq_true, Bool.true_and, Bool.and_eq_true, ih, List.forall_mem_cons]

theorem mem_setMember {members : List (String × Json)} {key : String} {value : Json} {m : String × Json}
    (member : m ∈ setMember members key value) : m = (key, value) ∨ m ∈ members := by
  induction members with
  | nil => exact Or.inl (List.mem_singleton.mp member)
  | cons head rest ih =>
    obtain ⟨k, v⟩ := head
    unfold setMember at member
    split at member
    · exact List.mem_cons.mp member
    · split at member
      · exact (List.mem_cons.mp member).imp_right (List.mem_cons_of_mem _)
      · rcases List.mem_cons.mp member with rfl | later
        · exact Or.inr List.mem_cons_self
        · exact (ih later).imp_right (List.mem_cons_of_mem _)

/-- An object of members that are the same as themselves is the same as itself. -/
theorem same_ofMembers {members : List (String × Json)} (each : ∀ m ∈ members, m.2.same m.2 = true) :
    (ofMembers members).same (ofMembers members) = true := by
  have all (members acc : List (String × Json)) (each : ∀ m ∈ members, m.2.same m.2 = true)
      (before : ∀ m ∈ acc, m.2.same m.2 = true) :
      ∀ m ∈ members.foldl (fun acc m => setMember acc m.1 m.2) acc, m.2.same m.2 = true := by
    induction members generalizing acc with
    | nil => exact before
    | cons head rest ih =>
      rw [List.forall_mem_cons] at each
      refine ih _ each.2 fun m member => ?_
      rcases mem_setMember member with rfl | old
      · exact each.1
      · exact before m old
  simp only [ofMembers, same]
  exact sameMembers_self.mpr (all members [] each (List.forall_mem_nil _))

end Json

namespace Written

mutual

theorem meaning_same {bound : Nat} : ∀ {depth : Nat} {w : Written} {j : Json},
    w.meaning bound depth = some j → j.same j = true
  | _, .null, _, meant => by
    rw [meaning] at meant
    cases meant; rfl
  | _, .bool b, _, meant => by
    rw [meaning] at meant
    cases meant
    exact beq_self_eq_true b
  | _, .number l, _, meant => by
    rw [meaning] at meant
    obtain ⟨n, some, rfl⟩ := Option.map_eq_some_iff.mp meant
    exact NumberLiteral.meaning_same some
  | _, .string t, _, meant => by
    rw [meaning] at meant
    obtain ⟨text, _, rfl⟩ := Option.map_eq_some_iff.mp meant
    exact beq_self_eq_true text
  | depth, .array items, _, meant => by
    rw [meaning] at meant
    split at meant
    · obtain ⟨values, some, rfl⟩ := Option.map_eq_some_iff.mp meant
      exact meaningItems_same some
    · cases meant
  | depth, .object members, _, meant => by
    rw [meaning] at meant
    split at meant
    · obtain ⟨values, some, rfl⟩ := Option.map_eq_some_iff.mp meant
      exact Json.same_ofMembers (meaningMembers_same some)
    · cases meant

theorem meaningItems_same {bound : Nat} : ∀ {depth : Nat} {items : List Written} {values : List Json},
    meaningItems bound depth items = some values → Json.sameItems values values = true
  | _, [], _, meant => by
    rw [meaningItems] at meant
    cases meant; rfl
  | depth, item :: rest, _, meant => by
    rw [meaningItems] at meant
    obtain ⟨value, first, others⟩ := Option.bind_eq_some_iff.mp meant
    obtain ⟨values, later, made⟩ := Option.bind_eq_some_iff.mp others
    cases made
    rw [Json.sameItems, Bool.and_eq_true]
    exact ⟨meaning_same first, meaningItems_same later⟩

theorem meaningMembers_same {bound : Nat} :
    ∀ {depth : Nat} {members : List (Option String × Written)} {values : List (String × Json)},
    meaningMembers bound depth members = some values → ∀ m ∈ values, m.2.same m.2 = true
  | _, [], _, meant => by
    rw [meaningMembers] at meant
    cases meant
    exact List.forall_mem_nil _
  | depth, (_, item) :: rest, _, meant => by
    rw [meaningMembers] at meant
    obtain ⟨key, _, others⟩ := Option.bind_eq_some_iff.mp meant
    obtain ⟨value, first, others⟩ := Option.bind_eq_some_iff.mp others
    obtain ⟨values, later, made⟩ := Option.bind_eq_some_iff.mp others
    cases made
    rw [List.forall_mem_cons]
    exact ⟨meaning_same first, meaningMembers_same later⟩

end

end Written

theorem Json.same_ofBytes? {bytes : List UInt8} {j : Json} (read : Json.ofBytes? bytes = some j) :
    j.same j = true := by
  obtain ⟨w, _, meant⟩ := Option.bind_eq_some_iff.mp read
  exact Written.meaning_same meant

namespace ProjectConfig

theorem same_trans {a b c : ProjectConfig} (first : a.same b = true) (second : b.same c = true) :
    a.same c = true := Json.same_trans first second

theorem same_ofBytes {bytes : List UInt8} {c : ProjectConfig} (read : ofBytes bytes = .ok c) :
    c.same c = true := by
  unfold ofBytes at read
  split at read
  · rename_i document document?
    have self := Json.same_ofBytes? document?
    unfold ofJson at read
    split at read
    · cases read; exact self
    · cases read
  · cases read

end ProjectConfig

end AdmissionCache
