namespace AdmissionCache

/-- A finite map from text keys. The entries are strictly sorted by key, so
equal lookups mean equal maps. -/
structure KeyMap (α : Type) where
  entries : List (String × α) := []
  sorted : entries.Pairwise (fun a b => a.1 < b.1) := by exact .nil

namespace KeyMap

variable {α : Type}

private theorem key_lt_of_not_lt {a b : String} (notLess : ¬ a < b) (differ : ¬ a = b) : b < a :=
  Classical.byContradiction fun h =>
    differ (String.le_antisymm (String.not_lt.mp h) (String.not_lt.mp notLess))

/-- The value stored for `key` in an entry list. -/
def lookup : List (String × α) → String → Option α
  | [], _ => none
  | (k, v) :: rest, key => if key = k then some v else lookup rest key

/-- The entry list with `key` set to `value`, in sorted position. -/
def place : List (String × α) → String → α → List (String × α)
  | [], key, value => [(key, value)]
  | (k, v) :: rest, key, value =>
    if key < k then (key, value) :: (k, v) :: rest
    else if key = k then (key, value) :: rest
    else (k, v) :: place rest key value

theorem mem_place {entries : List (String × α)} {key : String} {value : α} {e : String × α} :
    e ∈ place entries key value → e = (key, value) ∨ e ∈ entries := by
  induction entries with
  | nil => intro h; exact Or.inl (by simpa [place] using h)
  | cons head rest ih =>
    obtain ⟨k, v⟩ := head
    unfold place
    split
    · intro h
      rcases List.mem_cons.mp h with rfl | old
      · exact Or.inl rfl
      · exact Or.inr old
    · split
      · intro h
        rcases List.mem_cons.mp h with rfl | old
        · exact Or.inl rfl
        · exact Or.inr (List.mem_cons_of_mem _ old)
      · intro h
        rcases List.mem_cons.mp h with rfl | old
        · exact Or.inr (List.mem_cons_self ..)
        · rcases ih old with same | kept
          · exact Or.inl same
          · exact Or.inr (List.mem_cons_of_mem _ kept)

theorem place_sorted {entries : List (String × α)} (key : String) (value : α)
    (sorted : entries.Pairwise (fun a b => a.1 < b.1)) :
    (place entries key value).Pairwise (fun a b => a.1 < b.1) := by
  induction entries with
  | nil => simp [place]
  | cons head rest ih =>
    obtain ⟨k, v⟩ := head
    rw [List.pairwise_cons] at sorted
    unfold place
    split
    next less =>
      refine List.pairwise_cons.mpr ⟨?_, List.pairwise_cons.mpr sorted⟩
      intro e member
      rcases List.mem_cons.mp member with rfl | later
      · exact less
      · exact String.lt_trans less (sorted.1 e later)
    next notLess =>
      split
      next same => subst same; exact List.pairwise_cons.mpr sorted
      next differ =>
        refine List.pairwise_cons.mpr ⟨?_, ih sorted.2⟩
        intro e member
        rcases mem_place member with rfl | old
        · exact key_lt_of_not_lt notLess differ
        · exact sorted.1 e old

theorem lookup_place (entries : List (String × α)) (key : String) (value : α) (other : String) :
    lookup (place entries key value) other =
      if other = key then some value else lookup entries other := by
  induction entries with
  | nil => simp [place, lookup]
  | cons head rest ih =>
    obtain ⟨k, v⟩ := head
    unfold place
    split
    next => simp only [lookup]
    next =>
      split
      next same =>
        subst same
        simp only [lookup]
        split <;> rfl
      next differ =>
        simp only [lookup, ih]
        by_cases atHead : other = k
        · subst atHead
          have away : ¬ other = key := fun h => differ h.symm
          simp [away]
        · simp [atHead]

theorem lookup_eq_none {entries : List (String × α)} {key : String}
    (absent : ∀ e ∈ entries, e.1 ≠ key) : lookup entries key = none := by
  induction entries with
  | nil => rfl
  | cons head rest ih =>
    obtain ⟨k, v⟩ := head
    have away : ¬ key = k := fun h => absent (k, v) (List.mem_cons_self ..) h.symm
    simp only [lookup, away, if_false]
    exact ih fun e member => absent e (List.mem_cons_of_mem _ member)

/-- A key below those of all entries has no value. -/
theorem lookup_eq_none_of_lt {entries : List (String × α)} {key : String}
    (below : ∀ e ∈ entries, key < e.1) : lookup entries key = none :=
  lookup_eq_none fun e member same => String.lt_irrefl e.1 (same ▸ below e member)

theorem lookup_filter (entries : List (String × α)) (keep : String → α → Bool) (key : String)
    (sorted : entries.Pairwise (fun a b => a.1 < b.1)) :
    lookup (entries.filter fun e => keep e.1 e.2) key = (lookup entries key).filter (keep key) := by
  induction entries with
  | nil => rfl
  | cons head rest ih =>
    obtain ⟨k, v⟩ := head
    rw [List.pairwise_cons] at sorted
    by_cases here : key = k
    · subst here
      by_cases kept : keep key v = true
      · simp [kept, lookup, Option.filter]
      · have gone : lookup rest key = none := lookup_eq_none_of_lt sorted.1
        simp only [List.filter_cons, kept, Bool.false_eq_true, if_false, ih sorted.2, gone, lookup,
          if_true, Option.filter]
    · by_cases kept : keep k v = true
      · simp only [List.filter_cons, kept, if_true, lookup, here, if_false, ih sorted.2]
      · simp only [List.filter_cons, kept, Bool.false_eq_true, if_false, lookup, here, ih sorted.2]

theorem mem_of_lookup {entries : List (String × α)} {key : String} {value : α}
    (found : lookup entries key = some value) : (key, value) ∈ entries := by
  induction entries with
  | nil => exact nomatch found
  | cons head rest ih =>
    obtain ⟨k, v⟩ := head
    unfold lookup at found
    split at found
    next same => subst same; cases found; exact List.mem_cons_self ..
    next => exact List.mem_cons_of_mem _ (ih found)

theorem lookup_of_mem {entries : List (String × α)} {key : String} {value : α}
    (sorted : entries.Pairwise (fun a b => a.1 < b.1)) (member : (key, value) ∈ entries) :
    lookup entries key = some value := by
  induction entries with
  | nil => exact nomatch member
  | cons head rest ih =>
    obtain ⟨k, v⟩ := head
    rw [List.pairwise_cons] at sorted
    rcases List.mem_cons.mp member with same | later
    · cases same; simp [lookup]
    · have less : k < key := sorted.1 _ later
      have away : ¬ key = k := fun h => String.lt_irrefl k (h ▸ less)
      simp only [lookup, away, if_false]
      exact ih sorted.2 later

/-- Placing a new key adds one entry and leaves the others. -/
theorem place_perm {entries : List (String × α)} {key : String} {value : α}
    (absent : ∀ e ∈ entries, e.1 ≠ key) : (place entries key value).Perm ((key, value) :: entries) := by
  induction entries with
  | nil => exact .refl _
  | cons head rest ih =>
    obtain ⟨k, v⟩ := head
    have away : ¬ key = k := fun h => absent (k, v) (List.mem_cons_self ..) h.symm
    have later := ih fun e member => absent e (List.mem_cons_of_mem _ member)
    simp only [place, away, if_false]
    split
    · exact .refl _
    · exact (later.cons _).trans (.swap ..)

def get? (m : KeyMap α) (key : String) : Option α := lookup m.entries key

def contains (m : KeyMap α) (key : String) : Bool := (m.get? key).isSome

/-- Sets `key` to `value`, replacing what was there. -/
def insert (m : KeyMap α) (key : String) (value : α) : KeyMap α :=
  ⟨place m.entries key value, place_sorted key value m.sorted⟩

/-- Keeps the entries that pass the test. -/
def filter (m : KeyMap α) (keep : String → α → Bool) : KeyMap α :=
  ⟨m.entries.filter fun e => keep e.1 e.2, m.sorted.filter _⟩

def erase (m : KeyMap α) (key : String) : KeyMap α := m.filter fun k _ => k ≠ key

/-- How many keys have a value. -/
def size (m : KeyMap α) : Nat := m.entries.length

def isEmpty (m : KeyMap α) : Bool := m.entries.isEmpty

def toList (m : KeyMap α) : List (String × α) := m.entries

def keys (m : KeyMap α) : List String := m.entries.map (·.1)

/-- Later entries replace earlier ones with the same key. -/
def ofList (entries : List (String × α)) : KeyMap α :=
  entries.foldl (fun m e => m.insert e.1 e.2) {}

instance : EmptyCollection (KeyMap α) := ⟨{}⟩

instance [DecidableEq α] : DecidableEq (KeyMap α) := fun a b =>
  if same : a.entries = b.entries then
    .isTrue (by cases a; cases b; cases same; rfl)
  else .isFalse fun h => same (h ▸ rfl)

@[simp] theorem get?_empty (key : String) : (∅ : KeyMap α).get? key = none := rfl

theorem get?_insert (m : KeyMap α) (key : String) (value : α) (other : String) :
    (m.insert key value).get? other = if other = key then some value else m.get? other :=
  lookup_place _ _ _ _

@[simp] theorem get?_insert_self (m : KeyMap α) (key : String) (value : α) :
    (m.insert key value).get? key = some value := by simp [get?_insert]

theorem get?_insert_of_ne {m : KeyMap α} {key other : String} (value : α) (differ : other ≠ key) :
    (m.insert key value).get? other = m.get? other := by simp [get?_insert, differ]

theorem get?_filter (m : KeyMap α) (keep : String → α → Bool) (key : String) :
    (m.filter keep).get? key = (m.get? key).filter (keep key) :=
  lookup_filter _ _ _ m.sorted

theorem get?_erase (m : KeyMap α) (key other : String) :
    (m.erase key).get? other = if other = key then none else m.get? other := by
  rw [erase, get?_filter]
  by_cases same : other = key
  · cases m.get? other <;> simp [same, Option.filter]
  · cases m.get? other <;> simp [same, Option.filter]

/-- Of entries with distinct keys that are inserted one after the other, none replaces another. -/
theorem get?_insertAll (m : KeyMap α) {entries : List (String × α)}
    (sorted : entries.Pairwise (fun a b => a.1 < b.1)) (key : String) :
    (entries.foldl (fun m e => m.insert e.1 e.2) m).get? key = (lookup entries key).or (m.get? key) := by
  induction entries generalizing m with
  | nil => rfl
  | cons head rest ih =>
    obtain ⟨k, v⟩ := head
    rw [List.pairwise_cons] at sorted
    rw [List.foldl_cons, ih _ sorted.2, get?_insert, lookup]
    split
    · rename_i same
      subst same
      rw [lookup_eq_none_of_lt sorted.1, Option.none_or, Option.some_or]
    · rfl

theorem mem_toList_iff (m : KeyMap α) (key : String) (value : α) :
    (key, value) ∈ m.toList ↔ m.get? key = some value :=
  ⟨lookup_of_mem m.sorted, mem_of_lookup⟩

theorem mem_keys_iff (m : KeyMap α) (key : String) : key ∈ m.keys ↔ (m.get? key).isSome := by
  constructor
  · intro member
    obtain ⟨⟨k, v⟩, inside, rfl⟩ := List.mem_map.mp member
    rw [(m.mem_toList_iff k v).mp inside]; rfl
  · intro found
    obtain ⟨v, h⟩ := Option.isSome_iff_exists.mp found
    exact List.mem_map.mpr ⟨(key, v), (m.mem_toList_iff key v).mpr h, rfl⟩

theorem keys_nodup (m : KeyMap α) : m.keys.Nodup := by
  refine List.pairwise_map.mpr (m.sorted.imp fun less same => ?_)
  rw [same] at less
  exact String.lt_irrefl _ less

theorem keys_insert_perm {m : KeyMap α} {key : String} (value : α) (absent : key ∉ m.keys) :
    (m.insert key value).keys.Perm (key :: m.keys) := by
  have placed : (place m.entries key value).Perm ((key, value) :: m.entries) :=
    place_perm fun e member same => absent (same ▸ List.mem_map_of_mem member)
  exact placed.map (·.1)

theorem mem_keys_insert (m : KeyMap α) (key : String) (value : α) (other : String) :
    other ∈ (m.insert key value).keys ↔ other = key ∨ other ∈ m.keys := by
  rw [mem_keys_iff, mem_keys_iff, get?_insert]
  split
  · rename_i same
    exact ⟨fun _ => Or.inl same, fun _ => rfl⟩
  · rename_i differ
    exact ⟨Or.inr, fun inside => inside.resolve_left differ⟩

private theorem entries_ext {a b : List (String × α)}
    (sortedA : a.Pairwise (fun x y => x.1 < y.1)) (sortedB : b.Pairwise (fun x y => x.1 < y.1))
    (same : ∀ key, lookup a key = lookup b key) : a = b := by
  induction a generalizing b with
  | nil =>
    cases b with
    | nil => rfl
    | cons head rest =>
      have h := same head.1
      simp [lookup] at h
  | cons head rest ih =>
    obtain ⟨k, v⟩ := head
    cases b with
    | nil =>
      have h := same k
      simp [lookup] at h
    | cons head' rest' =>
      obtain ⟨k', v'⟩ := head'
      rw [List.pairwise_cons] at sortedA sortedB
      have inB : (k, v) ∈ (k', v') :: rest' := by
        apply mem_of_lookup
        rw [← same k]; simp [lookup]
      have inA : (k', v') ∈ (k, v) :: rest := by
        apply mem_of_lookup
        rw [same k']; simp [lookup]
      have heads : (k, v) = (k', v') := by
        rcases List.mem_cons.mp inB with h | later
        · exact h
        · rcases List.mem_cons.mp inA with h | later'
          · exact h.symm
          · exact absurd (String.lt_trans (sortedA.1 _ later') (sortedB.1 _ later))
              (String.lt_irrefl _)
      cases heads
      congr 1
      apply ih sortedA.2 sortedB.2
      intro key
      by_cases here : key = k
      · subst here
        rw [lookup_eq_none_of_lt sortedA.1, lookup_eq_none_of_lt sortedB.1]
      · have h := same key
        simpa only [lookup, here, if_false] using h

/-- Maps with the same lookups are equal. -/
theorem ext_get? {a b : KeyMap α} (same : ∀ key, a.get? key = b.get? key) : a = b := by
  obtain ⟨ea, sa⟩ := a
  obtain ⟨eb, sb⟩ := b
  have h : ea = eb := entries_ext sa sb same
  subst h
  rfl

theorem mem_of_get?_insertAll {entries : List (String × α)} {m : KeyMap α} {key : String} {value : α}
    (found : (entries.foldl (fun m e => m.insert e.1 e.2) m).get? key = some value) :
    (key, value) ∈ entries ∨ m.get? key = some value := by
  induction entries generalizing m with
  | nil => exact Or.inr found
  | cons head rest ih =>
    rcases ih found with later | here
    · exact Or.inl (List.mem_cons_of_mem _ later)
    · rw [get?_insert] at here
      split at here
      · rename_i same
        cases here
        exact Or.inl (same ▸ List.mem_cons_self)
      · exact Or.inr here

theorem mem_of_get?_ofList {entries : List (String × α)} {key : String} {value : α}
    (found : (ofList entries).get? key = some value) : (key, value) ∈ entries :=
  (mem_of_get?_insertAll found).resolve_right nofun

theorem eq_empty_of_isEmpty {m : KeyMap α} (empty : m.isEmpty = true) : m = ∅ :=
  ext_get? fun key => by
    rw [get?, List.isEmpty_iff.mp empty]
    rfl

theorem ofList_toList (m : KeyMap α) : ofList m.toList = m := by
  refine ext_get? fun key => ?_
  rw [ofList, toList, get?_insertAll _ m.sorted]
  exact Option.or_none

end KeyMap

abbrev KeySet := KeyMap Unit

namespace KeySet

def insert (s : KeySet) (key : String) : KeySet := KeyMap.insert s key ()

def contains (s : KeySet) (key : String) : Bool := KeyMap.contains s key

theorem contains_insert (s : KeySet) (key other : String) :
    (s.insert key).contains other = (decide (other = key) || s.contains other) := by
  rw [contains, KeyMap.contains, insert, KeyMap.get?_insert]
  by_cases same : other = key
  · rw [if_pos same, decide_eq_true same, Bool.true_or]
    rfl
  · rw [if_neg same, decide_eq_false same, Bool.false_or]
    rfl

/-- Sets with the same members are equal. -/
theorem ext_contains {a b : KeySet} (same : ∀ key, a.contains key = b.contains key) : a = b :=
  KeyMap.ext_get? fun key =>
    match found : a.get? key, found' : b.get? key with
    | none, none => rfl
    | some (), some () => rfl
    | none, some () => by simpa [contains, KeyMap.contains, found, found'] using same key
    | some (), none => by simpa [contains, KeyMap.contains, found, found'] using same key

end KeySet

end AdmissionCache
