import AdmissionCache.Overrides.Snapshot
import Mathlib.Data.List.Basic

namespace AdmissionCache

namespace DirectoryEntry

/-- The configuration of a file, if it is one and applies to the key. -/
def configFor? (key : ProjectKey) (e : DirectoryEntry) : Option ProjectConfig :=
  e.override?.bind fun o => if key ∈ o.1 then some o.2 else none

/-- Two files have the same configuration for every key to which both apply. -/
def Agrees (a b : DirectoryEntry) : Prop :=
  ∀ key config other, a.configFor? key = some config → b.configFor? key = some other → config = other

theorem content_of_configFor? {e : DirectoryEntry} {key : ProjectKey} {config : ProjectConfig}
    (applies : e.configFor? key = some config) :
    ∃ content, e.content = some content ∧ ProjectConfig.ofBytes content = .ok config := by
  obtain ⟨o, file, applied⟩ := Option.bind_eq_some_iff.mp applies
  obtain ⟨stem, -, read⟩ := Option.bind_eq_some_iff.mp file
  obtain ⟨content, held, valid⟩ := Option.bind_eq_some_iff.mp read
  cases ((Option.ite_none_right_eq_some ..).mp applied).2
  refine ⟨content, held, ?_⟩
  split at valid
  · rename_i config parsed
    cases valid
    exact parsed
  · cases valid

/-- Whatever the two files are named, the same content is the same configuration. -/
theorem agrees_of_content_eq {a b : DirectoryEntry} (same : a.content = b.content) : a.Agrees b := by
  intro key config other applies applies'
  obtain ⟨content, held, parsed⟩ := content_of_configFor? applies
  obtain ⟨content', held', parsed'⟩ := content_of_configFor? applies'
  cases Option.some.inj (held.symm.trans (same.trans held'))
  exact Except.ok.inj (parsed.symm.trans parsed')

end DirectoryEntry

/-- The same directory, listed in whatever order. A listing that breaks off is lost in every order. -/
inductive Directory.Relisted : Directory → Directory → Prop
  | entries {list order : List DirectoryEntry} : order.Perm list → Relisted (.entries list) (.entries order)
  | missing : Relisted .missing .missing
  | broken {listed others : List DirectoryEntry} : Relisted (.broken listed) (.broken others)

theorem Directory.Relisted.mem_iff {d d' : Directory} (relisted : d.Relisted d') {e : DirectoryEntry} :
    e ∈ d'.list ↔ e ∈ d.list := by
  cases relisted with
  | entries perm => exact perm.mem_iff
  | missing => rfl
  | broken => rfl

/-- Of values that are all the same, every order has the same last one. -/
theorem getLast?_eq_of_perm {α : Type} {list order : List α} (perm : order.Perm list)
    (same : ∀ x ∈ list, ∀ y ∈ list, x = y) : order.getLast? = list.getLast? := by
  cases last : order.getLast? with
  | none =>
    have empty : order = [] := List.getLast?_eq_none_iff.mp last
    rw [empty] at perm
    rw [List.nil_perm.mp perm]
    rfl
  | some x =>
    have inside : x ∈ list := perm.mem_iff.mp (List.mem_of_getLast? last)
    obtain ⟨y, last'⟩ := Option.isSome_iff_exists.mp (List.getLast?_isSome.mpr (List.ne_nil_of_mem inside))
    rw [last', same x inside y (List.mem_of_getLast? last')]

namespace Snapshot
variable {list : List DirectoryEntry} {d d' : Directory} {s : Snapshot} {key : ProjectKey}

theorem get?_insertKeys (keys : List ProjectKey) (config : ProjectConfig) (s : Snapshot) (key : ProjectKey) :
    (keys.foldl (fun s key => KeyMap.insert s key config) s).get? key =
      if key ∈ keys then some config else s.get? key := by
  induction keys generalizing s with
  | nil => rfl
  | cons k rest ih =>
    rw [List.foldl_cons, ih, KeyMap.get?_insert]
    by_cases later : key ∈ rest
    · simp only [later, if_true, List.mem_cons, or_true]
    · simp only [later, if_false, List.mem_cons, or_false]

theorem get?_add (s : Snapshot) (e : DirectoryEntry) (key : ProjectKey) :
    (s.add e).get? key = (e.configFor? key).or (s.get? key) := by
  unfold add DirectoryEntry.configFor?
  cases e.override? with
  | none => rfl
  | some o =>
    rw [Option.bind_some]
    refine (get?_insertKeys o.1 o.2 s key).trans ?_
    split <;> rfl

theorem get?_foldl_add (list : List DirectoryEntry) (s : Snapshot) (key : ProjectKey) :
    (list.foldl add s).get? key = (list.filterMap (·.configFor? key)).getLast?.or (s.get? key) := by
  induction list generalizing s with
  | nil => rfl
  | cons e rest ih =>
    rw [List.foldl_cons, ih, get?_add]
    cases applies : e.configFor? key with
    | none => rw [List.filterMap_cons_none applies, Option.none_or]
    | some config =>
      rw [List.filterMap_cons_some applies, List.getLast?_cons, Option.some_or, Option.some_or]
      cases (rest.filterMap (·.configFor? key)).getLast? <;> rfl

/-- The override of a key is that of the last file listed that applies to it. -/
theorem get?_scan (scanned : scan d = .ok s) (key : ProjectKey) :
    s.get? key = (d.list.filterMap (·.configFor? key)).getLast? := by
  cases d with
  | entries list =>
    cases scanned
    exact (get?_foldl_add list ∅ key).trans Option.or_none
  | missing =>
    cases scanned
    rfl
  | broken listed => cases scanned

/-- A key has an override if some file applies to it. -/
theorem mem_keys_scan (scanned : scan d = .ok s) :
    key ∈ s.keys ↔ ∃ e ∈ d.list, (e.configFor? key).isSome = true := by
  rw [KeyMap.mem_keys_iff, get?_scan scanned, List.getLast?_isSome]
  constructor
  · intro nonempty
    obtain ⟨config, inside⟩ := List.exists_mem_of_ne_nil _ nonempty
    obtain ⟨e, member, applies⟩ := List.mem_filterMap.mp inside
    exact ⟨e, member, Option.isSome_iff_exists.mpr ⟨config, applies⟩⟩
  · rintro ⟨e, member, applies⟩
    obtain ⟨config, applies⟩ := Option.isSome_iff_exists.mp applies
    exact List.ne_nil_of_mem (List.mem_filterMap.mpr ⟨e, member, applies⟩)

theorem scan_of_agrees (relisted : d.Relisted d') (agree : ∀ a ∈ d.list, ∀ b ∈ d.list, a.Agrees b) :
    scan d' = scan d := by
  cases relisted with
  | missing => rfl
  | broken => rfl
  | @entries list order perm =>
    refine congrArg Except.ok (KeyMap.ext_get? fun key => ?_)
    have last (order : List DirectoryEntry) : (order.foldl add ∅).get? key =
        (order.filterMap (·.configFor? key)).getLast? := get?_scan (d := .entries order) rfl key
    rw [last, last]
    refine getLast?_eq_of_perm (perm.filterMap _) fun config inside other inside' => ?_
    obtain ⟨a, member, applies⟩ := List.mem_filterMap.mp inside
    obtain ⟨b, member', applies'⟩ := List.mem_filterMap.mp inside'
    exact agree a member b member' key config other applies applies'

/-- Whichever file of a directory applies to a key, some order lists it last. -/
theorem exists_relisted {e : DirectoryEntry} {config : ProjectConfig} (member : e ∈ list)
    (applies : e.configFor? key = some config) :
    ∃ d' s, Directory.Relisted (.entries list) d' ∧ scan d' = .ok s ∧ s.get? key = some config := by
  have moved : (list.erase e ++ [e]).Perm list := List.perm_append_comm.trans (List.perm_cons_erase member).symm
  refine ⟨.entries (list.erase e ++ [e]), _, .entries moved, rfl, ?_⟩
  rw [get?_scan (d := .entries (list.erase e ++ [e])) rfl]
  change ((list.erase e ++ [e]).filterMap _).getLast? = _
  rw [List.filterMap_append, List.filterMap_cons_some applies, List.filterMap_nil, List.getLast?_concat]

theorem agrees_of_scan (same : ∀ d', d.Relisted d' → scan d' = scan d) :
    ∀ a ∈ d.list, ∀ b ∈ d.list, a.Agrees b := by
  intro a member b member' key config other applies applies'
  cases d with
  | entries list =>
    obtain ⟨d₁, s₁, relisted₁, scanned₁, held₁⟩ := exists_relisted member applies
    obtain ⟨d₂, s₂, relisted₂, scanned₂, held₂⟩ := exists_relisted member' applies'
    have both : s₁ = s₂ := Except.ok.inj <| calc
      Except.ok s₁ = scan (.entries list) := scanned₁.symm.trans (same d₁ relisted₁)
      _ = .ok s₂ := (same d₂ relisted₂).symm.trans scanned₂
    rw [both] at held₁
    exact Option.some.inj (held₁.symm.trans held₂)
  | missing => cases member
  | broken listed => cases member

/-- Every order of a directory gives the same snapshot if and only if no two files have different
configurations for one key. In every order the directory can be scanned or not, there are overrides of
the same keys, and each is that of the last file that applies to the key. -/
theorem order_matters_iff_files_differ (d : Directory) :
    ((∀ d', d.Relisted d' → scan d' = scan d) ↔ ∀ a ∈ d.list, ∀ b ∈ d.list, a.Agrees b) ∧
    ∀ d', d.Relisted d' → (scan d').isOk = (scan d).isOk ∧
      ∀ s, scan d' = .ok s → ∀ key,
        (key ∈ s.keys ↔ ∃ e ∈ d.list, (e.configFor? key).isSome = true) ∧
        s.get? key = (d'.list.filterMap (·.configFor? key)).getLast? := by
  refine ⟨⟨agrees_of_scan, fun agree d' relisted => scan_of_agrees relisted agree⟩, ?_⟩
  intro d' relisted
  refine ⟨by cases relisted <;> rfl, fun s scanned key => ⟨?_, get?_scan scanned key⟩⟩
  rw [mem_keys_scan scanned]
  exact exists_congr fun e => and_congr_left fun _ => relisted.mem_iff

/-- Two files that list the same key and disable it or not: the one listed last decides. -/
theorem two_orders_two_snapshots :
    let p : DirectoryEntry := ⟨"p.json".toUTF8.toList,
      some "\x7b\"publicKeys\":[\x7b\"publicKey\":\"k\"\x7d]\x7d".toUTF8.toList⟩
    let q : DirectoryEntry := ⟨"q.json".toUTF8.toList,
      some "\x7b\"disabled\":true,\"publicKeys\":[\x7b\"publicKey\":\"k\"\x7d]\x7d".toUTF8.toList⟩
    Directory.Relisted (.entries [p, q]) (.entries [q, p]) ∧ p.name ≠ q.name ∧
      scan (.entries [q, p]) ≠ scan (.entries [p, q]) ∧
      ((scan (.entries [p, q])).toOption.bind (·.get? "k")).map (·.disabled) = some true ∧
      ((scan (.entries [q, p])).toOption.bind (·.get? "k")).map (·.disabled) = some false := by
  intro p q
  have last : ((scan (.entries [p, q])).toOption.bind (·.get? "k")).map (·.disabled) = some true := by
    decide +kernel
  have last' : ((scan (.entries [q, p])).toOption.bind (·.get? "k")).map (·.disabled) = some false := by
    decide +kernel
  refine ⟨.entries (List.Perm.swap p q []), by decide +kernel, fun same => ?_, last, last'⟩
  rw [same, last] at last'
  cases last'

/-- Two files that list the same key with the same configuration, whichever is listed last. -/
theorem same_content_either_way :
    let p : DirectoryEntry := ⟨"p.json".toUTF8.toList,
      some "\x7b\"publicKeys\":[\x7b\"publicKey\":\"k\"\x7d]\x7d".toUTF8.toList⟩
    let q : DirectoryEntry := ⟨"q.json".toUTF8.toList, p.content⟩
    scan (.entries [q, p]) = scan (.entries [p, q]) ∧
      ((scan (.entries [p, q])).toOption.bind (·.get? "k")).map (·.disabled) = some false := by
  intro p q
  have agree : ∀ a ∈ [p, q], ∀ b ∈ [p, q], a.Agrees b := by
    intro a member b member'
    have content (e : DirectoryEntry) (member : e ∈ [p, q]) : e.content = p.content := by
      rcases List.mem_pair.mp member with rfl | rfl <;> rfl
    exact DirectoryEntry.agrees_of_content_eq ((content a member).trans (content b member').symm)
  refine ⟨?_, by decide +kernel⟩
  exact (order_matters_iff_files_differ (.entries [p, q])).1.mpr agree _ (.entries (List.Perm.swap p q []))

end Snapshot

end AdmissionCache
