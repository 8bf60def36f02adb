import AdmissionCache.Metrics
import AdmissionCache.Overrides.Directory
import AdmissionCache.Project.Config

namespace AdmissionCache

/-- The overrides that a scan of their directory gives. -/
abbrev Snapshot := KeyMap ProjectConfig

/-- The directory of the overrides cannot be listed to its end. -/
inductive OverrideFault
  | unlistable
  deriving DecidableEq, Repr

namespace DirectoryEntry

/-- The configuration in a file, with the keys to which it applies: those that it lists,
or the one that the file is named for. -/
def override? (e : DirectoryEntry) : Option (List ProjectKey × ProjectConfig) := do
  let stem ← e.name.documentStem?
  let content ← e.content
  match ProjectConfig.ofBytes content with
  | .ok config => some (if config.publicKeys.isEmpty then [stem] else config.publicKeys, config)
  | .error _ => none

end DirectoryEntry

namespace Snapshot

/-- Adds what an entry says. It replaces what earlier entries say about the same keys. -/
def add (s : Snapshot) (e : DirectoryEntry) : Snapshot :=
  match e.override? with
  | some (keys, config) => keys.foldl (fun s key => s.insert key config) s
  | none => s

/-- The snapshot of a directory. One that does not exist has no overrides, and what was
read up to the break of a listing is dropped. -/
def scan : Directory → Except OverrideFault Snapshot
  | .entries list => .ok (list.foldl add ∅)
  | .missing => .ok ∅
  | .broken _ => .error .unlistable

/-- Whether a key has the same configuration in a snapshot. -/
def holds (s : Snapshot) (key : ProjectKey) (config : ProjectConfig) : Bool :=
  (s.get? key).any (·.same config)

end Snapshot

/-- The difference between two snapshots: what was added or changed, and the keys that no
longer have an override. -/
structure OverrideChanges where
  updated : Snapshot
  removed : List ProjectKey

namespace OverrideChanges

/-- The difference that leads from one snapshot to the next. -/
def between (previous next : Snapshot) : OverrideChanges where
  updated := next.filter fun key config => !previous.holds key config
  removed := previous.keys.filter fun key => !next.contains key

def isEmpty (c : OverrideChanges) : Bool := c.updated.isEmpty && c.removed.isEmpty

def size (c : OverrideChanges) : Nat := c.updated.size + c.removed.length

end OverrideChanges

namespace Snapshot

/-- Scans a directory again: the next snapshot and the changes that lead to it. -/
def reload (previous : Snapshot) (d : Directory) :
    Except OverrideFault (Snapshot × OverrideChanges) :=
  (scan d).map fun next => (next, .between previous next)

/-- What a reload records: that it took place, and how many keys changed, if any. -/
def reloadSamples (previous : Snapshot) (d : Directory) : List Sample :=
  ⟨.overridesReload, [], 1⟩ ::
    match previous.reload d with
    | .ok (_, changes) => if changes.isEmpty then [] else [⟨.overridesChanged, [], changes.size⟩]
    | .error _ => []

end Snapshot

end AdmissionCache
