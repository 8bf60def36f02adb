import AdmissionCache.Overrides.Snapshot
import AdmissionCache.Query.Course
import AdmissionCache.Shared.Store

namespace AdmissionCache

/-- What is found out about a key. An unchanged key comes with the revision that was sent
along for it. -/
inductive Resolution
  | config (config : ProjectConfig)
  | unchanged (revision : Option Revision)
  | notFound
  | pending
  | failed
  deriving Repr

namespace Resolution

def name : Resolution → String
  | .config _ => "config"
  | .unchanged _ => "unchanged"
  | .notFound => "not_found"
  | .pending => "pending"
  | .failed => "failed"

def isPending : Resolution → Bool
  | .pending => true
  | _ => false

/-- What the authority's word about a key amounts to. A key that it does not mention has
no project. -/
def ofOutcome (revision : Option Revision) : Option KeyOutcome → Resolution
  | some (.config document) => .config document
  | some .unchanged => .unchanged revision
  | some .pending => .pending
  | some (.invalid _) => .failed
  | some .notFound => .notFound
  | none => .notFound

end Resolution

abbrev Resolved := ProjectKey × Resolution

/-- Where a resolution comes from. -/
inductive SourceName
  | overrides
  | shared
  | authority
  deriving DecidableEq, Repr

def SourceName.text : SourceName → String
  | .overrides => "override"
  | .shared => "shared_cache"
  | .authority => "upstream"

/-- The count of a key that is resolved. -/
def Sample.ofFetch (source : SourceName) (result : String) : Sample :=
  ⟨.fetchResult, [("result", result), ("source", source.text)], 1⟩

/-- The sources that are consulted before the authority: the overrides and the shared
store with its content, where they are in use. -/
structure NearSources where
  overrides : Option Snapshot
  store : Option SharedStore
  content : StoreContent

/-- What the near sources say about a key, what is recorded about that, and which entries
of the store are read for it. -/
structure Consultation where
  resolution? : Option Resolution := none
  samples : List Sample := []
  entries : List String := []

namespace NearSources

def consultStore (store : SharedStore) (content : StoreContent) (asked : AskedKey) :
    Consultation :=
  let reading := store.lookup content asked.1 asked.2
  let lookup := SharedStore.lookupSample reading.result
  match reading.result with
  | .ok (.hit config) =>
    ⟨some (.config config), [lookup, .ofFetch .shared "config"], reading.entries⟩
  | .ok .unchanged =>
    ⟨some (.unchanged asked.2), [lookup, .ofFetch .shared "unchanged"], reading.entries⟩
  | .ok .miss => ⟨none, [lookup], reading.entries⟩
  | .error _ => ⟨none, [lookup], reading.entries⟩

/-- Consults the overrides and, if they do not have the key, the shared store. A store
that does not answer is passed over. -/
def consult (near : NearSources) (asked : AskedKey) : Consultation :=
  match near.overrides.bind (·.get? asked.1) with
  | some config => ⟨some (.config config), [.ofFetch .overrides "config"], []⟩
  | none =>
    match near.store with
    | some store => consultStore store near.content asked
    | none => {}

end NearSources

/-- What has been found out about the keys of a batch so far, and the keys for which the
authority has to be asked. -/
structure Findings where
  resolved : List Resolved := []
  remaining : List AskedKey := []

/-- The resolutions that the end of a query brings for the keys it asked for. -/
def answersOf (asked : List AskedKey) (result : Except QueryFault ConfigsResponse) :
    List Resolved :=
  match result with
  | .ok response =>
    let outcomes := response.outcomes (asked.map (·.1))
    asked.map fun a => (a.1, .ofOutcome a.2 (outcomes.get? a.1))
  | .error _ => asked.map fun a => (a.1, .failed)

/-- What the resolutions by the authority record. -/
def answerSamples (resolved : List Resolved) : List Sample :=
  resolved.map fun r => .ofFetch .authority r.2.name

namespace Findings

/-- Adds what the near sources say about a key. -/
def add (f : Findings) (asked : AskedKey) : Option Resolution → Findings
  | some resolution => { f with resolved := f.resolved ++ [(asked.1, resolution)] }
  | none => { f with remaining := f.remaining ++ [asked] }

/-- The findings about a batch, given the near sources as each key finds them. -/
def ofBatch (near : ProjectKey → NearSources) (batch : List AskedKey) : Findings :=
  batch.foldl (fun f asked => f.add asked ((near asked.1).consult asked).resolution?) {}

/-- All resolutions, once the authority has answered. -/
def answered (f : Findings) (result : Except QueryFault ConfigsResponse) : List Resolved :=
  f.resolved ++ answersOf f.remaining result

end Findings

/-- The resolution of a whole batch, the entries of the store that are read, each with the key
for which it is, and the requests that are made to the authority. -/
structure BatchReport where
  resolved : List Resolved
  reads : List (ProjectKey × String)
  requests : List ConfigsRequest

/-- Resolves a batch, given the near sources as each key finds them. The authority is asked
once for all keys that remain, and not at all if there are none. -/
def resolveBatch (near : ProjectKey → NearSources)
    (authority : ConfigsRequest → Except QueryFault ConfigsResponse) (batch : List AskedKey) :
    BatchReport :=
  let findings := Findings.ofBatch near batch
  let reads := batch.flatMap fun asked => ((near asked.1).consult asked).entries.map (asked.1, ·)
  match findings.remaining with
  | [] => ⟨findings.resolved, reads, []⟩
  | remaining =>
    let request := ConfigsRequest.ofBatch remaining
    ⟨findings.answered (authority request), reads, [request]⟩

end AdmissionCache
