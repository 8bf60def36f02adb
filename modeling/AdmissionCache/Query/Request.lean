import AdmissionCache.Project.Config
import AdmissionCache.Record

namespace AdmissionCache

/-- A key together with the revision known for it. -/
abbrev AskedKey := ProjectKey × Option Revision

/-- A request for project configurations. Revisions go along by position: the `n`-th entry is the
last known revision of the `n`-th key. The list is left out when no key has one. -/
structure ConfigsRequest where
  publicKeys : List ProjectKey := []
  revisions : Option (List (Option Revision)) := none
  fullConfig : Bool := false
  noCache : Bool := false
  global : Bool := false
  deriving DecidableEq, Repr

namespace ConfigsRequest

/-- The request for a batch of keys. -/
def ofBatch (batch : List AskedKey) : ConfigsRequest where
  publicKeys := batch.map (·.1)
  revisions := if batch.any fun a => a.2.isSome then some (batch.map (·.2)) else none
  fullConfig := true

/-- The request for the global configuration alone. -/
def forGlobal : ConfigsRequest where
  fullConfig := true
  global := true

/-- The revision sent for a key: the one at the place where the key first occurs. -/
def revision? (r : ConfigsRequest) (key : ProjectKey) : Option Revision := do
  let index ← r.publicKeys.findIdx? (· == key)
  let revisions ← r.revisions
  (revisions[index]?).join

def revisionsMember (r : ConfigsRequest) : List (String × Json) :=
  match r.revisions with
  | none => []
  | some revisions => [("revisions", .array (revisions.map (Json.ofOption .string)))]

def toJson (r : ConfigsRequest) : Json :=
  .ofMembers ([("publicKeys", .array (r.publicKeys.map .string))] ++ r.revisionsMember ++
    [("fullConfig", .bool r.fullConfig), ("noCache", .bool r.noCache), ("global", .bool r.global)])

/-- The fields of the wire form in order. -/
def fields {β : Type} [Readable β] : List (Field β ConfigsRequest) :=
  [ ⟨"publicKeys", .required, fun b r => do .ok { r with publicKeys := ← readList readText b }⟩,
    ⟨"revisions", .optional, fun b r => do
      .ok { r with revisions := ← readOption (readList (readOption readText)) b }⟩,
    ⟨"fullConfig", .optional, fun b r => do .ok { r with fullConfig := ← readBool b }⟩,
    ⟨"noCache", .optional, fun b r => do .ok { r with noCache := ← readBool b }⟩,
    ⟨"global", .optional, fun b r => do .ok { r with global := ← readBool b }⟩ ]

def read {β : Type} [Readable β] (b : β) : Except ReadFault ConfigsRequest := readRecord fields {} b

/-- Reads a request from its text. -/
def ofBytes? (bytes : List UInt8) : Option ConfigsRequest :=
  (Written.ofBytes? bytes).bind fun w => (read (Nested.mk 0 w)).toOption

end ConfigsRequest

end AdmissionCache
