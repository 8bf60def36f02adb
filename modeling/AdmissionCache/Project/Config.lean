import AdmissionCache.Json.Written
import AdmissionCache.KeyMap

namespace AdmissionCache

/-- The public key that names a project's configuration. Any text is a key. -/
abbrev ProjectKey := String

/-- The token that a source gives to one version of a configuration. -/
abbrev Revision := String

/-- Why a document is no project configuration. -/
inductive DocumentFault
  | notJson
  | notAnObject
  deriving DecidableEq, Repr

def DocumentFault.message : DocumentFault → String
  | .notJson => "invalid JSON"
  | .notAnObject => "project config must be a JSON object"

/-- A project configuration, given by the members of its document. -/
structure ProjectConfig where
  members : List (String × Json)
  deriving Repr

namespace ProjectConfig

def document (c : ProjectConfig) : Json := .object c.members

/-- A project is disabled only if its document says `true`. -/
def disabled (c : ProjectConfig) : Bool :=
  ((c.document.member? "disabled").bind Json.bool?).getD false

/-- The revision, if it is text. -/
def revision? (c : ProjectConfig) : Option Revision :=
  (c.document.member? "rev").bind Json.string?

/-- The keys that the document lists, repetitions included. -/
def publicKeys (c : ProjectConfig) : List ProjectKey :=
  match (c.document.member? "publicKeys").bind Json.array? with
  | some entries => entries.filterMap fun e => (e.member? "publicKey").bind Json.string?
  | none => []

/-- Whether two configurations have the same document. -/
def same (a b : ProjectConfig) : Bool := a.document.same b.document

def ofJson : Json → Except DocumentFault ProjectConfig
  | .object members => .ok ⟨members⟩
  | _ => .error .notAnObject

def ofBytes (bytes : List UInt8) : Except DocumentFault ProjectConfig :=
  match Json.ofBytes? bytes with
  | some document => ofJson document
  | none => .error .notJson

end ProjectConfig

end AdmissionCache
