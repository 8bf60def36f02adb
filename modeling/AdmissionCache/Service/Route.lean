import AdmissionCache.Query.Status
import AdmissionCache.Service.Client
import AdmissionCache.Url.Percent

namespace AdmissionCache

/-- What a path names. A project key still has the form in which it was sent. -/
inductive Resource
  | admission (segment : String)
  | project (segment : String)
  | ready
  | live
  deriving DecidableEq, Repr

namespace Resource

/-- The path of a target, without its query. -/
def pathOf (target : String) : String :=
  String.ofList (target.toList.takeWhile fun c => c ≠ '?' ∧ c ≠ '#')

/-- The resource of a target. Keys are single segments that are not empty. -/
def ofTarget? (target : String) : Option Resource :=
  match (pathOf target).splitOn "/" with
  | ["", "api", "admission", segment] => if segment.isEmpty then none else some (.admission segment)
  | ["", "api", "project", segment] => if segment.isEmpty then none else some (.project segment)
  | ["", "health", "ready"] => some .ready
  | ["", "health", "live"] => some .live
  | _ => none

/-- The key in a segment, if it is text once it is decoded. -/
def keyOf? (segment : String) : Option ProjectKey :=
  String.fromUTF8? ⟨(Percent.decode segment.toUTF8.toList).toArray⟩

end Resource

/-- A reply; some have no body. -/
structure HttpReply where
  status : StatusCode
  body : Option Json := none

namespace HttpReply

def ok (body : Json) : HttpReply := ⟨⟨200⟩, some body⟩

def badRequest : HttpReply := ⟨⟨400⟩, none⟩

def notFound : HttpReply := ⟨⟨404⟩, none⟩

def methodNotAllowed : HttpReply := ⟨⟨405⟩, none⟩

/-- The reply to the question whether an item is admitted. -/
def ofAdmission : Admission → HttpReply
  | .admitted _ =>
    ok (.ofMembers [("admitted", .bool true), ("state", .string "configured")])
  | .optimistic =>
    ok (.ofMembers [("admitted", .bool true), ("state", .string "pending")])
  | .rejected reason =>
    ⟨⟨403⟩, some (.ofMembers [("admitted", .bool false), ("reason", .string reason.name),
      ("category", .ofNat reason.category)])⟩

/-- The reply to the question for a configuration. -/
def ofProject : Option ProjectConfig → HttpReply
  | some config => ok config.document
  | none =>
    ⟨⟨404⟩, some (.ofMembers [("error_message", .string "project config is not available")])⟩

end HttpReply

namespace Service

/-- The reply to a read of a resource. Asking for an admission is a check. -/
def read (s : Service) (now : Instant) : Resource → Except PeriodOverflow (Service × HttpReply)
  | .admission segment =>
    match Resource.keyOf? segment with
    | none => .ok (s, .badRequest)
    | some key => (s.call .check key now).map fun r => (r.1, .ofAdmission r.2.admission)
  | .project segment =>
    match Resource.keyOf? segment with
    | none => .ok (s, .badRequest)
    | some key => (s.projectConfig key now).map fun config => (s, .ofProject config)
  | .ready => .ok (s, ⟨⟨if s.isReady then 200 else 503⟩, none⟩)
  | .live => .ok (s, ⟨⟨200⟩, none⟩)

/-- The reply to a request. `HEAD` is answered as `GET`, without the body. -/
def respond (s : Service) (method target : String) (now : Instant) :
    Except PeriodOverflow (Service × HttpReply) :=
  match Resource.ofTarget? target with
  | none => .ok (s, .notFound)
  | some resource =>
    if method = "GET" then s.read now resource
    else if method = "HEAD" then
      (s.read now resource).map fun r => (r.1, { r.2 with body := none })
    else .ok (s, .methodNotAllowed)

end Service

end AdmissionCache
