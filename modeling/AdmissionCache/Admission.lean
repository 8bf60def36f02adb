import AdmissionCache.Cache.Slot
import AdmissionCache.Metrics

namespace AdmissionCache

inductive RejectReason
  | projectDisabled
  | projectNotFound
  deriving DecidableEq, Repr

namespace RejectReason

def name : RejectReason → String
  | .projectDisabled => "project_id"
  | .projectNotFound => "project not found"

/-- The category of every rejection: invalid. -/
def category (_ : RejectReason) : Nat := 3

end RejectReason

/-- The record of a rejected item. -/
structure Outcome where
  projectKey : ProjectKey
  category : Nat
  reason : String
  deriving DecidableEq, Repr

def Outcome.ofReason (key : ProjectKey) (reason : RejectReason) : Outcome :=
  ⟨key, reason.category, reason.name⟩

/-- The count of a rejection, by reason. -/
def Sample.ofRejection (o : Outcome) : Sample := ⟨.admissionRejected, [("reason", o.reason)], 1⟩

/-- What becomes of an item. An item of a project about which nothing is known yet is
let through. -/
inductive Admission
  | admitted (config : ProjectConfig)
  | optimistic
  | rejected (reason : RejectReason)
  deriving Repr

namespace Admission

def isAdmitted : Admission → Bool
  | .rejected _ => false
  | _ => true

def reason? : Admission → Option RejectReason
  | .rejected reason => some reason
  | _ => none

/-- The outcome that an item of the project `key` leaves behind. -/
def outcome? (a : Admission) (key : ProjectKey) : Option Outcome :=
  a.reason?.map (Outcome.ofReason key)

end Admission

/-- A usable configuration admits unless it is disabled, and a missing project
rejects. -/
def Decision.admission : Decision → Admission
  | .useFresh config => if config.disabled then .rejected .projectDisabled else .admitted config
  | .useStale config => if config.disabled then .rejected .projectDisabled else .admitted config
  | .notFound => .rejected .projectNotFound
  | .unknown => .optimistic

end AdmissionCache
