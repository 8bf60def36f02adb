import AdmissionCache.Query.Status

namespace AdmissionCache

/-- How one attempt of a query can fail. -/
inductive AttemptFault
  | timedOut
  | unreachable (cause : String)
  | refused (status : StatusCode)
  | undecodable
  deriving DecidableEq, Repr

namespace AttemptFault

/-- Whether another attempt may do better. -/
def isRetryable : AttemptFault → Bool
  | .timedOut => true
  | .unreachable _ => true
  | .refused status => status.isTransient
  | .undecodable => false

def kind : AttemptFault → String
  | .timedOut => "timeout"
  | .unreachable _ => "transport"
  | .refused _ => "status"
  | .undecodable => "decode"

/-- The text of a fault that has one of its own. -/
def message? : AttemptFault → Option String
  | .timedOut => some "upstream request timed out"
  | .unreachable cause => some ("could not reach upstream: " ++ cause)
  | .refused status => some ("upstream request returned error " ++ status.text)
  | .undecodable => none

end AttemptFault

/-- A count of 32 bits as a number. -/
instance countCoe : CoeOut UInt32 Nat := ⟨UInt32.toNat⟩

/-- Why a query failed: because of the fault of its last attempt, or because there was
no time left for another one after that. Attempts are counted in 32 bits. -/
inductive QueryFault
  | attempt (fault : AttemptFault)
  | exhausted (attempts : UInt32) (last : AttemptFault)
  deriving DecidableEq, Repr

namespace QueryFault

/-- An exhausted query has made its retries already. -/
def isRetryable : QueryFault → Bool
  | .attempt fault => fault.isRetryable
  | .exhausted _ _ => false

def kind : QueryFault → String
  | .attempt fault => fault.kind
  | .exhausted _ _ => "exhausted"

/-- The text of a fault that has one of its own. -/
def message? : QueryFault → Option String
  | .attempt fault => fault.message?
  | .exhausted attempts last => last.message?.map fun text =>
    "upstream query abandoned after " ++ toString attempts ++ " attempts: " ++ text

end QueryFault

end AdmissionCache
